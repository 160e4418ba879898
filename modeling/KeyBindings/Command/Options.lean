/-!
# The command line's options

Arguments are read from the left. A short option may stand in a cluster with others (`-vb A`), a
value may stand in the next argument or in the same one (`--bind=A`, `-b=A`, `-bA`), and the first
thing that ENDS the reading -- a fault, or the wish for the help or the version -- decides, whatever
comes after it.
-/

namespace KeyBindings.Command

/-! ## 1. Options -/

/-- What the arguments choose. -/
structure Options where
  /-- The bindings to register, in order. -/
  bindings : List String
  /-- The script to replay; standard input when absent. -/
  script : Option String
  /-- The settings file; the default place when absent. -/
  config : Option String
  verbose : Bool
  checkConfig : Bool
  printDefaultConfig : Bool
  deriving DecidableEq, Repr

/-- No option given. -/
def Options.none : Options := ⟨[], .none, .none, false, false, false⟩

/-- The names of the options. -/
inductive OptionName where
  | bind
  | script
  | config
  | verbose
  | checkConfig
  | printDefaultConfig
  | help
  | version
  deriving DecidableEq, Repr

namespace OptionName

/-- The spelling behind two dashes. -/
def long : OptionName → String
  | .bind => "bind"
  | .script => "script"
  | .config => "config"
  | .verbose => "verbose"
  | .checkConfig => "check-config"
  | .printDefaultConfig => "print-default-config"
  | .help => "help"
  | .version => "version"

/-- The letter behind one dash, for the options that have one. -/
def short? : OptionName → Option Char
  | .bind => some 'b'
  | .script => some 's'
  | .config => some 'c'
  | .verbose => some 'v'
  | .checkConfig | .printDefaultConfig => none
  | .help => some 'h'
  | .version => some 'V'

/-- Whether the option takes a value. -/
def takesValue : OptionName → Bool
  | .bind | .script | .config => true
  | .verbose | .checkConfig | .printDefaultConfig | .help | .version => false

def all : List OptionName :=
  [.bind, .script, .config, .verbose, .checkConfig, .printDefaultConfig, .help, .version]

def ofLong? (text : List Char) : Option OptionName := all.find? (·.long.toList = text)

def ofShort? (letter : Char) : Option OptionName := all.find? (·.short? = some letter)

theorem ofLong?_long (name : OptionName) : ofLong? name.long.toList = some name := by
  cases name <;> decide

end OptionName

/-! ## 2. Faults -/

/-- What is wrong with the arguments. -/
inductive UsageError where
  /-- An argument that belongs to no option, or names none. -/
  | unexpected (argument : String)
  | missingValue (name : OptionName)
  /-- A value for an option that takes none. -/
  | unexpectedValue (name : OptionName)
  /-- An option that may be given once is given again. -/
  | repeated (name : OptionName)
  deriving DecidableEq, Repr

def UsageError.message : UsageError → String
  | .unexpected argument => "unexpected argument '" ++ argument ++ "' found"
  | .missingValue name => "a value is required for '--" ++ name.long ++ "' but none was supplied"
  | .unexpectedValue name => "unexpected value for '--" ++ name.long ++ "' found; no more were expected"
  | .repeated name => "the argument '--" ++ name.long ++ "' cannot be used multiple times"

/-- Why the reading of the arguments ends before their end. -/
inductive Stop where
  | help
  | version
  | fault (e : UsageError)
  deriving DecidableEq, Repr

/-! ## 3. Reading -/

namespace Options

/-- The fault of giving an option again that may be given once. -/
def again (name : OptionName) : Stop := .fault (.repeated name)

/-- Sets an option that takes no value. -/
def set (o : Options) (name : OptionName) : Except Stop Options :=
  match name with
  | .verbose => if o.verbose then .error (again name) else .ok { o with verbose := true }
  | .checkConfig =>
    if o.checkConfig then .error (again name) else .ok { o with checkConfig := true }
  | .printDefaultConfig =>
    if o.printDefaultConfig then .error (again name)
    else .ok { o with printDefaultConfig := true }
  | .help => .error .help
  | .version => .error .version
  | .bind | .script | .config => .error (.fault (.missingValue name))

/-- The path that an option is given, where `old` is the path it has been given before. A path is
    given once and is not empty. -/
def givePath (name : OptionName) (old : Option String) (value : String) :
    Except Stop (Option String) :=
  if old.isSome then .error (again name)
  else if value = "" then .error (.fault (.missingValue name))
  else .ok (some value)

/-- Gives an option its value. Bindings add up. -/
def give (o : Options) (name : OptionName) (value : String) : Except Stop Options :=
  match name with
  | .bind => .ok { o with bindings := o.bindings ++ [value] }
  | .script => (givePath name o.script value).map fun script => { o with script := script }
  | .config => (givePath name o.config value).map fun config => { o with config := config }
  | .verbose | .checkConfig | .printDefaultConfig | .help | .version =>
    .error (.fault (.unexpectedValue name))

/-- Reads an option in its long spelling, behind the two dashes. The second part of the answer is
    an option that still waits for its value. -/
def readLong (o : Options) (argument : String) (text : List Char) :
    Except Stop (Options × Option OptionName) :=
  let spelling := text.takeWhile (· ≠ '=')
  match OptionName.ofLong? spelling with
  | .none => .error (.fault (.unexpected argument))
  | some name =>
    match text.dropWhile (· ≠ '=') with
    | _ :: value => (o.give name (String.ofList value)).map fun given => (given, .none)
    | [] => if name.takesValue then .ok (o, some name) else (o.set name).map fun set => (set, .none)

/-- A value without the equals sign in front of it. -/
def attachedValue : List Char → String
  | '=' :: value => String.ofList value
  | value => String.ofList value

/-- Reads a cluster of short options, behind the dash. -/
def readShort (o : Options) (argument : String) :
    List Char → Except Stop (Options × Option OptionName)
  | [] => .ok (o, .none)
  | letter :: letters =>
    match OptionName.ofShort? letter with
    | .none => .error (.fault (.unexpected argument))
    | some name =>
      if name.takesValue then
        if letters.isEmpty then .ok (o, some name)
        else (o.give name (attachedValue letters)).map fun given => (given, .none)
      else
        match o.set name with
        | .error stop => .error stop
        | .ok set => set.readShort argument letters

/-- Reads one argument that is no value of the option before it. -/
def readArgument (o : Options) (argument : String) : Except Stop (Options × Option OptionName) :=
  match argument.toList with
  | '-' :: '-' :: text => o.readLong argument text
  | '-' :: c :: letters => o.readShort argument (c :: letters)
  | _ => .error (.fault (.unexpected argument))

/-- Whether an argument looks like an option. A lone dash does not. -/
def looksLikeOption (argument : String) : Bool :=
  argument.toList.head? == some '-' && argument != "-"

/-- Reads arguments from the left, where `waiting` is an option that waits for its value. Two
    dashes alone end the options, and nothing may follow them. -/
def read (o : Options) (waiting : Option OptionName) : List String → Except Stop Options
  | [] =>
    match waiting with
    | .none => .ok o
    | some name => .error (.fault (.missingValue name))
  | argument :: arguments =>
    match waiting with
    | some name =>
      if looksLikeOption argument then .error (.fault (.missingValue name))
      else
        match o.give name argument with
        | .error stop => .error stop
        | .ok given => given.read .none arguments
    | .none =>
      if argument = "--" then
        match arguments with
        | [] => .ok o
        | next :: _ => .error (.fault (.unexpected next))
      else
        match o.readArgument argument with
        | .error stop => .error stop
        | .ok (read, waiting) => read.read waiting arguments

/-- The options of a command line. -/
def ofArguments (arguments : List String) : Except Stop Options := none.read .none arguments

end Options

end KeyBindings.Command
