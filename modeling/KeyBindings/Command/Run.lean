import KeyBindings.Command.Options
import KeyBindings.Script.Replay
import KeyBindings.Settings.File
import KeyBindings.Settings.Sample

/-!
# What the command does

The command loads settings, registers bindings and replays a script. It is written over an
`Environment`, which answers what files and standard input hold, in any monad; so the same program
runs on real files and on values.

It is a `Job`: each stage may ask the surroundings, print, or fail, and what was printed before a
failure stays printed. `execute` has the stages in their order. That all that can fail comes before
the first print is a property of this order, not of `Job`.
-/

namespace KeyBindings.Command

/-! ## 1. Surroundings and outcome -/

/-- What the command asks its surroundings. -/
structure Environment (m : Type → Type) where
  /-- Whether something stands at a path. No, if that cannot be found out. -/
  isThere : String → m Bool
  file : Reader m
  input : m FileContent
  /-- Where settings are by default, if there is such a place. -/
  settingsPath : Option String

/-- What the command leaves. -/
structure Outcome where
  exitCode : Nat
  stdout : String
  stderr : String
  deriving DecidableEq, Repr

namespace Outcome

/-- The command did what it was asked. -/
def done (text : String) : Outcome := ⟨0, text, ""⟩

/-- What is left of a job: what it printed, and the report on its failure if it failed. -/
def ofResult : Except Failure Unit × String → Outcome
  | (.ok (), printed) => .done printed
  | (.error f, printed) => ⟨1, printed, f.report⟩

end Outcome

/-! ## 2. Failures -/

/-- Why settings could not be loaded; a file that cannot be read names its reason once more. -/
def settingsFailure (e : SettingsError) : Failure :=
  match e with
  | .unreadable reason => ⟨e.message, [reason.message]⟩
  | .malformed _ | .zeroLength _ | .unknownNaming _ | .noSource => Failure.of e.message

/-! ## 3. Jobs -/

/-- Asks the surroundings, prints, and may fail. The state is what has been printed so far; it is
    there after a failure too. -/
abbrev Job (m : Type → Type) (α : Type) : Type := ExceptT Failure (StateT String m) α

section Run

variable {m : Type → Type} [Monad m] {α : Type}

/-- Asks the surroundings. -/
def ask (question : m α) : Job m α := ExceptT.lift (StateT.lift question)

/-- Goes on with what a stage gives, or ends with its failure. -/
def orFail (result : Except Failure α) : Job m α := ExceptT.mk (pure result)

def print (text : String) : Job m Unit := ExceptT.lift (modify (· ++ text))

/-- Prints lines one after the other. -/
def printLines (lines : List String) : Job m Unit := lines.forM fun line => print (line ++ "\n")

/-! ## 4. The run -/

/-- Loads the settings that the options name, or those of the default place. -/
def loadSettings (env : Environment m) (o : Options) : Job m Settings :=
  match o.config with
  | some path => do
    let loaded ← ask (Settings.load env.file path)
    orFail (loaded.mapError fun e =>
      (settingsFailure e).under ("failed to load settings from " ++ path))
  | none => do
    let loaded ← ask (Settings.loadDefault env.isThere env.file env.settingsPath)
    orFail (loaded.mapError fun e => (settingsFailure e).under "failed to load default settings")

/-- Reads the script that the options name, or standard input. -/
def readScriptText (env : Environment m) (o : Options) : Job m String :=
  match o.script with
  | some path => do
    let content ← ask (env.file path)
    orFail (content.text.mapError fun e =>
      (Failure.of e.message).under ("failed to read script " ++ path))
  | none => do
    let content ← ask env.input
    orFail (content.text.mapError fun e =>
      (Failure.of e.message).under "failed to read script from stdin")

/-- The line on a configuration without faults. -/
def validLine (bindings : Nat) : String :=
  "Configuration is valid (" ++ toString bindings ++ " binding(s))"

/-- The run of the command, on the options that its arguments give. -/
def execute (env : Environment m) (o : Options) : Job m Unit :=
  if o.printDefaultConfig then print Settings.sample
  else do
    let settings ← loadSettings env o
    let manager ← orFail ((Manager.new settings).registerAll o.bindings)
    if o.checkConfig then printLines [validLine manager.registry.size]
    else if manager.registry.isEmpty then throw (Failure.of "no bindings given; use --bind")
    else
      let text ← readScriptText env o
      let steps ← orFail ((Script.ofText text).mapError Script.Error.failure)
      printLines (Replay.replay manager steps).lines

end Run

/-! ## 5. The command line -/

def versionText : String := "inputman 0.3.0\n"

/-- How the command is used. -/
def usageText : String := "Usage: inputman [OPTIONS]\n"

def helpText : String :=
  String.join (([
    "Replay input events against key/mouse bindings",
    "",
    "Usage: inputman [OPTIONS]",
    "",
    "Options:",
    "  -b, --bind <BINDING>        Binding string to register (can be used multiple times)",
    "  -s, --script <SCRIPT>       Event script; reads stdin when omitted",
    "  -c, --config <CONFIG>       TOML settings file",
    "  -v, --verbose               Enable debug logging",
    "      --check-config          Validate settings and bindings, then exit",
    "      --print-default-config  Print a default settings file and exit",
    "  -h, --help                  Print help",
    "  -V, --version               Print version"]).map (· ++ "\n"))

/-- What arguments leave that end before their end. -/
def Stop.outcome : Stop → Outcome
  | .help => .done helpText
  | .version => .done versionText
  | .fault e =>
    ⟨2, "", "error: " ++ e.message ++ "\n\n" ++ usageText ++
      "\nFor more information, try '--help'.\n"⟩

/-- The command on a list of arguments. -/
def run {m : Type → Type} [Monad m] (env : Environment m) (arguments : List String) : m Outcome :=
  match Options.ofArguments arguments with
  | .error stop => return stop.outcome
  | .ok o => do return Outcome.ofResult (← (execute env o).run.run "")

end KeyBindings.Command
