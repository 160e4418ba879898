import KeyBindings.Failure
import KeyBindings.Input.Action
import KeyBindings.Input.Basic
import KeyBindings.Text.Number
import KeyBindings.Text.Split

/-!
# Scripts: input written down, one step to a line

A line holds an action and the input it happens to, or `wait` and a number of milliseconds; the
rest of a line from `#` on is a comment, and lines with nothing else are skipped. A script is read
from the top, and the first bad line ends the reading; its number counts every line, skipped ones
too.

* `Script.readLine` -- one line;
* `Script.ofText` -- a whole script, or its first bad line. **`readLines_append`**: what the first
  lines give comes first, and a bad line among them hides all later ones.
-/

namespace KeyBindings.Script

/-- A step of a script. -/
inductive Step where
  | input (action : Action) (input : Input)
  | wait (duration : Nat)
  deriving DecidableEq, Repr

/-! ## 1. Errors -/

/-- What is wrong with a line. -/
inductive LineError where
  /-- More than two words. -/
  | tooManyFields (line : String)
  /-- A wait that is no number. -/
  | badWait (duration : String) (reason : Text.NumberError)
  /-- A word that is no action. -/
  | unknownAction (verb : String)
  /-- One word alone. -/
  | missingArgument (line : String)
  deriving DecidableEq, Repr

/-- The first bad line of a script. -/
structure Error where
  number : Nat
  reason : LineError
  deriving DecidableEq, Repr

def LineError.message : LineError → String
  | .tooManyFields line => "too many fields in '" ++ line ++ "'"
  | .badWait duration _ => "bad wait '" ++ duration ++ "'"
  | .unknownAction verb => "unknown action '" ++ verb ++ "'"
  | .missingArgument line => "missing argument in '" ++ line ++ "'"

/-- Why a word could not be read. -/
def LineError.causes : LineError → List String
  | .badWait _ reason => [reason.message]
  | .unknownAction _ => [unknownSpelling]
  | .tooManyFields _ | .missingArgument _ => []

def Error.failure (e : Error) : Failure :=
  ⟨"line " ++ toString e.number ++ ": " ++ e.reason.message, e.reason.causes⟩

/-! ## 2. Lines -/

/-- What a line says: the part in front of its comment, trimmed. -/
def content (line : List Char) : List Char := Text.trim (line.takeWhile (· ≠ '#'))

/-- The word that begins a wait, in exactly this spelling. -/
def waitWord : List Char := ['w', 'a', 'i', 't']

/-- The step of two words. -/
def readStep (verb argument : List Char) : Except LineError Step :=
  if verb = waitWord then
    match Text.readNumber argument with
    | .error reason => .error (.badWait (String.ofList argument) reason)
    | .ok duration => .ok (.wait duration)
  else
    match Action.ofText? (String.ofList verb) with
    | none => .error (.unknownAction (String.ofList verb))
    | some action => .ok (.input action (String.ofList argument))

/-- The step of a line, or nothing for a line that says nothing. -/
def readLine (line : List Char) : Except LineError (Option Step) :=
  match Text.words (content line) with
  | [] => .ok none
  | [_] => .error (.missingArgument (String.ofList (content line)))
  | [verb, argument] => (readStep verb argument).map some
  | _ => .error (.tooManyFields (String.ofList (content line)))

/-! ## 3. Scripts -/

/-- The steps of lines, of which the first has a given number. -/
def readLines (number : Nat) : List (List Char) → Except Script.Error (List Step)
  | [] => .ok []
  | line :: lines =>
    match readLine line with
    | .error reason => .error ⟨number, reason⟩
    | .ok step => (readLines (number + 1) lines).map (step.toList ++ ·)

/-- The steps of a script, or its first bad line. Lines count from one. -/
def ofText (text : String) : Except Script.Error (List Step) :=
  readLines 1 (Text.lines text.toList)

/-- **Lines are read one after another**: what the first ones give comes first, and the first bad
    line of all is the one reported. -/
theorem readLines_append (number : Nat) (as bs : List (List Char)) :
    readLines number (as ++ bs) =
      match readLines number as with
      | .error e => .error e
      | .ok steps => (readLines (number + as.length) bs).map (steps ++ ·) := by
  induction as generalizing number with
  | nil =>
    simp only [List.nil_append, readLines, List.length_nil, Nat.add_zero]
    cases readLines number bs <;> rfl
  | cons line lines ih =>
    rw [List.cons_append, readLines, readLines]
    cases readLine line with
    | error reason => rfl
    | ok step =>
      simp only
      rw [ih, List.length_cons, show number + (lines.length + 1) = number + 1 + lines.length by omega]
      cases readLines (number + 1) lines with
      | error e => rfl
      | ok steps =>
        cases readLines (number + 1 + lines.length) bs with
        | error e => rfl
        | ok more => simp [Except.map]

end KeyBindings.Script
