import KeyBindings.Files.Reading
import KeyBindings.Settings.Basic
import KeyBindings.Toml.Document

/-!
# Settings written in TOML

A settings file is a flat TOML document with five keys, each of them optional. It is read in two
steps: `Entries.ofDocument` takes the values by key, each of its type, and refuses an unknown key,
a key that stands twice and a value of another type; `Settings.ofEntries` then checks the values.
So a malformed document is reported before any value is, and of several bad values the first in a
fixed order is, whatever their order in the file.
-/

namespace KeyBindings

/-! ## 1. Keys -/

namespace Settings

def windowKey : String := "release_window_ms"
def maxReleasesKey : String := "max_release_sequence_length"
def maxInputsKey : String := "max_input_sequence_length"
def preventsDefaultKey : String := "prevents_default"
def namingKey : String := "key_naming"

end Settings

/-! ## 2. Entries -/

/-- Why a document holds no settings. -/
inductive DocumentError where
  /-- A line that is no entry, by its number. -/
  | malformed (line : Nat)
  | unknownKey (key : String)
  | duplicateKey (key : String)
  | wrongType (key : String)
  deriving DecidableEq, Repr

def DocumentError.message : DocumentError → String
  | .malformed line => "line " ++ toString line ++ ": expected a key and a value"
  | .unknownKey key => "unknown key '" ++ key ++ "'"
  | .duplicateKey key => "key '" ++ key ++ "' stands twice"
  | .wrongType key => "key '" ++ key ++ "' has a value of the wrong type"

/-- The values of a settings file, those that it gives. -/
structure Entries where
  releaseWindow : Option Nat
  maxReleases : Option Nat
  maxInputs : Option Nat
  preventsDefault : Option Bool
  naming : Option String
  deriving DecidableEq, Repr

namespace Entries

/-- No values at all. -/
def none : Entries := ⟨.none, .none, .none, .none, .none⟩

/-- An integer that is not negative. -/
def natural? : Toml.Value → Option Nat
  | .integer n => if 0 ≤ n then some n.toNat else .none
  | _ => .none

def boolean? : Toml.Value → Option Bool
  | .boolean b => some b
  | _ => .none

def string? : Toml.Value → Option String
  | .string s => some s
  | _ => .none

/-- The value of a key that stands for the first time and has its type. -/
def take {α : Type} (old : Option α) (read : Toml.Value → Option α) (entry : Toml.Entry) :
    Except DocumentError (Option α) :=
  match old, read entry.value with
  | some _, _ => .error (.duplicateKey entry.key)
  | .none, .none => .error (.wrongType entry.key)
  | .none, some value => .ok (some value)

/-- Takes one more entry. -/
def add (e : Entries) (entry : Toml.Entry) : Except DocumentError Entries :=
  if entry.key = Settings.windowKey then
    (take e.releaseWindow natural? entry).map fun v => { e with releaseWindow := v }
  else if entry.key = Settings.maxReleasesKey then
    (take e.maxReleases natural? entry).map fun v => { e with maxReleases := v }
  else if entry.key = Settings.maxInputsKey then
    (take e.maxInputs natural? entry).map fun v => { e with maxInputs := v }
  else if entry.key = Settings.preventsDefaultKey then
    (take e.preventsDefault boolean? entry).map fun v => { e with preventsDefault := v }
  else if entry.key = Settings.namingKey then
    (take e.naming string? entry).map fun v => { e with naming := v }
  else .error (.unknownKey entry.key)

/-- The values of a document. -/
def ofDocument (document : String) : Except DocumentError Entries := do
  let entries ← (Toml.readDocument document).mapError .malformed
  entries.foldlM add none

end Entries

/-! ## 3. Settings -/

/-- Why there are no settings. -/
inductive SettingsError where
  /-- The file cannot be read. -/
  | unreadable (reason : ReadError)
  /-- The text is no settings file. -/
  | malformed (reason : DocumentError)
  /-- A length is zero. -/
  | zeroLength (key : String)
  /-- The text names no key naming. -/
  | unknownNaming (text : String)
  /-- There is no file to read again. -/
  | noSource
  deriving DecidableEq, Repr

/-- What is wrong with a value, for the three faults of values. -/
def SettingsError.invalidValue (what : String) : String := "Invalid setting value: " ++ what

def SettingsError.message : SettingsError → String
  | .unreadable reason => "IO error: " ++ reason.message
  | .malformed reason => "TOML parse error: " ++ reason.message
  | .zeroLength key => invalidValue (key ++ " must be at least 1")
  | .unknownNaming text =>
    invalidValue ("key_naming must be \"physical\" or \"logical\", got '" ++ text ++ "'")
  | .noSource => invalidValue "No source path set"

namespace Settings

/-- A length that is given has to be positive. -/
def requirePositive (key : String) (length : Nat) : Except SettingsError { n : Nat // 0 < n } :=
  if h : 0 < length then .ok ⟨length, h⟩ else .error (.zeroLength key)

/-- A naming that is given has to be known. -/
def requireNaming (text : String) : Except SettingsError KeyNaming :=
  (KeyNaming.ofText? text).elim (.error (.unknownNaming text)) .ok

/-- The settings that entries ask for; what they leave out is as in the default. -/
def ofEntries (e : Entries) : Except SettingsError Settings := do
  let maxReleases ← requirePositive maxReleasesKey (e.maxReleases.getD default.maxReleases)
  let maxInputs ← requirePositive maxInputsKey (e.maxInputs.getD default.maxInputs)
  let naming ← e.naming.elim (.ok default.naming) requireNaming
  return {
    releaseWindow := e.releaseWindow.getD default.releaseWindow
    maxReleases := maxReleases.val
    maxInputs := maxInputs.val
    preventsDefault := e.preventsDefault.getD default.preventsDefault
    naming := naming
    source := none
    maxReleases_pos := maxReleases.property
    maxInputs_pos := maxInputs.property }

/-- Reads settings from the text of a file. -/
def ofText (text : String) : Except SettingsError Settings := do
  let entries ← (Entries.ofDocument text).mapError .malformed
  ofEntries entries

theorem ofEntries_none : ofEntries .none = .ok default := rfl

end Settings

end KeyBindings
