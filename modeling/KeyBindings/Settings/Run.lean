import KeyBindings.Files.FileSystem
import KeyBindings.Settings.File

/-!
# Runs on settings and the files they come from

Settings are made anew, read from texts and files, read again and built upon, while the files
change. A run is a list of such operations, carried out one after the other.

* `SettingsChange` -- a call of one builder;
* `SettingsHost` -- the files and the settings at hand;
* `SettingsHost.attempt` -- the settings at hand after an operation, and what came of it;
* `SettingsHost.answer` -- the same in one: the settings that it gives, or why it gives none;
* `SettingsHost.step`, `SettingsHost.run` -- one operation, and all of them.

What an operation gives takes the place of the settings at hand AS A WHOLE (`settings_step_of_ok`);
an operation that gives nothing leaves them as they are (**`settings_step_of_error`**).
-/

namespace KeyBindings

/-! ## 1. Operations -/

/-- A call of a builder. -/
inductive SettingsChange where
  | releaseWindow (window : Nat)
  | maxReleases (length : Nat)
  | maxInputs (length : Nat)
  | preventsDefault (prevents : Bool)
  | naming (naming : KeyNaming)
  deriving DecidableEq, Repr

namespace Settings

/-- Calls a builder. -/
def change (s : Settings) : SettingsChange → Settings
  | .releaseWindow window => s.withReleaseWindow window
  | .maxReleases length => s.withMaxReleases length
  | .maxInputs length => s.withMaxInputs length
  | .preventsDefault prevents => s.withPreventsDefault prevents
  | .naming naming => s.withNaming naming

/-- Calls builders one after the other. -/
def changeAll (s : Settings) (changes : List SettingsChange) : Settings := changes.foldl change s

end Settings

/-- An operation on files, or on the settings at hand. -/
inductive SettingsOp where
  /-- Writes a file. -/
  | write (path : String) (content : ByteArray)
  /-- Removes a file. -/
  | remove (path : String)
  /-- Takes the settings in the file at a path. -/
  | load (path : String)
  /-- Takes the settings at the default place. -/
  | loadDefault
  /-- Takes the settings from where they came from. -/
  | reload
  /-- Takes the default settings. -/
  | reset
  /-- Takes the settings in a text. -/
  | ofText (text : String)
  | change (change : SettingsChange)

/-- Whether an operation is about files: it changes one, or takes the settings from one. -/
def SettingsOp.isOnFiles : SettingsOp → Bool
  | .write _ _ | .remove _ | .load _ | .loadDefault | .reload => true
  | .reset | .ofText _ | .change _ => false

/-! ## 2. Files and settings -/

/-- The files, and the settings at hand. -/
structure SettingsHost where
  /-- The directory that paths start from. -/
  start : Place
  /-- Where settings are by default, if there is such a place. -/
  settingsPath : Option String
  files : FileSystem
  settings : Settings

namespace SettingsHost

/-- What reading the file at a path gives. -/
def read (host : SettingsHost) : Reader Id := host.files.read host.start

/-- Whether something stands where a path leads. -/
def isThere (host : SettingsHost) (path : String) : Id Bool := host.files.isThere host.start path

/-- The settings at hand after an operation, and what came of it. One that changes files leaves
    them. -/
def attempt (host : SettingsHost) : SettingsOp → Settings × Except SettingsError Unit
  | .write _ _ | .remove _ => (host.settings, .ok ())
  | .load path => host.settings.replacedBy (Id.run (Settings.load host.read path))
  | .loadDefault => host.settings.replacedBy
      (Id.run (Settings.loadDefault host.isThere host.read host.settingsPath))
  | .reload => Id.run (Settings.reload host.read host.settings)
  | .reset => (.default, .ok ())
  | .ofText text => host.settings.replacedBy (Settings.ofText text)
  | .change change => (host.settings.change change, .ok ())

/-- The settings that an operation gives, or why it gives none. One that changes files gives those
    at hand. -/
def answer (host : SettingsHost) (op : SettingsOp) : Except SettingsError Settings :=
  (host.attempt op).2.map fun _ => (host.attempt op).1

/-- The files after an operation. -/
def filesAfter (host : SettingsHost) : SettingsOp → FileSystem
  | .write path content => host.files.write host.start path content
  | .remove path => host.files.remove host.start path
  | _ => host.files

/-- Carries an operation out. -/
def step (host : SettingsHost) (op : SettingsOp) : SettingsHost :=
  { host with files := host.filesAfter op, settings := (host.attempt op).1 }

def run (host : SettingsHost) (ops : List SettingsOp) : SettingsHost := ops.foldl step host

theorem run_concat (host : SettingsHost) (ops : List SettingsOp) (op : SettingsOp) :
    host.run (ops ++ [op]) = (host.run ops).step op := List.foldl_append

/-- What an operation gives is at hand after it. -/
theorem settings_step_of_ok {host : SettingsHost} {op : SettingsOp} {s : Settings}
    (h : host.answer op = .ok s) : (host.step op).settings = s := by
  obtain ⟨_, -, hs⟩ := map_eq_ok_iff.mp h
  exact hs

/-- An operation that fails leaves the settings at hand, whichever it is. -/
theorem attempt_of_error {host : SettingsHost} {op : SettingsOp} {reason : SettingsError}
    (h : (host.attempt op).2 = .error reason) : (host.attempt op).1 = host.settings := by
  cases op with
  | write path content => rfl
  | remove path => rfl
  | load path => exact Settings.replacedBy_of_error h
  | loadDefault => exact Settings.replacedBy_of_error h
  | reload => exact Settings.reload_of_error h
  | reset => exact absurd h nofun
  | ofText text => exact Settings.replacedBy_of_error h
  | change change => exact absurd h nofun

/-- **An operation that gives nothing leaves the settings at hand.** -/
theorem settings_step_of_error {host : SettingsHost} {op : SettingsOp} {reason : SettingsError}
    (h : host.answer op = .error reason) : (host.step op).settings = host.settings := by
  unfold answer at h
  cases hattempt : (host.attempt op).2 with
  | error reason => exact attempt_of_error hattempt
  | ok done =>
    rw [hattempt] at h
    exact absurd h nofun

end SettingsHost

end KeyBindings
