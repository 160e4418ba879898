import KeyBindings.Settings.Entries

/-!
# Settings from files

* `Settings.ofFile` -- what the content of a file gives, with its path as the source;
* `Settings.load` -- the same with the reading;
* `Settings.loadDefault` -- loads from the default place if something is THERE, and otherwise gives
  the defaults without a source. Whether something is there is asked by itself: a file that is there
  and cannot be read is a failure, one that cannot even be asked about is not there;
* `Settings.reload` -- reads the source again, and answers the settings at hand afterwards. A reload
  that fails leaves them as they were (**`reload_of_error`**).
-/

namespace KeyBindings.Settings

/-- The settings in the content of a file. -/
def ofFile (path : String) (content : FileContent) :
    Except SettingsError Settings :=
  match content.text with
  | .error reason => .error (.unreadable reason)
  | .ok text => (ofText text).map fun settings => settings.withSource path

/-- Puts what loading gives in the place of settings at hand. If it gives nothing they stay, and the
    reason is handed on. -/
def replacedBy (s : Settings) : Except SettingsError Settings → Settings × Except SettingsError Unit
  | .error reason => (s, .error reason)
  | .ok loaded => (loaded, .ok ())

section Loading

variable {m : Type → Type} [Monad m]

/-- Loads settings from the file at a path. -/
def load (read : Reader m) (path : String) : m (Except SettingsError Settings) := do
  return ofFile path (← read path)

/-- Loads settings from the default place, if there is such a place and something is there. -/
def loadDefault (isThere : String → m Bool) (read : Reader m) (place : Option String) :
    m (Except SettingsError Settings) :=
  match place with
  | none => return .ok default
  | some path => do
    if ← isThere path then load read path else return .ok default

/-- Loads settings again from where they came from. Beside what came of it are the settings at
    hand. -/
def reload (read : Reader m) (s : Settings) : m (Settings × Except SettingsError Unit) :=
  match s.source with
  | none => return (s, .error .noSource)
  | some path => do return s.replacedBy (← load read path)

end Loading

theorem replacedBy_of_error {s : Settings} {result : Except SettingsError Settings}
    {reason : SettingsError} (h : (s.replacedBy result).2 = .error reason) :
    (s.replacedBy result).1 = s := by
  cases result with
  | error reason => rfl
  | ok loaded => exact absurd h nofun

/-- What is answered beside the settings at hand is what was to replace them. -/
theorem map_replacedBy (s : Settings) (result : Except SettingsError Settings) :
    (s.replacedBy result).2.map (fun _ => (s.replacedBy result).1) = result := by
  cases result <;> rfl

/-- The default place is loaded from if something is there. -/
theorem run_loadDefault_some (isThere : String → Id Bool) (read : Reader Id) (path : String) :
    Id.run (loadDefault isThere read (some path)) =
      if Id.run (isThere path) then ofFile path (Id.run (read path)) else .ok default := by
  show Id.run (if Id.run (isThere path) then _ else _) = _
  split <;> rfl

/-- With a source, a reload puts what loading from it gives in the place of the settings. -/
theorem run_reload_of_source {read : Reader Id} {s : Settings} {path : String}
    (h : s.source = some path) :
    Id.run (reload read s) = s.replacedBy (Id.run (load read path)) := by
  unfold reload
  rw [h]
  rfl

theorem run_reload_of_noSource {read : Reader Id} {s : Settings} (h : s.source = none) :
    Id.run (reload read s) = (s, .error .noSource) := by
  unfold reload
  rw [h]
  rfl

/-- **A reload that fails leaves the settings as they were.** -/
theorem reload_of_error {read : Reader Id} {s : Settings} {reason : SettingsError}
    (h : (Id.run (reload read s)).2 = .error reason) : (Id.run (reload read s)).1 = s := by
  cases hsource : s.source with
  | none => rw [run_reload_of_noSource hsource]
  | some path =>
    rw [run_reload_of_source hsource] at h ⊢
    exact replacedBy_of_error h

/-- **Loaded settings know the file they came from.** -/
theorem source_of_ofFile {path : String} {content : FileContent} {s : Settings}
    (h : ofFile path content = .ok s) : s.source = some path := by
  unfold ofFile at h
  split at h
  · simp at h
  · next text _ =>
    cases ht : ofText text with
    | error e => simp [ht, Except.map] at h
    | ok settings =>
      rw [ht] at h
      obtain rfl := Except.ok.inj h
      rfl

end KeyBindings.Settings
