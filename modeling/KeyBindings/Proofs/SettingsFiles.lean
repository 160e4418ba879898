import KeyBindings.Settings.Run
import Mathlib.Data.List.Induction

/-!
# Settings and the files they come from

Loading is all or nothing: the settings at hand are replaced as a whole, by what a file holds at
that moment with its path as the source, or they stay as they are. Reloading asks the source once
more and never changes where that is.

* `SettingsHost.Holds` -- the file at a path holds settings, said of its bytes;
* `SettingsHost.Vacant` -- a path leads to nothing, neither a file nor a directory. The default
  place falls back to the defaults ONLY where it is vacant: a directory there is read like a file,
  and fails;
* `SettingsHost.AllOrNothing` -- what each operation gives in one state, and what it leaves;
* **`loads_are_all_or_nothing`**: every state of a run is so, and the settings at hand always are
  those of the beginning, the defaults, or what some file held at some moment.
-/

namespace KeyBindings

/-! ## 1. What files hold -/

namespace SettingsHost

variable {host : SettingsHost} {path : String} {s : Settings}

/-- The file at a path holds settings: its bytes are the UTF-8 of a text that reads as they do. -/
def Holds (host : SettingsHost) (path : String) (s : Settings) : Prop :=
  ∃ bytes text, host.files.read host.start path = .ok bytes ∧
    String.fromUTF8? bytes = some text ∧ Settings.ofText text = .ok s

/-- Nothing stands where a path leads, if it leads anywhere. -/
def Vacant (host : SettingsHost) (path : String) : Prop :=
  ∀ place, host.files.locate host.start path = .ok place → host.files.node? place = none

theorem vacant_iff : host.Vacant path ↔ host.isThere path = false := by
  unfold Vacant isThere FileSystem.isThere
  cases host.files.locate host.start path with
  | error reason => exact iff_of_true nofun rfl
  | ok place =>
    simp only [Except.ok.injEq, forall_eq']
    cases host.files.node? place with
    | none => exact iff_of_true rfl rfl
    | some node => exact iff_of_false nofun nofun

/-! ## 2. What operations give -/

/-- A file gives settings in stages: its text, what the text reads as, and then the source. -/
theorem ofFile_eq_ok_iff {content : FileContent} :
    Settings.ofFile path content = .ok s ↔ ∃ text, content.text = .ok text ∧
      ∃ t, Settings.ofText text = .ok t ∧ t.withSource path = s := by
  have hstages : Settings.ofFile path content =
      (content.text.mapError SettingsError.unreadable).bind fun text =>
        (Settings.ofText text).map fun t => t.withSource path := by
    rw [Settings.ofFile]
    cases content.text <;> rfl
  rw [hstages, bind_eq_ok_iff]
  exact exists_congr fun text => and_congr mapError_eq_ok_iff map_eq_ok_iff

/-- Where an operation puts something in the place of the settings, that is what it gives. -/
theorem answer_of_attempt (op : SettingsOp) {result : Except SettingsError Settings}
    (h : host.attempt op = host.settings.replacedBy result) : host.answer op = result := by
  rw [answer, h, Settings.map_replacedBy]

theorem answer_load : host.answer (.load path) = Settings.ofFile path (host.read path) :=
  answer_of_attempt _ rfl

/-- **A file gives the settings it holds, with its path.** -/
theorem answer_load_eq_ok_iff :
    host.answer (.load path) = .ok s ↔ ∃ t, host.Holds path t ∧ t.withSource path = s := by
  rw [answer_load, ofFile_eq_ok_iff]
  constructor
  · intro h
    obtain ⟨text, htext, t, ht, hs⟩ := h
    obtain ⟨bytes, hbytes, hutf8⟩ := FileContent.text_eq_ok_iff.mp htext
    exact ⟨t, ⟨bytes, text, hbytes, hutf8, ht⟩, hs⟩
  · intro h
    obtain ⟨t, ⟨bytes, text, hbytes, hutf8, ht⟩, hs⟩ := h
    exact ⟨text, FileContent.text_eq_ok_iff.mpr ⟨bytes, hbytes, hutf8⟩, t, ht, hs⟩

theorem answer_reload_of_source (h : host.settings.source = some path) :
    host.answer .reload = host.answer (.load path) :=
  (answer_of_attempt .reload (Settings.run_reload_of_source h)).trans answer_load.symm

theorem answer_reload_of_noSource (h : host.settings.source = none) :
    host.answer .reload = .error .noSource := by
  rw [answer, attempt, Settings.run_reload_of_noSource h]
  rfl

/-- **Reloading is loading from the source**, if there is one. -/
theorem answer_reload_eq_ok_iff :
    host.answer .reload = .ok s ↔
      ∃ path t, host.settings.source = some path ∧ host.Holds path t ∧ t.withSource path = s := by
  cases hsource : host.settings.source with
  | none =>
    rw [answer_reload_of_noSource hsource]
    exact iff_of_false nofun fun ⟨_, _, h, _⟩ => nomatch h
  | some path =>
    rw [answer_reload_of_source hsource, answer_load_eq_ok_iff]
    simp

/-- The default place gives the defaults where nothing stands. -/
theorem answer_loadDefault_of_vacant (h : ∀ path ∈ host.settingsPath, host.Vacant path) :
    host.answer .loadDefault = .ok .default := by
  refine answer_of_attempt .loadDefault (congrArg host.settings.replacedBy ?_)
  cases hpath : host.settingsPath with
  | none => rfl
  | some path =>
    rw [Settings.run_loadDefault_some, vacant_iff.mp (h path hpath)]
    rfl

/-- Where something stands, the default place is like any other. -/
theorem answer_loadDefault_of_not_vacant (hpath : host.settingsPath = some path)
    (h : ¬ host.Vacant path) : host.answer .loadDefault = host.answer (.load path) := by
  have hthere : host.isThere path = true := by
    rwa [vacant_iff, Bool.not_eq_false] at h
  refine (answer_of_attempt .loadDefault (congrArg host.settings.replacedBy ?_)).trans
    answer_load.symm
  rw [hpath, Settings.run_loadDefault_some, hthere]
  rfl

/-! ## 3. The source, and where settings come from -/

end SettingsHost

/-- Whether an operation leaves alone where settings are reloaded from. -/
def SettingsOp.keepsSource : SettingsOp → Bool
  | .write _ _ | .remove _ | .reload | .change _ => true
  | .load _ | .loadDefault | .reset | .ofText _ => false

namespace SettingsHost

variable {host : SettingsHost}

theorem source_step_of_keepsSource {op : SettingsOp} (h : op.keepsSource = true) :
    (host.step op).settings.source = host.settings.source := by
  cases hanswer : host.answer op with
  | error reason => rw [settings_step_of_error hanswer]
  | ok s =>
    rw [settings_step_of_ok hanswer]
    cases op with
    | write path content => exact congrArg Settings.source (Except.ok.inj hanswer).symm
    | remove path => exact congrArg Settings.source (Except.ok.inj hanswer).symm
    | reload =>
      obtain ⟨path, t, hsource, -, rfl⟩ := answer_reload_eq_ok_iff.mp hanswer
      exact hsource.symm
    | change change =>
      rw [← Except.ok.inj hanswer]
      cases change <;> rfl
    | load path => exact nomatch h
    | loadDefault => exact nomatch h
    | reset => exact nomatch h
    | ofText text => exact nomatch h

/-- **The source stays through changes of files, reloads and builders.** -/
theorem source_run_of_keepsSource {ops : List SettingsOp}
    (h : ∀ op ∈ ops, op.keepsSource = true) :
    (host.run ops).settings.source = host.settings.source := by
  induction ops using List.reverseRecOn with
  | nil => rfl
  | append_singleton ops op ih =>
    rw [run_concat, source_step_of_keepsSource (h op (by simp)),
      ih fun other hother => h other (List.mem_append_left _ hother)]

/-- Settings are as a file holds them, with its path as the source. -/
def Loaded (host : SettingsHost) (s : Settings) : Prop :=
  ∃ path t, host.Holds path t ∧ t.withSource path = s

theorem settings_step_of_isOnFiles {op : SettingsOp} (h : op.isOnFiles = true) :
    (host.step op).settings = host.settings ∨ (host.step op).settings = .default ∨
      host.Loaded (host.step op).settings := by
  cases hanswer : host.answer op with
  | error reason => exact Or.inl (settings_step_of_error hanswer)
  | ok s =>
    rw [settings_step_of_ok hanswer]
    cases op with
    | write path content => exact Or.inl (Except.ok.inj hanswer).symm
    | remove path => exact Or.inl (Except.ok.inj hanswer).symm
    | load path =>
      obtain ⟨t, hholds, hs⟩ := answer_load_eq_ok_iff.mp hanswer
      exact Or.inr (Or.inr ⟨path, t, hholds, hs⟩)
    | reload =>
      obtain ⟨path, t, -, hholds, hs⟩ := answer_reload_eq_ok_iff.mp hanswer
      exact Or.inr (Or.inr ⟨path, t, hholds, hs⟩)
    | loadDefault =>
      by_cases hvacant : ∀ path ∈ host.settingsPath, host.Vacant path
      · rw [answer_loadDefault_of_vacant hvacant] at hanswer
        exact Or.inr (Or.inl (Except.ok.inj hanswer).symm)
      · simp only [Classical.not_forall] at hvacant
        obtain ⟨path, hpath, hthere⟩ := hvacant
        rw [answer_loadDefault_of_not_vacant hpath hthere] at hanswer
        obtain ⟨t, hholds, hs⟩ := answer_load_eq_ok_iff.mp hanswer
        exact Or.inr (Or.inr ⟨path, t, hholds, hs⟩)
    | reset => exact nomatch h
    | ofText text => exact nomatch h
    | change change => exact nomatch h

/-- **No run on files leaves a mixture**: the settings are those of its beginning, the defaults, or
    those that a file held at one moment of it. -/
theorem settings_run_of_isOnFiles {ops : List SettingsOp} (h : ∀ op ∈ ops, op.isOnFiles = true) :
    (host.run ops).settings = host.settings ∨ (host.run ops).settings = .default ∨
      ∃ before, before <+: ops ∧ (host.run before).Loaded (host.run ops).settings := by
  induction ops using List.reverseRecOn with
  | nil => exact Or.inl rfl
  | append_singleton ops op ih =>
    rw [run_concat]
    have hstep := @settings_step_of_isOnFiles (host.run ops) op (h op (by simp))
    rcases hstep with hs | hs | hs
    · rw [hs]
      rcases ih fun other hother => h other (List.mem_append_left _ hother) with ih | ih | ih
      · exact Or.inl ih
      · exact Or.inr (Or.inl ih)
      · obtain ⟨before, hbefore, hloaded⟩ := ih
        exact Or.inr (Or.inr ⟨before, hbefore.trans (List.prefix_append _ _), hloaded⟩)
    · exact Or.inr (Or.inl hs)
    · exact Or.inr (Or.inr ⟨ops, List.prefix_append _ _, hs⟩)

/-! ## 4. All or nothing -/

/-- What operations give in a state, and what they leave. -/
structure AllOrNothing (host : SettingsHost) : Prop where
  /-- What fails leaves every field as it is, the source too. -/
  failed : ∀ op reason, host.answer op = .error reason → (host.step op).settings = host.settings
  /-- What succeeds replaces them all. -/
  succeeded : ∀ op s, host.answer op = .ok s → (host.step op).settings = s
  /-- Files may change without the settings. -/
  written : ∀ path content, (host.step (.write path content)).settings = host.settings
  removed : ∀ path, (host.step (.remove path)).settings = host.settings
  /-- Loading succeeds exactly if the file holds settings, and gives these with its path. -/
  load : ∀ path s, host.answer (.load path) = .ok s ↔
    ∃ t, host.Holds path t ∧ t.withSource path = s
  /-- Reloading succeeds exactly if there is a source and its file holds settings. -/
  reload : ∀ s, host.answer .reload = .ok s ↔
    ∃ path t, host.settings.source = some path ∧ host.Holds path t ∧ t.withSource path = s
  /-- The source stays, whether reloads succeed or not and however files change. -/
  source : ∀ later : List SettingsOp, (∀ op ∈ later, op.keepsSource = true) →
    (host.run later).settings.source = host.settings.source
  /-- With nothing at the default place there are the defaults without a source, so that no reload
      succeeds from then on. -/
  vacant : (∀ path ∈ host.settingsPath, host.Vacant path) →
    host.answer .loadDefault = .ok .default ∧
      ∀ later : List SettingsOp, (∀ op ∈ later, op.keepsSource = true) →
        ((host.step .loadDefault).run later).settings.source = none ∧
          ((host.step .loadDefault).run later).answer .reload = .error .noSource
  /-- With a file or a directory there, it is loaded from like any other place. -/
  taken : ∀ path ∈ host.settingsPath, ¬ host.Vacant path →
    host.answer .loadDefault = host.answer (.load path)

theorem allOrNothing (host : SettingsHost) : host.AllOrNothing where
  failed _ _ h := settings_step_of_error h
  succeeded _ _ h := settings_step_of_ok h
  written _ _ := rfl
  removed _ := rfl
  load _ _ := answer_load_eq_ok_iff
  reload _ := answer_reload_eq_ok_iff
  source _ h := source_run_of_keepsSource h
  vacant h := by
    have hdefault := answer_loadDefault_of_vacant h
    refine ⟨hdefault, fun later hlater => ?_⟩
    have hsource : ((host.step .loadDefault).run later).settings.source = none := by
      rw [source_run_of_keepsSource hlater, settings_step_of_ok hdefault]
      rfl
    exact ⟨hsource, answer_reload_of_noSource hsource⟩
  taken _ hpath h := answer_loadDefault_of_not_vacant hpath h

end SettingsHost

/-- **Loading and reloading are all or nothing in every state that a run reaches**, and through a
    run on files the settings at hand are always a whole: those of the beginning, the defaults, or
    those that a file held at one moment, with its path. -/
theorem loads_are_all_or_nothing (host : SettingsHost) (done : List SettingsOp) :
    (host.run done).AllOrNothing ∧
      ((∀ op ∈ done, op.isOnFiles = true) →
        (host.run done).settings = host.settings ∨ (host.run done).settings = .default ∨
          ∃ before, before <+: done ∧ (host.run before).Loaded (host.run done).settings) :=
  ⟨(host.run done).allOrNothing, SettingsHost.settings_run_of_isOnFiles⟩

/-- Nothing but the defaults and an empty directory, with a default place in it. -/
def SettingsHost.fresh : SettingsHost := ⟨[], some "settings.toml", .empty, .default⟩

/-- **No file at the default place is not enough for the defaults**: a directory there makes loading
    fail. -/
theorem directory_at_default_place :
    (∀ bytes, (SettingsHost.fresh.step (.write "settings.toml/a" .empty)).files.read []
        "settings.toml" ≠ .ok bytes) ∧
      (SettingsHost.fresh.step (.write "settings.toml/a" .empty)).answer .loadDefault =
        .error (.unreadable .isDirectory) := by
  have hread : (SettingsHost.fresh.step (.write "settings.toml/a" .empty)).files.read []
      "settings.toml" = .error .isDirectory := by decide +kernel
  constructor
  · intro bytes h
    rw [hread] at h
    exact nomatch h
  · decide +kernel

/-- A file that is written, loaded, spoilt and asked once more. -/
def spoiltFile : List SettingsOp :=
  [.write "settings.toml" "release_window_ms = 7".toUTF8, .loadDefault,
    .write "settings.toml" ⟨#[0xFF]⟩, .reload]

/-- What was loaded stays when the file is spoilt, and came from the file as it was. -/
theorem spoilt_file_is_not_reloaded :
    (SettingsHost.fresh.run spoiltFile).answer .reload = .error (.unreadable .notText) ∧
      ((SettingsHost.fresh.run spoiltFile).step .reload).settings =
        (Settings.default.withReleaseWindow 7).withSource "settings.toml" ∧
      ∃ before, before <+: spoiltFile ∧
        (SettingsHost.fresh.run before).Loaded (SettingsHost.fresh.run spoiltFile).settings := by
  have hsettings : (SettingsHost.fresh.run spoiltFile).settings =
      (Settings.default.withReleaseWindow 7).withSource "settings.toml" := by decide +kernel
  have hfails : (SettingsHost.fresh.run spoiltFile).answer .reload =
      .error (.unreadable .notText) := by decide +kernel
  have hrun := loads_are_all_or_nothing SettingsHost.fresh spoiltFile
  refine ⟨hfails, (hrun.1.failed _ _ hfails).trans hsettings, ?_⟩
  rcases hrun.2 (by decide) with hs | hs | hs
  · exact absurd hs (by rw [hsettings]; decide)
  · exact absurd hs (by rw [hsettings]; decide)
  · exact hs

end KeyBindings
