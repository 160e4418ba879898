import KeyBindings.Proofs.Releases
import KeyBindings.Settings.Run
import Mathlib.Data.List.Perm.Basic

/-!
# Settings files and builders

A settings file gives some of the five values, a builder sets one. A file REFUSES a length of zero
where a builder raises it to one; of what a file accepts, both make the same settings.

* `Entries.changes` -- the builder calls that the values of a file stand for;
  `changeAll_eq_of_perm`: they may be made in any order;
* `Entries.offences` -- why values are refused, in the order of the checks; `Acceptable` says that
  there is no reason, in words of the values alone;
* **`Settings.ofEntries_eq`**: entries are refused for their first offence, or they are their calls
  on the defaults;
* `Entries.Adds` -- what one line of a file adds; `foldlM_add_of_perm`: the lines may stand in any
  order;
* `Limits.KeepsNewest` -- a tracker under some limits keeps its newest transition and its newest
  release. Every settings value has such limits, whatever it was made by.
-/

namespace KeyBindings

/-! ## 1. Builders -/

attribute [ext] Settings

namespace Settings

/-- Setting a length to what it is changes nothing: no length is zero. -/
theorem withMaxReleases_self (s : Settings) : s.withMaxReleases s.maxReleases = s :=
  Settings.ext rfl (Nat.max_eq_right s.maxReleases_pos) rfl rfl rfl rfl

theorem withMaxInputs_self (s : Settings) : s.withMaxInputs s.maxInputs = s :=
  Settings.ext rfl rfl (Nat.max_eq_right s.maxInputs_pos) rfl rfl rfl

theorem changeAll_append (s : Settings) (as bs : List SettingsChange) :
    s.changeAll (as ++ bs) = (s.changeAll as).changeAll bs := List.foldl_append

end Settings

/-- The key of a settings file that stands for a builder. -/
def SettingsChange.key : SettingsChange → String
  | .releaseWindow _ => Settings.windowKey
  | .maxReleases _ => Settings.maxReleasesKey
  | .maxInputs _ => Settings.maxInputsKey
  | .preventsDefault _ => Settings.preventsDefaultKey
  | .naming _ => Settings.namingKey

/-- **Builders of different keys may be called in either order.** -/
theorem SettingsChange.change_comm {a b : SettingsChange} (h : a.key ≠ b.key) (s : Settings) :
    (s.change a).change b = (s.change b).change a := by
  cases a <;> cases b <;> first | rfl | exact absurd rfl h

namespace Entries

variable {e : Entries}

/-- The builder calls that the given values stand for. A text that names no naming stands for
    none. -/
def changes (e : Entries) : List SettingsChange :=
  (e.releaseWindow.map .releaseWindow).toList ++ (e.maxReleases.map .maxReleases).toList ++
    (e.maxInputs.map .maxInputs).toList ++ (e.preventsDefault.map .preventsDefault).toList ++
    ((e.naming.bind KeyNaming.ofText?).map .naming).toList

/-- Each key stands for one call at most. -/
theorem eq_of_key_eq {a b : SettingsChange} (ha : a ∈ e.changes) (hb : b ∈ e.changes)
    (h : a.key = b.key) : a = b := by
  simp only [changes, List.mem_append, Option.mem_toList, Option.map_eq_some_iff] at ha hb
  cases a <;> cases b <;> simp_all [SettingsChange.key, Settings.windowKey, Settings.maxReleasesKey,
    Settings.maxInputsKey, Settings.preventsDefaultKey, Settings.namingKey]

/-- **The calls may be made in any order.** -/
theorem changeAll_eq_of_perm {calls : List SettingsChange} (h : calls.Perm e.changes)
    (s : Settings) : s.changeAll calls = s.changeAll e.changes := by
  refine h.foldl_eq' (fun a ha b hb s => ?_) s
  by_cases hkey : a.key = b.key
  · rw [eq_of_key_eq (h.subset ha) (h.subset hb) hkey]
  · exact SettingsChange.change_comm hkey s

section Optional

variable (s : Settings)

/-! A value that is left out stands for a call with the value at hand. -/

theorem changeAll_releaseWindow (value? : Option Nat) :
    s.changeAll (value?.map .releaseWindow).toList =
      s.withReleaseWindow (value?.getD s.releaseWindow) := by
  cases value? <;> rfl

theorem changeAll_maxReleases (value? : Option Nat) :
    s.changeAll (value?.map .maxReleases).toList =
      s.withMaxReleases (value?.getD s.maxReleases) := by
  cases value? with
  | none => exact s.withMaxReleases_self.symm
  | some length => rfl

theorem changeAll_maxInputs (value? : Option Nat) :
    s.changeAll (value?.map .maxInputs).toList = s.withMaxInputs (value?.getD s.maxInputs) := by
  cases value? with
  | none => exact s.withMaxInputs_self.symm
  | some length => rfl

theorem changeAll_preventsDefault (value? : Option Bool) :
    s.changeAll (value?.map .preventsDefault).toList =
      s.withPreventsDefault (value?.getD s.preventsDefault) := by
  cases value? <;> rfl

theorem changeAll_naming (value? : Option KeyNaming) :
    s.changeAll (value?.map .naming).toList = s.withNaming (value?.getD s.naming) := by
  cases value? <;> rfl

end Optional

/-- What the calls make of the defaults, value by value. -/
theorem changeAll_changes (e : Entries) :
    Settings.default.changeAll e.changes =
      ((((Settings.default.withReleaseWindow
        (e.releaseWindow.getD Settings.default.releaseWindow)).withMaxReleases
        (e.maxReleases.getD Settings.default.maxReleases)).withMaxInputs
        (e.maxInputs.getD Settings.default.maxInputs)).withPreventsDefault
        (e.preventsDefault.getD Settings.default.preventsDefault)).withNaming
        ((e.naming.bind KeyNaming.ofText?).getD Settings.default.naming) := by
  rw [changes, Settings.changeAll_append, Settings.changeAll_append, Settings.changeAll_append,
    Settings.changeAll_append, changeAll_releaseWindow, changeAll_maxReleases, changeAll_maxInputs,
    changeAll_preventsDefault, changeAll_naming]
  rfl

/-! ## 2. Values that are refused -/

/-- Why a length is refused. -/
def lengthOffence (key : String) (length? : Option Nat) : Option SettingsError :=
  if length? = some 0 then some (.zeroLength key) else .none

/-- Why a naming is refused. -/
def namingOffence (text? : Option String) : Option SettingsError :=
  text?.bind fun text =>
    if KeyNaming.ofText? text = .none then some (.unknownNaming text) else .none

/-- Why values are refused, in the order of the checks. -/
def offences (e : Entries) : List SettingsError :=
  (lengthOffence Settings.maxReleasesKey e.maxReleases).toList ++
    (lengthOffence Settings.maxInputsKey e.maxInputs).toList ++ (namingOffence e.naming).toList

/-- The lengths that are given are not zero, and the text that is given names a naming, in any
    ASCII case. -/
structure Acceptable (e : Entries) : Prop where
  maxReleases : ∀ length ∈ e.maxReleases, 1 ≤ length
  maxInputs : ∀ length ∈ e.maxInputs, 1 ≤ length
  naming : ∀ text ∈ e.naming,
    Text.caseless "physical" text = true ∨ Text.caseless "logical" text = true

end Entries

theorem KeyNaming.ofText?_eq_none_iff {text : String} :
    KeyNaming.ofText? text = none ↔
      ¬ (Text.caseless "physical" text = true ∨ Text.caseless "logical" text = true) := by
  rw [KeyNaming.ofText?, Text.readSpelling, Option.map_eq_none_iff, List.find?_eq_none]
  simp [KeyNaming.spellings]

namespace Entries

variable {e : Entries}

theorem lengthOffence_eq_none_iff {key : String} {length? : Option Nat} :
    lengthOffence key length? = .none ↔ ∀ length ∈ length?, 1 ≤ length := by
  rcases length? with _ | _ | length <;> simp [lengthOffence]

theorem namingOffence_eq_none_iff {text? : Option String} :
    namingOffence text? = .none ↔ ∀ text ∈ text?,
      Text.caseless "physical" text = true ∨ Text.caseless "logical" text = true := by
  cases text? with
  | none => simp [namingOffence]
  | some text =>
    have hknown : namingOffence (some text) = .none ↔ ¬ KeyNaming.ofText? text = .none := by
      rw [namingOffence, Option.bind_some]
      cases KeyNaming.ofText? text <;> simp
    rw [hknown, KeyNaming.ofText?_eq_none_iff, Decidable.not_not]
    simp

theorem offences_eq_nil_iff : e.offences = [] ↔ e.Acceptable := by
  simp only [offences, List.append_eq_nil_iff, Option.toList_eq_nil_iff, lengthOffence_eq_none_iff,
    namingOffence_eq_none_iff]
  constructor
  · intro h
    exact ⟨h.1.1, h.1.2, h.2⟩
  · intro h
    exact ⟨⟨h.maxReleases, h.maxInputs⟩, h.naming⟩

end Entries

namespace Settings

/-- A length is refused or taken, and one that is left out is taken as it is. -/
theorem requirePositive_getD (key : String) (length? : Option Nat) {fallback : Nat}
    (h : 0 < fallback) :
    requirePositive key (length?.getD fallback) =
      (Entries.lengthOffence key length?).elim
        (.ok ⟨max 1 (length?.getD fallback), pos_max_one _⟩) .error := by
  rcases length? with _ | _ | length
  · rw [Option.getD_none, requirePositive, dif_pos h]
    exact congrArg Except.ok (Subtype.ext (Nat.max_eq_right h).symm)
  · rfl
  · have hpos : 0 < length + 1 := Nat.succ_pos length
    rw [Option.getD_some, requirePositive, dif_pos hpos]
    exact congrArg Except.ok (Subtype.ext (Nat.max_eq_right hpos).symm)

theorem requireNaming_elim (text? : Option String) (fallback : KeyNaming) :
    text?.elim (.ok fallback) requireNaming =
      (Entries.namingOffence text?).elim
        (.ok ((text?.bind KeyNaming.ofText?).getD fallback)) .error := by
  cases text? with
  | none => rfl
  | some text =>
    rw [Option.elim_some, requireNaming, Entries.namingOffence, Option.bind_some, Option.bind_some]
    cases KeyNaming.ofText? text <;> rfl

/-- **Entries are refused for their first offence**, or they are their calls on the defaults. -/
theorem ofEntries_eq (e : Entries) :
    ofEntries e = e.offences.head?.elim (.ok (default.changeAll e.changes)) .error := by
  rw [ofEntries, requirePositive_getD _ _ default.maxReleases_pos,
    requirePositive_getD _ _ default.maxInputs_pos, requireNaming_elim, Entries.changeAll_changes,
    Entries.offences]
  -- the checks run one after the other, and the first one that fails answers
  cases Entries.lengthOffence maxReleasesKey e.maxReleases with
  | some reason => rfl
  | none =>
    cases Entries.lengthOffence maxInputsKey e.maxInputs with
    | some reason => rfl
    | none => cases Entries.namingOffence e.naming <;> rfl

theorem ofEntries_eq_ok_iff {e : Entries} {s : Settings} :
    ofEntries e = .ok s ↔ e.Acceptable ∧ s = default.changeAll e.changes := by
  rw [ofEntries_eq, ← Entries.offences_eq_nil_iff]
  cases e.offences with
  | nil => exact ⟨fun h => ⟨rfl, (Except.ok.inj h).symm⟩, fun h => congrArg Except.ok h.2.symm⟩
  | cons reason later => exact iff_of_false nofun nofun

theorem ofEntries_eq_error_iff {e : Entries} {reason : SettingsError} :
    ofEntries e = .error reason ↔ e.offences.head? = some reason := by
  rw [ofEntries_eq]
  cases e.offences.head? with
  | none => exact iff_of_false nofun nofun
  | some first => simp

/-- A text that reads as entries is what they are. -/
theorem ofText_of_ofDocument {text : String} {e : Entries} (h : Entries.ofDocument text = .ok e) :
    ofText text = ofEntries e := by
  rw [ofText, h]
  rfl

end Settings

namespace Entries

variable {e e' e'' : Entries}

/-! ## 3. The order in the file -/

/-- An entry gives one value that has not been given yet. -/
inductive Adds : Entries → Toml.Entry → Entries → Prop where
  | releaseWindow {e : Entries} {value : Toml.Value} {n : Nat} (hold : e.releaseWindow = .none)
      (hvalue : natural? value = some n) :
      Adds e ⟨Settings.windowKey, value⟩ { e with releaseWindow := some n }
  | maxReleases {e : Entries} {value : Toml.Value} {n : Nat} (hold : e.maxReleases = .none)
      (hvalue : natural? value = some n) :
      Adds e ⟨Settings.maxReleasesKey, value⟩ { e with maxReleases := some n }
  | maxInputs {e : Entries} {value : Toml.Value} {n : Nat} (hold : e.maxInputs = .none)
      (hvalue : natural? value = some n) :
      Adds e ⟨Settings.maxInputsKey, value⟩ { e with maxInputs := some n }
  | preventsDefault {e : Entries} {value : Toml.Value} {b : Bool}
      (hold : e.preventsDefault = .none) (hvalue : boolean? value = some b) :
      Adds e ⟨Settings.preventsDefaultKey, value⟩ { e with preventsDefault := some b }
  | naming {e : Entries} {value : Toml.Value} {s : String} (hold : e.naming = .none)
      (hvalue : string? value = some s) :
      Adds e ⟨Settings.namingKey, value⟩ { e with naming := some s }

theorem take_eq_ok_iff {α : Type} {old : Option α} {read : Toml.Value → Option α}
    {entry : Toml.Entry} {new : Option α} :
    take old read entry = .ok new ↔
      old = .none ∧ ∃ value, read entry.value = some value ∧ new = some value := by
  unfold take
  cases old with
  | some _ => exact iff_of_false nofun fun h => nomatch h.1
  | none =>
    cases hread : read entry.value with
    | none => exact iff_of_false nofun fun ⟨_, _, h, _⟩ => nomatch h
    | some value =>
      constructor
      · intro h
        exact ⟨rfl, value, rfl, (Except.ok.inj h).symm⟩
      · intro h
        obtain ⟨-, value', hvalue, rfl⟩ := h
        obtain rfl := Option.some.inj hvalue
        rfl

theorem take_map_eq_ok_iff {α : Type} {old : Option α} {read : Toml.Value → Option α}
    {entry : Toml.Entry} {put : Option α → Entries} :
    (take old read entry).map put = .ok e ↔
      old = .none ∧ ∃ value, read entry.value = some value ∧ put (some value) = e := by
  rw [map_eq_ok_iff]
  constructor
  · intro h
    obtain ⟨new, hnew, rfl⟩ := h
    obtain ⟨hold, value, hvalue, rfl⟩ := take_eq_ok_iff.mp hnew
    exact ⟨hold, value, hvalue, rfl⟩
  · intro h
    obtain ⟨hold, value, hvalue, rfl⟩ := h
    exact ⟨some value, take_eq_ok_iff.mpr ⟨hold, value, hvalue, rfl⟩, rfl⟩

/-- What one more entry gives, or that it gives nothing. -/
theorem add_eq_ok_iff {entry : Toml.Entry} : add e entry = .ok e' ↔ Adds e entry e' := by
  constructor
  · intro h
    obtain ⟨key, value⟩ := entry
    simp only [add] at h
    -- one key after the other: the entry has it, or it is looked for among the next ones
    iterate 5
      split at h
      · next hkey =>
        subst hkey
        obtain ⟨hold, new, hvalue, rfl⟩ := take_map_eq_ok_iff.mp h
        constructor <;> assumption
    cases h
  · intro h
    cases h <;> exact take_map_eq_ok_iff.mpr ⟨‹_›, _, ‹_›, rfl⟩

/-- **Two entries of a file may change places.** -/
theorem Adds.swap {a b : Toml.Entry} (ha : Adds e a e') (hb : Adds e' b e'') :
    ∃ between, Adds e b between ∧ Adds between a e'' := by
  -- of one key the second entry finds a value; those of two keys do not see each other
  cases ha <;> cases hb <;>
    first
    | contradiction
    | exact ⟨_, by constructor <;> assumption, by constructor <;> assumption⟩

theorem foldlM_add_cons_eq_ok_iff {entry : Toml.Entry} {later : List Toml.Entry} :
    (entry :: later).foldlM add e = .ok e'' ↔
      ∃ e', Adds e entry e' ∧ later.foldlM add e' = .ok e'' := by
  rw [List.foldlM_cons]
  refine bind_eq_ok_iff.trans (exists_congr fun _ => and_congr_left fun _ => add_eq_ok_iff)

/-- **The entries of a file may stand in any order.** -/
theorem foldlM_add_of_perm {entries others : List Toml.Entry} (h : entries.Perm others)
    (hentries : entries.foldlM add e = .ok e'') : others.foldlM add e = .ok e'' := by
  induction h generalizing e with
  | nil => exact hentries
  | cons entry h ih =>
    obtain ⟨e', hadds, hlater⟩ := foldlM_add_cons_eq_ok_iff.mp hentries
    exact foldlM_add_cons_eq_ok_iff.mpr ⟨e', hadds, ih hlater⟩
  | swap a b later =>
    obtain ⟨e₁, hb, hentries⟩ := foldlM_add_cons_eq_ok_iff.mp hentries
    obtain ⟨e₂, ha, hlater⟩ := foldlM_add_cons_eq_ok_iff.mp hentries
    obtain ⟨between, ha, hb⟩ := hb.swap ha
    exact foldlM_add_cons_eq_ok_iff.mpr
      ⟨between, ha, foldlM_add_cons_eq_ok_iff.mpr ⟨e₂, hb, hlater⟩⟩
  | trans h₁ h₂ ih₁ ih₂ => exact ih₂ (ih₁ hentries)

/-- A text and another one with the same entries, in any order. -/
def Reordered (document other : String) : Prop :=
  ∃ entries others, Toml.readDocument document = .ok entries ∧
    Toml.readDocument other = .ok others ∧ entries.Perm others

theorem ofDocument_of_reordered {document other : String} (h : Reordered document other)
    (he : ofDocument document = .ok e) : ofDocument other = .ok e := by
  obtain ⟨entries, others, hentries, hothers, hperm⟩ := h
  rw [ofDocument, hentries] at he
  rw [ofDocument, hothers]
  exact foldlM_add_of_perm hperm he

end Entries

/-! ## 4. The newest is kept -/

namespace Tracker

variable {t : Tracker}

/-- Without a release nothing enters the release history. -/
theorem releases_run_subset {ops : List TrackerOp} (h : ∀ input now, .release input now ∉ ops) :
    (t.run ops).releases ⊆ t.releases := by
  induction ops generalizing t with
  | nil => exact List.Subset.refl _
  | cons op ops ih =>
    have hstep : (t.step op).releases ⊆ t.releases := by
      cases op with
      | press input now => exact List.Subset.refl _
      | release input now => exact absurd List.mem_cons_self (h input now)
      | prune now => exact List.filter_subset_self _
      | clear => exact List.nil_subset _
    exact List.Subset.trans (ih fun input now hop => h input now (List.mem_cons_of_mem _ hop)) hstep

/-- An entry that is remembered among releases of its own input is the newest one. -/
theorem Remembers.getLast? {r : Release} (h : t.Remembers [r.input] r) :
    t.releases.getLast? = some r := by
  obtain ⟨older, newer, he, hnd, hnames⟩ := h
  cases newer with
  | nil => rw [he, List.getLast?_concat]
  | cons s newer =>
    have hs : s.input = r.input := List.mem_singleton.mp (hnames s List.mem_cons_self)
    rw [List.map_cons, List.map_cons, hs] at hnd
    exact absurd List.mem_cons_self (List.nodup_cons.mp hnd).1

/-- A late prune drops an entry for good, until there is another release. -/
theorem notMem_releases_of_late {r : Release} {ops : List TrackerOp} {now : Instant}
    (h : ∀ input now, .release input now ∉ ops) (hprune : .prune now ∈ ops)
    (hlate : ¬ now ≤ r.expiry) : r ∉ (t.run ops).releases := by
  obtain ⟨before, after, rfl⟩ := List.append_of_mem hprune
  have hafter : ∀ input now, .release input now ∉ after := fun input now hop =>
    h input now (List.mem_append_right _ (List.mem_cons_of_mem _ hop))
  rw [run_append, run_cons]
  intro hr
  have hpruned : r ∈ ((t.run before).prune now).releases := releases_run_subset hafter hr
  exact hlate (of_decide_eq_true (List.mem_filter.mp hpruned).2)

end Tracker

/-- A tracker under the limits keeps its newest transition always, and its newest release until it
    is told to drop what expired before a later instant. -/
structure Limits.KeepsNewest (limits : Limits) : Prop where
  log : ∀ ops, ((Tracker.new limits).run ops).log.getLast? = (History.ofOps ops).getLast?
  releases : ∀ (before after : List TrackerOp) (input : Input) (time : Instant),
    .clear ∉ after → (∀ other now, .release other now ∉ after) →
    (((Tracker.new limits).run (before ++ .release input time :: after)).releases.getLast? =
        some ⟨input, time + limits.window⟩ ↔
      ∀ now, .prune now ∈ after → now ≤ time + limits.window)

/-- **Where there is room for one release the newest one is kept.** -/
theorem Limits.keepsNewest {limits : Limits} (h : 0 < limits.releases) : limits.KeepsNewest where
  log ops := (Tracker.follows_run limits ops).getLast?_log
  releases before after input time hclear hlast := by
    rw [Tracker.run_append, Tracker.run_cons]
    have hlimits : ((Tracker.new limits).run before).limits = limits := Tracker.limits_run _ _
    generalize (Tracker.new limits).run before = t at hlimits ⊢
    subst hlimits
    constructor
    · intro hnewest now hprune
      refine Decidable.byContradiction fun hlate => ?_
      exact Tracker.notMem_releases_of_late hlast hprune hlate (List.mem_of_getLast? hnewest)
    · intro htimes
      have hspares : ∀ op ∈ after, op.Spares ⟨input, time + t.limits.window⟩ [input] := by
        intro op hop
        cases op with
        | press other now => exact trivial
        | release other now => exact absurd hop (hlast other now)
        | prune now => exact htimes now hop
        | clear => exact absurd hop hclear
      exact ((t.remembers_release input time [input] h).run (List.mem_singleton_self _) h
        hspares).getLast?

/-! ## 5. Files and builders agree -/

/-- **A settings file is its builder calls, or it is refused for its first offence**, in whatever
    order its lines stand and the calls are made; and settings made by any run leave a tracker room
    for its newest transition and release. -/
theorem documents_agree_with_builders :
    (∀ document e, Entries.ofDocument document = .ok e →
      ((∃ s, Settings.ofText document = .ok s) ↔ e.Acceptable) ∧
      (∀ s, Settings.ofText document = .ok s → ∀ calls : List SettingsChange,
        calls.Perm e.changes → s = Settings.default.changeAll calls) ∧
      (∀ reason, Settings.ofText document = .error reason ↔ e.offences.head? = some reason) ∧
      ∀ other, Entries.Reordered document other →
        Settings.ofText other = Settings.ofText document) ∧
    ∀ (host : SettingsHost) (ops : List SettingsOp),
      1 ≤ (host.run ops).settings.maxReleases ∧ 1 ≤ (host.run ops).settings.maxInputs ∧
        (host.run ops).settings.limits.KeepsNewest := by
  constructor
  · intro document e he
    rw [Settings.ofText_of_ofDocument he]
    refine ⟨?_, ?_, fun reason => Settings.ofEntries_eq_error_iff, ?_⟩
    · constructor
      · intro h
        obtain ⟨s, hs⟩ := h
        exact (Settings.ofEntries_eq_ok_iff.mp hs).1
      · exact fun h => ⟨_, Settings.ofEntries_eq_ok_iff.mpr ⟨h, rfl⟩⟩
    · intro s hs calls hcalls
      rw [Entries.changeAll_eq_of_perm hcalls]
      exact (Settings.ofEntries_eq_ok_iff.mp hs).2
    · intro other hother
      exact Settings.ofText_of_ofDocument (Entries.ofDocument_of_reordered hother he)
  · intro host ops
    have hpos := (host.run ops).settings.maxReleases_pos
    exact ⟨hpos, (host.run ops).settings.maxInputs_pos, Limits.keepsNewest hpos⟩

/-- A file whose calls are made the other way round, and one that is refused for its length before
    its naming, in both orders of its lines. -/
theorem agree_on_files :
    Settings.ofText "key_naming = \"Logical\"\nmax_input_sequence_length = 20\n" =
        .ok (Settings.default.changeAll [.naming .logical, .maxInputs 20]) ∧
      Settings.ofText "key_naming = \"other\"\nmax_input_sequence_length = 0\n" =
        .error (.zeroLength "max_input_sequence_length") ∧
      Settings.ofText "max_input_sequence_length = 0\nkey_naming = \"other\"\n" =
        .error (.zeroLength "max_input_sequence_length") := by
  obtain ⟨hiff, hcalls, -, -⟩ := documents_agree_with_builders.1
    "key_naming = \"Logical\"\nmax_input_sequence_length = 20\n"
    ⟨none, none, some 20, none, some "Logical"⟩ (by decide +kernel)
  obtain ⟨s, hs⟩ := hiff.mpr ⟨nofun, by simp, by decide⟩
  have hcall := hcalls s hs [.naming .logical, .maxInputs 20] (by decide)
  obtain ⟨-, -, herror, hother⟩ := documents_agree_with_builders.1
    "key_naming = \"other\"\nmax_input_sequence_length = 0\n"
    ⟨none, none, some 0, none, some "other"⟩ (by decide +kernel)
  have hrefused := (herror (.zeroLength "max_input_sequence_length")).mpr (by decide)
  refine ⟨hcall ▸ hs, hrefused, ?_⟩
  rw [← hrefused]
  exact hother _ ⟨[⟨"key_naming", .string "other"⟩, ⟨"max_input_sequence_length", .integer 0⟩],
    [⟨"max_input_sequence_length", .integer 0⟩, ⟨"key_naming", .string "other"⟩],
    by decide +kernel, by decide +kernel, .swap _ _ _⟩

end KeyBindings
