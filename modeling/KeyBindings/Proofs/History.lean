import KeyBindings.Tracker.Run
import Mathlib.Data.List.Infix
import Mathlib.Data.List.Dedup

/-!
# What a tracker keeps of its history

The tracker forgets, the history does not. This file reads the three parts of a tracker off the
history of its run:

* the log is the newest part of the history (`Follows.log`);
* the held chord is the history replayed from nothing (`Follows.held`), so an input is held exactly
  when its latest transition is a press (`mem_down_iff`);
* every entry of the release history stands for the LATEST release of its input
  (`Follows.releases`); the converse needs room and time, see `KeyBindings.Proofs.Releases`.

**`follows_run`**: all three hold after every run, at any instants and with any limits.
-/

namespace KeyBindings

/-! ## 1. Instants of operations -/

/-- The instant an operation happens at. A clear happens at none. -/
def TrackerOp.instant? : TrackerOp → Option Instant
  | .press _ now => some now
  | .release _ now => some now
  | .prune now => some now
  | .clear => none

/-- Time goes forward through some operations and up to an instant after them. -/
def Forward (ops : List TrackerOp) (now : Instant) : Prop :=
  (ops.filterMap TrackerOp.instant? ++ [now]).Pairwise (· ≤ ·)

instance (ops : List TrackerOp) (now : Instant) : Decidable (Forward ops now) :=
  inferInstanceAs (Decidable (List.Pairwise _ _))

/-- The operation that leaves a transition in the history. -/
def Transition.op (entry : Transition) : TrackerOp :=
  if entry.pressed then .press entry.input entry.time else .release entry.input entry.time

@[simp] theorem Transition.instant?_op (entry : Transition) :
    entry.op.instant? = some entry.time := by
  unfold Transition.op
  split <;> rfl

/-- The operations of some transitions go forward when the transitions do. -/
theorem forward_map_op_iff {entries : List Transition} {now : Instant} :
    Forward (entries.map Transition.op) now ↔
      (entries.map (·.time)).Pairwise (· ≤ ·) ∧ ∀ entry ∈ entries, entry.time ≤ now := by
  have htimes : (entries.map Transition.op).filterMap TrackerOp.instant? =
      entries.map (·.time) := by
    rw [List.filterMap_map, ← List.filterMap_eq_map]
    exact List.filterMap_congr fun entry _ => entry.instant?_op
  rw [Forward, htimes, List.pairwise_append]
  constructor
  · intro h
    obtain ⟨hp, -, hn⟩ := h
    exact ⟨hp, fun entry he =>
      hn _ (List.mem_map_of_mem he) now (List.mem_singleton_self _)⟩
  · intro h
    obtain ⟨hp, hn⟩ := h
    refine ⟨hp, List.pairwise_singleton _ _, fun time ht last hl => ?_⟩
    obtain ⟨entry, he, rfl⟩ := List.mem_map.mp ht
    exact List.mem_singleton.mp hl ▸ hn entry he

theorem Forward.of_append {before after : List TrackerOp} {now : Instant}
    (h : Forward (before ++ after) now) : Forward after now := by
  unfold Forward at h ⊢
  rw [List.filterMap_append, List.append_assoc] at h
  exact (List.pairwise_append.mp h).2.1

theorem Forward.le_now {ops : List TrackerOp} {now : Instant} (h : Forward ops now)
    {op : TrackerOp} (hop : op ∈ ops) {time : Instant} (ht : op.instant? = some time) :
    time ≤ now := by
  have hmem : time ∈ ops.filterMap TrackerOp.instant? := List.mem_filterMap.mpr ⟨op, hop, ht⟩
  exact (List.pairwise_append.mp h).2.2 time hmem now (List.mem_singleton_self _)

theorem Forward.le_later {before after : List TrackerOp} {op later : TrackerOp}
    {now time time' : Instant} (h : Forward (before ++ later :: after) now) (hop : op ∈ before)
    (ht : op.instant? = some time) (ht' : later.instant? = some time') : time ≤ time' := by
  unfold Forward at h
  rw [List.filterMap_append, List.filterMap_cons_some ht', List.append_assoc] at h
  have hmem : time ∈ before.filterMap TrackerOp.instant? := List.mem_filterMap.mpr ⟨op, hop, ht⟩
  exact (List.pairwise_append.mp h).2.2 time hmem time' List.mem_cons_self

namespace History

/-! ## 2. Down, replayed and looked up -/

/-- What a transition makes of the chord that is down. -/
def follow (down : Chord) (entry : Transition) : Chord :=
  if entry.pressed then down.insert entry.input else down.erase entry.input

/-- What is down at the end of a history, replayed from nothing. -/
def down (past : History) : Chord := past.foldl follow .empty

@[simp] theorem down_nil : down [] = .empty := rfl

theorem down_concat (past : History) (entry : Transition) :
    down (past ++ [entry]) = follow past.down entry := List.foldl_append

/-- **An input is down after a replay exactly when its latest transition is a press.** -/
theorem mem_down_iff {past : History} {input : Input} :
    input ∈ past.down.members ↔ past.isDown input = true := by
  induction past using List.reverseRecOn with
  | nil => simp
  | append_singleton past entry ih =>
    rw [down_concat, isDown_concat, follow]
    by_cases hp : entry.pressed = true
    · rw [if_pos hp, Chord.mem_members_insert, ih]
      by_cases hx : entry.input = input
      · simp [hx, hp]
      · simp [hx, Ne.symm hx]
    · rw [if_neg hp, Chord.mem_members_erase, ih]
      by_cases hx : entry.input = input
      · simp [hx, hp]
      · simp [hx, Ne.symm hx]

theorem isDown_append_of_mem {earlier past : History} {input : Input}
    (h : input ∈ past.map (·.input)) : isDown (earlier ++ past) input = isDown past input := by
  induction past using List.reverseRecOn with
  | nil => simp at h
  | append_singleton past entry ih =>
    rw [← List.append_assoc, isDown_concat, isDown_concat]
    by_cases hx : entry.input = input
    · rw [if_pos hx, if_pos hx]
    · rw [if_neg hx, if_neg hx]
      refine ih ?_
      rw [List.map_append, List.mem_append] at h
      exact h.resolve_right fun he => hx (List.mem_singleton.mp he).symm

theorem isDown_append_of_notMem {earlier past : History} {input : Input}
    (h : input ∉ past.map (·.input)) : isDown (earlier ++ past) input = isDown earlier input := by
  induction past using List.reverseRecOn with
  | nil => rw [List.append_nil]
  | append_singleton past entry ih =>
    rw [List.map_append, List.mem_append, not_or] at h
    rw [← List.append_assoc, isDown_concat, if_neg fun e => h.2 (by simp [e]), ih h.1]

theorem mem_inputs_of_isDown {past : History} {input : Input} (h : past.isDown input = true) :
    input ∈ past.map (·.input) := by
  refine Decidable.byContradiction fun hn => ?_
  have hnothing : isDown ([] ++ past) input = isDown [] input := isDown_append_of_notMem hn
  rw [List.nil_append, h] at hnothing
  exact Bool.noConfusion hnothing

/-- What a newer part of a history says about down stays true of the whole. -/
theorem isDown_append {earlier past : History} {input : Input} (h : past.isDown input = true) :
    isDown (earlier ++ past) input = true := by
  rw [isDown_append_of_mem (mem_inputs_of_isDown h), h]

/-! ## 3. The latest release -/

/-- The instant of an input's latest release. -/
def releasedAt? (past : History) (input : Input) : Option Instant :=
  (past.reverse.find? fun entry => entry.input = input && !entry.pressed).map (·.time)

theorem releasedAt?_concat (past : History) (entry : Transition) (input : Input) :
    releasedAt? (past ++ [entry]) input =
      if entry.input = input ∧ entry.pressed = false then some entry.time
      else releasedAt? past input := by
  rw [releasedAt?, List.reverse_append, List.reverse_singleton, List.singleton_append,
    List.find?_cons]
  by_cases hx : entry.input = input
  · cases hp : entry.pressed <;> simp [hx, releasedAt?]
  · simp [hx, releasedAt?]

theorem exists_of_releasedAt? {past : History} {input : Input} {time : Instant}
    (h : past.releasedAt? input = some time) :
    ∃ entry ∈ past, entry.input = input ∧ entry.pressed = false ∧ entry.time = time := by
  obtain ⟨entry, hf, rfl⟩ := Option.map_eq_some_iff.mp h
  have hp := List.find?_some hf
  rw [Bool.and_eq_true, decide_eq_true_eq, Bool.not_eq_true'] at hp
  exact ⟨entry, List.mem_reverse.mp (List.mem_of_find?_eq_some hf), hp.1, hp.2, rfl⟩

/-- The inputs released in a history, each once. -/
def released (past : History) : List Input :=
  ((past.filter (!·.pressed)).map (·.input)).dedup

theorem mem_released_iff {past : History} {input : Input} :
    input ∈ past.released ↔ ∃ entry ∈ past, entry.input = input ∧ entry.pressed = false := by
  simp only [released, List.mem_dedup, List.mem_map, List.mem_filter, Bool.not_eq_true',
    and_assoc]
  exact exists_congr fun entry => and_congr_right fun _ => and_comm

/-! ## 4. Histories of runs -/

@[simp] theorem extend_op (past : History) (entry : Transition) :
    past.extend entry.op = past ++ [entry] := by
  obtain ⟨input, pressed, time⟩ := entry
  cases pressed <;> rfl

theorem foldl_extend_ops (past entries : History) :
    (entries.map Transition.op).foldl extend past = past ++ entries := by
  induction entries generalizing past with
  | nil => exact (List.append_nil past).symm
  | cons entry entries ih =>
    rw [List.map_cons, List.foldl_cons, extend_op, ih, List.append_assoc, List.singleton_append]

/-- The operations of some transitions leave these transitions. -/
@[simp] theorem ofOps_map_op (entries : History) : ofOps (entries.map Transition.op) = entries :=
  foldl_extend_ops [] entries

/-- **The history of the newer operations is the newest part of the whole history.** -/
theorem ofOps_suffix_append (before after : List TrackerOp) :
    ofOps after <:+ ofOps (before ++ after) := by
  induction after using List.reverseRecOn with
  | nil => exact List.nil_suffix
  | append_singleton after op ih =>
    obtain ⟨earlier, he⟩ := ih
    rw [← List.append_assoc, ofOps_concat, ofOps_concat, ← he]
    cases op with
    | press input now => exact ⟨earlier, (List.append_assoc ..).symm⟩
    | release input now => exact ⟨earlier, (List.append_assoc ..).symm⟩
    | prune now => exact ⟨earlier, rfl⟩
    | clear => exact ⟨[], rfl⟩

end History

/-! ## 5. The tracker follows its history -/

/-- What the parts of a tracker say about its history. -/
structure Tracker.Follows (t : Tracker) (past : History) : Prop where
  log : t.log = Sequence.keepLast t.limits.log past
  held : t.held = past.down
  releases : ∀ r ∈ t.releases, ∃ time, past.releasedAt? r.input = some time ∧
    r.expiry = time + t.limits.window

namespace Tracker

theorem follows_new (limits : Limits) : (new limits).Follows [] where
  log := (Sequence.keepLast_nil _).symm
  held := rfl
  releases _ hr := absurd hr List.not_mem_nil

/-- Every operation keeps the tracker along its history. -/
theorem follows_step {t : Tracker} {past : History} (h : t.Follows past) (op : TrackerOp) :
    (t.step op).Follows (past.extend op) where
  log := by
    rw [limits_step]
    cases op with
    | press input now =>
      rw [step, log_press, h.log, Sequence.keepLast_concat_keepLast, History.extend]
    | release input now =>
      rw [step, log_release, h.log, Sequence.keepLast_concat_keepLast, History.extend]
    | prune now => exact h.log
    | clear => exact (Sequence.keepLast_nil _).symm
  held := by
    cases op with
    | press input now =>
      rw [step, held_press, h.held, History.extend, History.down_concat]
      rfl
    | release input now =>
      rw [step, held_release, h.held, History.extend, History.down_concat]
      rfl
    | prune now => exact h.held
    | clear => rfl
  releases := by
    intro r hr
    rw [limits_step]
    cases op with
    | press input now =>
      rw [History.extend, History.releasedAt?_concat, if_neg (by simp)]
      exact h.releases r hr
    | release input now =>
      rw [step, releases_release] at hr
      rw [History.extend, History.releasedAt?_concat]
      rcases List.mem_append.mp ((Sequence.keepLast_suffix _ _).subset hr) with hr | hr
      · obtain ⟨hr, hx⟩ := List.mem_filter.mp hr
        rw [if_neg fun e => of_decide_eq_true hx e.1.symm]
        exact h.releases r (List.mem_of_mem_filter hr)
      · rw [List.mem_singleton.mp hr, if_pos ⟨rfl, rfl⟩]
        exact ⟨now, rfl, rfl⟩
    | prune now => exact h.releases r (List.mem_of_mem_filter hr)
    | clear => exact absurd hr List.not_mem_nil

/-- **A tracker follows its history through every run.** -/
theorem follows_run (limits : Limits) (ops : List TrackerOp) :
    ((new limits).run ops).Follows (History.ofOps ops) := by
  induction ops using List.reverseRecOn with
  | nil => exact follows_new limits
  | append_singleton ops op ih =>
    rw [run_append, History.ofOps_concat]
    exact follows_step ih op

/-- An input is held exactly when its latest transition is a press. -/
theorem Follows.isHeld_iff {t : Tracker} {past : History} (h : t.Follows past) {input : Input} :
    t.isHeld input = true ↔ past.isDown input = true := by
  rw [isHeld, Chord.contains_iff, h.held, History.mem_down_iff]

/-- Any entry of an input answers for it: all of them have the same expiry. -/
theorem Follows.releasedRecently_iff {t : Tracker} {past : History} (h : t.Follows past)
    {input : Input} {now : Instant} :
    t.releasedRecently input now = true ↔ ∃ r ∈ t.releases, r.input = input ∧ now ≤ r.expiry := by
  rw [releasedRecently, Option.any_eq_true]
  constructor
  · intro hr
    obtain ⟨r, hr, hn⟩ := hr
    exact ⟨r, List.mem_of_find?_eq_some hr, by simpa using List.find?_some hr, by simpa using hn⟩
  · intro hr
    obtain ⟨r, hr, hx, hn⟩ := hr
    have hsome : (t.releases.find? (·.input = input)).isSome := by
      rw [List.find?_isSome]
      exact ⟨r, hr, by simpa using hx⟩
    obtain ⟨s, hs⟩ := Option.isSome_iff_exists.mp hsome
    have hsx : s.input = input := by simpa using List.find?_some hs
    obtain ⟨time, htime, he⟩ := h.releases r hr
    obtain ⟨time', htime', he'⟩ := h.releases s (List.mem_of_find?_eq_some hs)
    have hsame : time = time' := by
      rw [hx] at htime
      rw [hsx, htime] at htime'
      exact Option.some.inj htime'
    have hsn : now ≤ s.expiry := calc
      now ≤ r.expiry := hn
      _ = s.expiry := by rw [he, he', hsame]
    exact ⟨s, hs, decide_eq_true hsn⟩

/-- **The log is the newest part of the history.** -/
theorem Follows.log_suffix {t : Tracker} {past : History} (h : t.Follows past) :
    t.log <:+ past := by
  rw [h.log]
  exact Sequence.keepLast_suffix _ _

theorem Follows.getLast?_log {t : Tracker} {past : History} (h : t.Follows past) :
    t.log.getLast? = past.getLast? := by
  rw [h.log, Sequence.keepLast, List.getLast?_drop]
  have hpos := t.limits.log_pos
  cases past with
  | nil => rfl
  | cons entry past => rw [if_neg (by simp; omega)]

end Tracker

end KeyBindings
