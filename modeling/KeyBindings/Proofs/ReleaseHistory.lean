import KeyBindings.Proofs.RaisedLimits
import KeyBindings.Proofs.Standing

/-!
# The release history and the one that is never pruned

The release history is edited in four ways: a release of the same input is replaced, the oldest
entries go when there is no room, and what has expired goes at every release and whenever a host
asks. Only the first two can be told from outside.

* `sublist_releases_run` -- at any instants the entries are latest releases of their inputs, in the
  order of these releases, each with its window;
* `Tracker.runUnpruned` -- the same run with nothing dropped for its age; its entries are the newest
  of the latest releases (`releases_runUnpruned`), whatever the instants;
* `Tracker.Pruned` -- one tracker is the other without some of its oldest, expired entries; each
  operation keeps that (`Pruned.step`) as long as the entries stand in the order of their expiry;
* **`release_history_unpruned`**: both together. While time goes forward nobody can tell where, or
  whether, anything was pruned.
-/

namespace KeyBindings

namespace Sequence

variable {α : Type}

/-! ## 1. The newest items of two parts -/

@[simp] theorem keepLast_zero (items : List α) : keepLast 0 items = [] := List.drop_length

/-- The newest items of a whole are those of its newer part, and before them those of the older part
    that have room. -/
theorem keepLast_append (n : Nat) (older newer : List α) :
    keepLast n (older ++ newer) = keepLast (n - newer.length) older ++ keepLast n newer := by
  rcases Nat.le_total newer.length n with h | h
  · rw [keepLast_append_of_length_le older h, keepLast_of_length_le h]
  · rw [keepLast_append_of_le_length older h, Nat.sub_eq_zero_of_le h, keepLast_zero,
      List.nil_append]

/-- Where at most one item is taken out for a new one, keeping the newest before that changes
    nothing. -/
theorem keepLast_filter_concat (n : Nat) {items : List α} {p : α → Bool} (a : α)
    (h : (items.filter (!p ·)).length ≤ 1) :
    keepLast n ((keepLast n items).filter p ++ [a]) = keepLast n (items.filter p ++ [a]) := by
  obtain ⟨older, ho⟩ := keepLast_suffix n items
  rcases Nat.le_total items.length n with hle | hle
  · rw [keepLast_of_length_le hle]
  · have hkept : (keepLast n items).length = n := by
      rw [length_keepLast, Nat.min_eq_left hle]
    have hout : ((keepLast n items).filter (!p ·)).length ≤ 1 :=
      Nat.le_trans ((keepLast_suffix n items).sublist.filter _).length_le h
    have hroom : n ≤ ((keepLast n items).filter p ++ [a]).length := by
      have hsum := List.length_eq_length_filter_add (l := keepLast n items) p
      rw [List.length_append, List.length_singleton]
      omega
    rw [← keepLast_append_of_le_length (older.filter p) hroom, ← List.append_assoc,
      ← List.filter_append, ho]

/-- Of items with keys of their own at most one has a given key. -/
theorem length_filter_not_ne_le_one {β : Type} [DecidableEq β] {f : α → β} {items : List α}
    (h : (items.map f).Nodup) (b : β) :
    (items.filter fun a => !decide (f a ≠ b)).length ≤ 1 := by
  have hown : ((items.filter fun a => !decide (f a ≠ b)).map f).Nodup :=
    h.sublist (List.filter_sublist.map _)
  have hkey : (items.filter fun a => !decide (f a ≠ b)).map f ⊆ [b] := by
    intro key hk
    obtain ⟨a, ha, rfl⟩ := List.mem_map.mp hk
    simpa using (List.mem_filter.mp ha).2
  rw [← List.length_map f]
  exact hown.length_le_of_subset hkey

/-- Of items in order, those below a bound come first. -/
theorem exists_append_filter_le {f : α → Nat} {items : List α} (h : items.Pairwise (f · ≤ f ·))
    (bound : Nat) :
    ∃ below, items = below ++ items.filter (fun a => bound ≤ f a) ∧ ∀ a ∈ below, f a < bound := by
  obtain ⟨below, hb⟩ := filter_le_suffix h bound
  refine ⟨below, hb.symm, ?_⟩
  have htwice := congrArg (List.filter fun a => bound ≤ f a) hb
  rw [List.filter_append, List.filter_filter] at htwice
  simp only [Bool.and_self] at htwice
  have hnone := List.self_eq_append_left.mp htwice.symm
  intro a ha
  have hout := List.filter_eq_nil_iff.mp hnone a ha
  rw [decide_eq_true_eq] at hout
  exact Nat.lt_of_not_le hout

end Sequence

/-! ## 2. Entries are latest releases -/

/-- The entry of a release, where a window lasts after it. -/
def Transition.remembered (window : Nat) (entry : Transition) : Release :=
  ⟨entry.input, entry.time + window⟩

/-- The entries of other inputs are those of the other releases. -/
theorem filter_map_remembered (window : Nat) (entries : History) (input : Input) :
    (entries.map (Transition.remembered window)).filter (·.input ≠ input) =
      (entries.filter (·.input ≠ input)).map (Transition.remembered window) := by
  rw [List.filter_map]
  rfl

variable {limits : Limits}

namespace Tracker

/-- **At any instants the release history lists latest releases**, in the order of these releases,
    each with its window. -/
theorem sublist_releases_run (limits : Limits) (ops : List TrackerOp) :
    ((new limits).run ops).releases.Sublist
      ((History.ofOps ops).latestReleases.map (Transition.remembered limits.window)) := by
  induction ops using List.reverseRecOn with
  | nil => exact List.Sublist.refl _
  | append_singleton ops op ih =>
    have hlimits : ((new limits).run ops).limits = limits := limits_run _ _
    rw [run_append, History.ofOps_concat]
    generalize (new limits).run ops = t at hlimits ih ⊢
    cases op with
    | press input now =>
      rw [History.extend, History.latestReleases_concat, if_pos rfl]
      exact ih
    | prune now => exact List.filter_sublist.trans ih
    | clear => exact List.Sublist.refl _
    | release input now =>
      rw [History.extend, History.latestReleases_concat, if_neg Bool.false_ne_true, List.map_append,
        ← filter_map_remembered]
      show (t.release input now).releases.Sublist _
      rw [releases_release, hlimits]
      refine (Sequence.keepLast_suffix _ _).sublist.trans ?_
      exact ((List.filter_sublist.trans ih).filter _).append (List.Sublist.refl _)

/-- The release history stays within its limit through every run. -/
theorem length_releases_run_le (limits : Limits) (ops : List TrackerOp) :
    ((new limits).run ops).releases.length ≤ limits.releases := by
  induction ops using List.reverseRecOn with
  | nil => exact Nat.zero_le _
  | append_singleton ops op ih =>
    have hlimits : ((new limits).run ops).limits = limits := limits_run _ _
    rw [run_append]
    generalize (new limits).run ops = t at hlimits ih ⊢
    cases op with
    | press input now => exact ih
    | prune now => exact Nat.le_trans (List.length_filter_le _ _) ih
    | clear => exact Nat.zero_le _
    | release input now => exact hlimits ▸ length_releases_remember_le _ input now

/-! ## 3. The run that prunes nothing -/

/-- An operation with nothing dropped for its age. -/
def stepUnpruned (t : Tracker) : TrackerOp → Tracker
  | .press input now => t.press input now
  | .release input now =>
    ({ t with held := t.held.erase input }.record ⟨input, false, now⟩).remember input now
  | .prune _ => t
  | .clear => t.clear

def runUnpruned (t : Tracker) (ops : List TrackerOp) : Tracker := ops.foldl stepUnpruned t

theorem runUnpruned_concat (t : Tracker) (ops : List TrackerOp) (op : TrackerOp) :
    t.runUnpruned (ops ++ [op]) = (t.runUnpruned ops).stepUnpruned op := List.foldl_append

theorem limits_stepUnpruned (t : Tracker) (op : TrackerOp) :
    (t.stepUnpruned op).limits = t.limits := by
  cases op <;> rfl

theorem limits_runUnpruned (t : Tracker) (ops : List TrackerOp) :
    (t.runUnpruned ops).limits = t.limits := by
  induction ops using List.reverseRecOn with
  | nil => rfl
  | append_singleton ops op ih => rw [runUnpruned_concat, limits_stepUnpruned, ih]

/-- **Without pruning the release history is the newest of the latest releases**, at any instants:
    a release moves its input to the newest place, and then the oldest ones go. -/
theorem releases_runUnpruned (limits : Limits) (ops : List TrackerOp) :
    ((new limits).runUnpruned ops).releases = Sequence.keepLast limits.releases
      ((History.ofOps ops).latestReleases.map (Transition.remembered limits.window)) := by
  induction ops using List.reverseRecOn with
  | nil => exact (Sequence.keepLast_nil _).symm
  | append_singleton ops op ih =>
    have hlimits : ((new limits).runUnpruned ops).limits = limits := limits_runUnpruned _ _
    rw [runUnpruned_concat, History.ofOps_concat]
    generalize (new limits).runUnpruned ops = t at hlimits ih ⊢
    cases op with
    | press input now =>
      rw [History.extend, History.latestReleases_concat, if_pos rfl]
      exact ih
    | prune now => exact ih
    | clear => exact (Sequence.keepLast_nil _).symm
    | release input now =>
      have hnodup := History.nodup_map_input_latestReleases (History.ofOps ops)
      rw [History.extend, History.latestReleases_concat, if_neg Bool.false_ne_true, List.map_append,
        ← filter_map_remembered, stepUnpruned, releases_remember]
      show Sequence.keepLast t.limits.releases (t.releases.filter (·.input ≠ input) ++
        [⟨input, now + t.limits.window⟩]) = _
      rw [hlimits, ih]
      refine Sequence.keepLast_filter_concat _ _ (Sequence.length_filter_not_ne_le_one ?_ _)
      rw [List.map_map]
      exact hnodup

/-! ## 4. What pruning takes away -/

/-- A tracker is another one without some of its oldest entries, all of them expired. -/
structure Pruned (now : Instant) (t whole : Tracker) : Prop where
  limits : t.limits = whole.limits
  held : t.held = whole.held
  log : t.log = whole.log
  releases : ∃ gone, whole.releases = gone ++ t.releases ∧ ∀ r ∈ gone, r.expiry < now

variable {now : Instant} {t whole : Tracker}

/-- Pruning takes away expired entries, the oldest where they stand in the order of expiry. -/
theorem Pruned.prune (h : Pruned now t whole) (hs : t.releases.Pairwise (·.expiry ≤ ·.expiry))
    {time : Instant} (ht : time ≤ now) : Pruned now (t.prune time) whole where
  limits := h.limits
  held := h.held
  log := h.log
  releases := by
    obtain ⟨gone, hg, hexpired⟩ := h.releases
    obtain ⟨below, hb, hbelow⟩ := Sequence.exists_append_filter_le hs time
    refine ⟨gone ++ below, ?_, fun r hr => ?_⟩
    · rw [releases_prune, List.append_assoc, ← hb, hg]
    · rcases List.mem_append.mp hr with hr | hr
      · exact hexpired r hr
      · exact Nat.lt_of_lt_of_le (hbelow r hr) ht

/-- A new entry goes to the end of both, and what has no room goes from the oldest end of both. -/
theorem Pruned.remember (h : Pruned now t whole) (input : Input) (time : Instant) :
    Pruned now (t.remember input time) (whole.remember input time) where
  limits := h.limits
  held := h.held
  log := h.log
  releases := by
    obtain ⟨gone, hg, hexpired⟩ := h.releases
    rw [releases_remember, releases_remember, ← h.limits, hg, List.filter_append, List.append_assoc,
      Sequence.keepLast_append]
    exact ⟨_, rfl, fun r hr => hexpired r
      (List.mem_of_mem_filter ((Sequence.keepLast_suffix _ _).subset hr))⟩

/-- **One operation keeps a tracker the other one but for expired entries.** -/
theorem Pruned.step (h : Pruned now t whole) (hs : t.releases.Pairwise (·.expiry ≤ ·.expiry))
    {op : TrackerOp} (ht : ∀ time, op.instant? = some time → time ≤ now) :
    Pruned now (t.step op) (whole.stepUnpruned op) := by
  cases op with
  | clear =>
    show Pruned now (new t.limits) (new whole.limits)
    rw [h.limits]
    exact ⟨rfl, rfl, rfl, [], rfl, nofun⟩
  | prune time => exact h.prune hs (ht time rfl)
  | press input time =>
    refine ⟨h.limits, congrArg (Chord.insert · input) h.held, ?_, h.releases⟩
    rw [Tracker.step, stepUnpruned, log_press, log_press, h.log, h.limits]
  | release input time =>
    have hlogged : Pruned now
        ({ t with held := t.held.erase input }.record ⟨input, false, time⟩)
        ({ whole with held := whole.held.erase input }.record ⟨input, false, time⟩) := by
      refine ⟨h.limits, congrArg (Chord.erase · input) h.held, ?_, h.releases⟩
      show Sequence.dropOldest t.limits.log _ = Sequence.dropOldest whole.limits.log _
      rw [h.limits, h.log]
    exact (hlogged.prune hs (ht time rfl)).remember input time

/-- **While time goes forward a run is the unpruned one but for expired entries.** -/
theorem pruned_run (limits : Limits) {ops : List TrackerOp} (hf : Forward ops now) :
    Pruned now ((new limits).run ops) ((new limits).runUnpruned ops) := by
  induction ops using List.reverseRecOn with
  | nil => exact ⟨rfl, rfl, rfl, [], rfl, nofun⟩
  | append_singleton ops op ih =>
    have hbefore := hf.of_append_left
    rw [run_append, runUnpruned_concat]
    refine (ih hbefore).step (pairwise_expiry_releases hbefore) fun time ht => ?_
    exact hf.le_now (List.mem_append_right _ (List.mem_singleton_self _)) ht

/-! ## 5. What can be told -/

theorem Pruned.recentReleases_eq (h : Pruned now t whole) :
    t.recentReleases now = whole.recentReleases now := by
  obtain ⟨gone, hg, hexpired⟩ := h.releases
  have hnone : gone.filter (fun r => now ≤ r.expiry) = [] :=
    List.filter_eq_nil_iff.mpr fun r hr hle =>
      Nat.not_le_of_lt (hexpired r hr) (of_decide_eq_true hle)
  rw [recentReleases, recentReleases, hg, List.filter_append, hnone, List.nil_append]

/-- Where no input has two entries, an input counts exactly when it is among the recent releases. -/
theorem releasedRecently_iff_mem (h : (t.releases.map (·.input)).Nodup) {input : Input} :
    t.releasedRecently input now = true ↔ input ∈ t.recentReleases now := by
  rw [releasedRecently, recentReleases, Option.any_eq_true, List.mem_map]
  constructor
  · intro hr
    obtain ⟨r, hfind, hcounts⟩ := hr
    have hinput : r.input = input := by simpa using List.find?_some hfind
    exact ⟨r, List.mem_filter.mpr ⟨List.mem_of_find?_eq_some hfind, hcounts⟩, hinput⟩
  · intro hr
    obtain ⟨r, hmem, rfl⟩ := hr
    obtain ⟨hin, hcounts⟩ := List.mem_filter.mp hmem
    have hsome : (t.releases.find? (·.input = r.input)).isSome :=
      List.find?_isSome.mpr ⟨r, hin, decide_eq_true rfl⟩
    obtain ⟨s, hs⟩ := Option.isSome_iff_exists.mp hsome
    have hinput : s.input = r.input := by simpa using List.find?_some hs
    have hsame : s = r := List.inj_on_of_nodup_map h (List.mem_of_find?_eq_some hs) hin hinput
    exact ⟨s, hs, hsame ▸ hcounts⟩

theorem nodup_map_input_releases_run (limits : Limits) (ops : List TrackerOp) :
    (((new limits).run ops).releases.map (·.input)).Nodup := by
  refine List.Nodup.sublist ((sublist_releases_run limits ops).map _) ?_
  rw [List.map_map]
  exact History.nodup_map_input_latestReleases _

theorem nodup_map_input_releases_runUnpruned (limits : Limits) (ops : List TrackerOp) :
    (((new limits).runUnpruned ops).releases.map (·.input)).Nodup := by
  rw [releases_runUnpruned]
  refine List.Nodup.sublist ((Sequence.keepLast_suffix _ _).sublist.map _) ?_
  rw [List.map_map]
  exact History.nodup_map_input_latestReleases _

/-- Two trackers answer alike whatever is asked of them at an instant. -/
structure AnswersAlike (now : Instant) (t u : Tracker) : Prop where
  held : t.held = u.held
  log : t.log = u.log
  recentReleases : t.recentReleases now = u.recentReleases now
  releasedRecently : ∀ input, t.releasedRecently input now = u.releasedRecently input now

/-- Trackers that answer alike fire the same patterns. -/
theorem AnswersAlike.fires_eq (h : AnswersAlike now t whole) (p : Pattern) (mode : Mode) :
    p.fires mode t now = p.fires mode whole now := by
  cases mode with
  | simultaneous => rw [Pattern.fires, Pattern.fires, h.held]
  | sequential =>
    simp only [Pattern.fires, lastWasPress, moments, isHeld, h.held, h.log, h.releasedRecently]

/-- **While time goes forward a run answers as the unpruned one.** -/
theorem answersAlike_runUnpruned (limits : Limits) {ops : List TrackerOp} (hf : Forward ops now) :
    AnswersAlike now ((new limits).run ops) ((new limits).runUnpruned ops) := by
  have hpruned := pruned_run limits hf
  refine ⟨hpruned.held, hpruned.log, hpruned.recentReleases_eq, fun input => ?_⟩
  rw [Bool.eq_iff_iff, releasedRecently_iff_mem (nodup_map_input_releases_run limits ops),
    releasedRecently_iff_mem (nodup_map_input_releases_runUnpruned limits ops),
    hpruned.recentReleases_eq]

end Tracker

/-- **The release history is the unpruned one.** At any instants it has no input twice, no more
    entries than there is room for, and lists latest releases in their order, each with its window.
    While time goes forward, the recent releases are those of the newest latest releases -- no more
    than there is room for -- whose window has not passed; and nothing that a host can ask tells
    where anything was pruned. -/
theorem release_history_unpruned (limits : Limits) (ops : List TrackerOp) :
    let t := (Tracker.new limits).run ops
    let latest := (History.ofOps ops).latestReleases
    (t.releases.map (·.input)).Nodup ∧ t.releases.length ≤ limits.releases ∧
      t.releases.Sublist (latest.map (Transition.remembered limits.window)) ∧
      (∀ input now, t.releasedRecently input now = true ↔ input ∈ t.recentReleases now) ∧
      ∀ now, Forward ops now →
        t.recentReleases now = ((Sequence.keepLast limits.releases latest).filter fun entry =>
          now ≤ entry.time + limits.window).map (·.input) ∧
        Tracker.AnswersAlike now t ((Tracker.new limits).runUnpruned ops) ∧
        ∀ (p : Pattern) (mode : Mode), p.fires mode t now =
          p.fires mode ((Tracker.new limits).runUnpruned ops) now := by
  intro t latest
  have hnodup := Tracker.nodup_map_input_releases_run limits ops
  refine ⟨hnodup, Tracker.length_releases_run_le limits ops, Tracker.sublist_releases_run limits ops,
    fun input now => Tracker.releasedRecently_iff_mem hnodup, fun now hf => ?_⟩
  have halike := Tracker.answersAlike_runUnpruned limits hf
  refine ⟨?_, halike, halike.fires_eq⟩
  rw [halike.recentReleases, Tracker.recentReleases, Tracker.releases_runUnpruned,
    ← Sequence.map_keepLast, List.filter_map, List.map_map]
  rfl

/-- There is room for one release. `KeyB` has pushed `KeyA` out and expires; `KeyA` is released
    again, and only its newest release counts, wherever the history is pruned. -/
theorem newest_release_counts :
    let limits := Limits.ofNumbers 500 10 1
    let ops : List TrackerOp :=
      [.release "KeyA" 0, .press "KeyB" 50, .release "KeyB" 100, .prune 650, .release "KeyA" 700]
    Forward ops 1200 ∧ ((Tracker.new limits).run ops).recentReleases 1200 = ["KeyA"] ∧
      Tracker.AnswersAlike 1200 ((Tracker.new limits).run ops)
        ((Tracker.new limits).runUnpruned ops) := by
  intro limits ops
  have hf : Forward ops 1200 := by decide
  have hunpruned := (release_history_unpruned limits ops).2.2.2.2 1200 hf
  exact ⟨hf, hunpruned.1.trans (by decide), hunpruned.2.1⟩

end KeyBindings
