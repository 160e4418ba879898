import KeyBindings.Proofs.Completion

/-!
# Raising limits

Two trackers are fed the same run, and every limit of the first is at most the second's. What is
held is the same in both, and so is the newest transition; the log of the first is the newest part
of the other log. The release history is the one part where room and time compete: a longer window
keeps more entries, and these could push others out.

* `pairwise_expiry_releases` -- while time goes forward, entries stand in the order of their
  expiry, so whatever expires goes from the OLDEST end, like whatever has no room;
* `Tracker.FitsWithin` -- the entries of one tracker, each with the extra time of the longer window,
  are the newest entries of the other;
* `FitsWithin.step`, `fitsWithin_run` -- one operation keeps that, and so does a run;
* **`fires_of_limits_le`**: raising limits loses no match.
-/

namespace KeyBindings

/-! ## 1. Limits, one at most the other -/

namespace Limits

/-- Every limit is at most the other's. -/
instance : LE Limits where
  le small large :=
    small.window ≤ large.window ∧ small.log ≤ large.log ∧ small.releases ≤ large.releases

/-- Raising a log of no entries to one keeps the order of the numbers. -/
theorem ofNumbers_le_ofNumbers {window window' log log' releases releases' : Nat}
    (hw : window ≤ window') (hl : log ≤ log') (hr : releases ≤ releases') :
    ofNumbers window log releases ≤ ofNumbers window' log' releases' := by
  have hlog : max 1 log ≤ max 1 log' := by omega
  exact ⟨hw, hlog, hr⟩

end Limits

/-! ## 2. Newest parts of lists -/

namespace Sequence

variable {α : Type}

/-- Keeping more of a longer list keeps at least what keeping less of its newest part does. -/
theorem keepLast_suffix_keepLast {m n : Nat} {newest items : List α} (h : newest <:+ items)
    (hmn : m ≤ n) : keepLast m newest <:+ keepLast n items := by
  have hle : newest.length ≤ items.length := h.length_le
  have hlen : (keepLast m newest).length ≤ (keepLast n items).length := by
    rw [length_keepLast, length_keepLast]
    omega
  exact List.suffix_of_suffix_length_le ((keepLast_suffix m newest).trans h)
    (keepLast_suffix n items) hlen

/-- Of items in order, those past a bound are the newest. -/
theorem filter_le_suffix {f : α → Nat} {items : List α} (h : items.Pairwise (f · ≤ f ·))
    (bound : Nat) : (items.filter fun a => bound ≤ f a) <:+ items := by
  induction items with
  | nil => exact List.suffix_refl _
  | cons a items ih =>
    obtain ⟨ha, hrest⟩ := List.pairwise_cons.mp h
    by_cases hb : bound ≤ f a
    · -- then nothing after `a` falls below the bound either
      have hall : ∀ b ∈ a :: items, decide (bound ≤ f b) = true := by
        intro b hmem
        rcases List.mem_cons.mp hmem with rfl | hmem
        · exact decide_eq_true hb
        · exact decide_eq_true (Nat.le_trans hb (ha b hmem))
      rw [List.filter_eq_self.mpr hall]
    · rw [List.filter_cons_of_neg (by simpa using hb)]
      exact (ih hrest).trans (List.suffix_cons a items)

end Sequence

/-! ## 3. Entries in the order of their expiry -/

theorem Forward.of_append_left {before after : List TrackerOp} {now : Instant}
    (h : Forward (before ++ after) now) : Forward before now := by
  unfold Forward at h ⊢
  rw [List.filterMap_append, List.append_assoc] at h
  exact h.sublist ((List.Sublist.refl _).append (List.sublist_append_right _ _))

/-- **While time goes forward, the release history stands in the order of expiry.** -/
theorem pairwise_expiry_releases {limits : Limits} {ops : List TrackerOp} {now : Instant}
    (hf : Forward ops now) :
    ((Tracker.new limits).run ops).releases.Pairwise (·.expiry ≤ ·.expiry) := by
  induction ops using List.reverseRecOn with
  | nil => exact List.Pairwise.nil
  | append_singleton ops op ih =>
    have hfollows := Tracker.follows_run limits ops
    have hlimits : ((Tracker.new limits).run ops).limits = limits := Tracker.limits_run _ _
    have hsorted := ih hf.of_append_left
    rw [Tracker.run_append]
    generalize (Tracker.new limits).run ops = t at hfollows hlimits hsorted ⊢
    cases op with
    | press input time => exact hsorted
    | clear => exact List.Pairwise.nil
    | prune time => exact hsorted.filter _
    | release input time =>
      show (t.release input time).releases.Pairwise _
      rw [Tracker.releases_release]
      refine List.Pairwise.sublist (Sequence.keepLast_suffix _ _).sublist ?_
      rw [List.pairwise_append]
      refine ⟨(hsorted.filter _).filter _, List.pairwise_singleton _ _, fun r hr s hs => ?_⟩
      have hmem : r ∈ t.releases := List.mem_of_mem_filter (List.mem_of_mem_filter hr)
      obtain ⟨earlier, hat, hexpiry⟩ := hfollows.releases r hmem
      obtain ⟨entry, he, -, -, rfl⟩ := History.exists_of_releasedAt? hat
      have hle : entry.time ≤ time :=
        hf.le_later (History.op_mem_of_mem_ofOps he) entry.instant?_op rfl
      rw [List.mem_singleton.mp hs, hexpiry]
      exact Nat.add_le_add_right hle _

/-! ## 4. The release history under two limits -/

/-- Gives a release more time. -/
def Release.extend (extra : Nat) (r : Release) : Release := { r with expiry := r.expiry + extra }

namespace Tracker

/-- What one tracker remembers fits within what another does: its limits are at most the other's,
    and its entries, with the extra time of the longer window, are the newest of the other's. -/
structure FitsWithin (lesser greater : Tracker) : Prop where
  limits : lesser.limits ≤ greater.limits
  releases : lesser.releases.map
    (Release.extend (greater.limits.window - lesser.limits.window)) <:+ greater.releases

variable {lesser greater : Tracker}

/-- What has not expired in the shorter window has not in the longer one, and it is the newest. -/
theorem FitsWithin.prune (h : FitsWithin lesser greater)
    (hs : lesser.releases.Pairwise (·.expiry ≤ ·.expiry)) (now : Instant) :
    FitsWithin (lesser.prune now) (greater.prune now) where
  limits := h.limits
  releases := by
    generalize hextra : greater.limits.window - lesser.limits.window = extra
    have hreleases := h.releases
    rw [hextra] at hreleases
    rw [limits_prune, limits_prune, hextra, releases_prune, releases_prune]
    have hnewest : (lesser.releases.filter fun r => now ≤ r.expiry).map (Release.extend extra) <:+
        greater.releases :=
      ((Sequence.filter_le_suffix hs now).map _).trans hreleases
    have hkept : ((lesser.releases.filter fun r => now ≤ r.expiry).map
        (Release.extend extra)).filter (fun r => now ≤ r.expiry) =
          (lesser.releases.filter fun r => now ≤ r.expiry).map (Release.extend extra) := by
      refine List.filter_eq_self.mpr fun r hr => ?_
      obtain ⟨s, hs, rfl⟩ := List.mem_map.mp hr
      have hin : now ≤ s.expiry := of_decide_eq_true (List.mem_filter.mp hs).2
      exact decide_eq_true (Nat.le_add_right_of_le hin)
    rw [← hkept]
    exact hnewest.filter _

/-- A newer release goes to the end of both, and what has no room goes from the oldest end. -/
theorem FitsWithin.remember (h : FitsWithin lesser greater) (input : Input) (now : Instant) :
    FitsWithin (lesser.remember input now) (greater.remember input now) where
  limits := h.limits
  releases := by
    obtain ⟨hwindow, -, hroom⟩ := h.limits
    generalize hextra : greater.limits.window - lesser.limits.window = extra
    have hothers := h.releases.filter (·.input ≠ input)
    rw [hextra, List.filter_map] at hothers
    have hnew : Release.extend extra ⟨input, now + lesser.limits.window⟩ =
        ⟨input, now + greater.limits.window⟩ := by
      rw [Release.extend, Nat.add_assoc, ← hextra, Nat.add_sub_of_le hwindow]
    have hboth : List.map (Release.extend extra) (lesser.releases.filter (·.input ≠ input) ++
        [⟨input, now + lesser.limits.window⟩]) <:+
          greater.releases.filter (·.input ≠ input) ++ [⟨input, now + greater.limits.window⟩] := by
      rw [List.map_append, List.map_singleton, hnew]
      exact List.suffix_append_self_iff.mpr hothers
    have hkept := Sequence.keepLast_suffix_keepLast hboth hroom
    rw [← Sequence.map_keepLast, ← hextra] at hkept
    rw [releases_remember, releases_remember]
    exact hkept

/-- **One operation keeps the lesser within the greater**, as long as the lesser's entries stand in
    the order of their expiry. -/
theorem FitsWithin.step (h : FitsWithin lesser greater)
    (hs : lesser.releases.Pairwise (·.expiry ≤ ·.expiry)) (op : TrackerOp) :
    FitsWithin (lesser.step op) (greater.step op) := by
  cases op with
  | press input now => exact ⟨h.limits, h.releases⟩
  | clear => exact ⟨h.limits, List.suffix_refl []⟩
  | prune now => exact h.prune hs now
  | release input now =>
    have hlogged : FitsWithin
        ({ lesser with held := lesser.held.erase input }.record ⟨input, false, now⟩)
        ({ greater with held := greater.held.erase input }.record ⟨input, false, now⟩) :=
      ⟨h.limits, h.releases⟩
    exact (hlogged.prune hs now).remember input now

/-- **A run keeps the lesser within the greater**, while time goes forward. -/
theorem fitsWithin_run {small large : Limits} (h : small ≤ large) {ops : List TrackerOp}
    {now : Instant} (hf : Forward ops now) :
    FitsWithin ((new small).run ops) ((new large).run ops) := by
  induction ops using List.reverseRecOn with
  | nil => exact ⟨h, List.suffix_refl []⟩
  | append_singleton ops op ih =>
    have hbefore := hf.of_append_left
    rw [run_append, run_append]
    exact (ih hbefore).step (pairwise_expiry_releases hbefore) op

/-! ## 5. What both see of one history -/

variable {past : History}

/-- The log of the lesser is the newest part of the log of the greater. -/
theorem FitsWithin.log_suffix (h : FitsWithin lesser greater) (hl : lesser.Follows past)
    (hg : greater.Follows past) : lesser.log <:+ greater.log := by
  rw [hl.log, hg.log]
  exact Sequence.keepLast_suffix_keepLast (List.suffix_refl past) h.limits.2.1

/-- A release that counts in the lesser counts in the greater. -/
theorem FitsWithin.releasedRecently (h : FitsWithin lesser greater) (hl : lesser.Follows past)
    (hg : greater.Follows past) {input : Input} {now : Instant}
    (hr : lesser.releasedRecently input now = true) :
    greater.releasedRecently input now = true := by
  obtain ⟨r, hmem, hinput, hnow⟩ := hl.releasedRecently_iff.mp hr
  exact hg.releasedRecently_iff.mpr
    ⟨_, h.releases.subset (List.mem_map_of_mem hmem), hinput, Nat.le_add_right_of_le hnow⟩

/-- A sequence that fires in the lesser fires in the greater. -/
theorem FitsWithin.fires_sequential (h : FitsWithin lesser greater) (hl : lesser.Follows past)
    (hg : greater.Follows past) {p : Pattern} {now : Instant}
    (hp : p.fires .sequential lesser now = true) : p.fires .sequential greater now = true := by
  obtain ⟨hlast, hseq, hearlier⟩ := Pattern.fires_sequential_iff.mp hp
  obtain ⟨hpos, heach⟩ := Matching.sequential_iff_completesEach.mp hseq
  have hlast' : greater.lastWasPress = true := by
    rw [hg.lastWasPress_eq, ← hl.lastWasPress_eq]
    exact hlast
  have heach' : History.CompletesEach greater.log p.chords := by
    obtain ⟨older, ho⟩ := h.log_suffix hl hg
    rw [← ho]
    exact heach.append
  refine Pattern.fires_sequential_iff.mpr
    ⟨hlast', Matching.sequential_iff_completesEach.mpr ⟨hpos, heach'⟩, fun input hi => ?_⟩
  rcases hearlier input hi with hheld | hrecent
  · exact Or.inl (hg.isHeld_iff.mpr (hl.isHeld_iff.mp hheld))
  · exact Or.inr (h.releasedRecently hl hg hrecent)

end Tracker

/-- **Raising limits loses no match.** Of two trackers fed the same run forward in time, every limit
    of the first at most the second's, the second fires each sequence that the first does; and both
    hold the same, match the same simultaneously and agree on whether a press came last. -/
theorem fires_of_limits_le {small large : Limits} (h : small ≤ large) {ops : List TrackerOp}
    {now : Instant} (hf : Forward ops now) (p : Pattern) :
    let lesser := (Tracker.new small).run ops
    let greater := (Tracker.new large).run ops
    (p.fires .sequential lesser now = true → p.fires .sequential greater now = true) ∧
      p.fires .simultaneous lesser now = p.fires .simultaneous greater now ∧
      lesser.held = greater.held ∧ lesser.lastWasPress = greater.lastWasPress := by
  intro lesser greater
  have hl : lesser.Follows (History.ofOps ops) := Tracker.follows_run small ops
  have hg : greater.Follows (History.ofOps ops) := Tracker.follows_run large ops
  have hheld : lesser.held = greater.held := hl.held.trans hg.held.symm
  refine ⟨(Tracker.fitsWithin_run h hf).fires_sequential hl hg, ?_, hheld, ?_⟩
  · rw [Pattern.fires, Pattern.fires, hheld]
  · rw [hl.lastWasPress_eq, hg.lastWasPress_eq]

/-- With the longer window `KeyB` has not expired when `KeyA` is released, and there is room for one
    release: it is `KeyB` that goes, and what fired in the shorter window fires. -/
theorem taps_fire_under_raised_limits :
    let ops : List TrackerOp :=
      [.press "KeyB" 0, .release "KeyB" 0, .press "KeyA" 700, .release "KeyA" 700, .prune 800,
        .press "KeyC" 900]
    let p := Pattern.ofLists [["KeyA"], ["KeyC"]]
    p.fires .sequential ((Tracker.new (.ofNumbers 500 3 1)).run ops) 1000 = true ∧
      p.fires .sequential ((Tracker.new (.ofNumbers 2000 10 1)).run ops) 1000 = true := by
  intro ops p
  have hle : Limits.ofNumbers 500 3 1 ≤ Limits.ofNumbers 2000 10 1 :=
    Limits.ofNumbers_le_ofNumbers (by decide) (by decide) (by decide)
  have hfires : p.fires .sequential ((Tracker.new (.ofNumbers 500 3 1)).run ops) 1000 = true := by
    decide
  exact ⟨hfires, (fires_of_limits_le hle (by decide) p).1 hfires⟩

end KeyBindings
