import KeyBindings.Proofs.Moments
import KeyBindings.Proofs.Releases

/-!
# Sequential matching against the complete history

A tracker decides from what it has kept: a trimmed log, the held chord, a capped release history.
`Pattern.CompleteIn` says the same of the COMPLETE history, where nothing was dropped.

* `completeIn_of_fires` -- whatever was dropped, a pattern that fires is complete in the history;
* `fires_of_completeIn` -- a pattern that is complete in the history of the NEWEST part of a run
  fires, if that part fits the limits and time goes forward in it. What went before may be anything;
* **`fires_sequential_history`**: both, for a whole run.

The second needs its hypotheses: a press that has left the log, or a release that has left the
release history, cannot be seen any more.
-/

namespace KeyBindings

namespace Pattern

/-- A pattern is complete in a history at an instant: a press has just ended it, the last presses
    complete its chords, and each input of its earlier chords is down or was released within the
    window. -/
structure CompleteIn (p : Pattern) (past : History) (window : Nat) (now : Instant) : Prop where
  endsInPress : past.endsInPress = true
  size_pos : 0 < p.size
  completesEach : past.CompletesEach p.chords
  counts : ∀ input ∈ p.earlierInputs, past.isDown input = true ∨
    ∃ entry ∈ past, entry.input = input ∧ entry.pressed = false ∧ now ≤ entry.time + window

theorem completeIn_iff {p : Pattern} {past : History} {window : Nat} {now : Instant} :
    p.CompleteIn past window now ↔
      past.endsInPress = true ∧ 0 < p.size ∧ past.CompletesEach p.chords ∧
        ∀ input ∈ p.earlierInputs, past.isDown input = true ∨
          ∃ entry ∈ past, entry.input = input ∧ entry.pressed = false ∧
            now ≤ entry.time + window :=
  ⟨fun h => ⟨h.endsInPress, h.size_pos, h.completesEach, h.counts⟩,
    fun ⟨hlast, hpos, heach, hcounts⟩ => ⟨hlast, hpos, heach, hcounts⟩⟩

instance (p : Pattern) (past : History) (window : Nat) (now : Instant) :
    Decidable (p.CompleteIn past window now) :=
  decidable_of_iff' _ completeIn_iff

end Pattern

theorem History.endsInPress_append {earlier past : History} (h : past.endsInPress = true) :
    endsInPress (earlier ++ past) = true := by
  rw [endsInPress, Option.any_eq_true] at h
  obtain ⟨entry, he, hp⟩ := h
  rw [endsInPress, List.getLast?_append, he, Option.some_or]
  exact hp

namespace Tracker.Follows

variable {t : Tracker} {past : History}

theorem lastWasPress_eq (h : t.Follows past) : t.lastWasPress = past.endsInPress := by
  rw [lastWasPress, h.getLast?_log, History.endsInPress]

/-- The newest part of the history is in the log, if it fits. -/
theorem suffix_log (h : t.Follows past) {newest : History} (hs : newest <:+ past)
    (hl : newest.length ≤ t.limits.log) : newest <:+ t.log := by
  obtain ⟨earlier, rfl⟩ := hs
  rw [h.log, Sequence.keepLast_append_of_length_le _ hl]
  exact List.suffix_append _ _

/-- A release that counts was a release of the history. -/
theorem exists_release (h : t.Follows past) {input : Input} {now : Instant}
    (hr : t.releasedRecently input now = true) :
    ∃ entry ∈ past, entry.input = input ∧ entry.pressed = false ∧
      now ≤ entry.time + t.limits.window := by
  obtain ⟨r, hmem, rfl, hn⟩ := h.releasedRecently_iff.mp hr
  obtain ⟨time, ht, he⟩ := h.releases r hmem
  obtain ⟨entry, hm, hx, hp, rfl⟩ := History.exists_of_releasedAt? ht
  exact ⟨entry, hm, hx, hp, he ▸ hn⟩

end Tracker.Follows

/-! ## Both directions -/

/-- **A pattern that fires is complete in the history**, at any instants and with any limits. -/
theorem completeIn_of_fires {limits : Limits} {ops : List TrackerOp} {p : Pattern} {now : Instant}
    (h : p.fires .sequential ((Tracker.new limits).run ops) now = true) :
    p.CompleteIn (History.ofOps ops) limits.window now := by
  have hfollows := Tracker.follows_run limits ops
  obtain ⟨hlast, hseq, hearlier⟩ := Pattern.fires_sequential_iff.mp h
  obtain ⟨hpos, hlog⟩ := Matching.sequential_iff_completesEach.mp hseq
  refine ⟨hfollows.lastWasPress_eq ▸ hlast, hpos, ?_, fun input hi => ?_⟩
  · obtain ⟨earlier, he⟩ := hfollows.log_suffix
    rw [← he]
    exact hlog.append
  · rcases hearlier input hi with hheld | hrec
    · exact Or.inl (hfollows.isHeld_iff.mp hheld)
    · have hex := hfollows.exists_release hrec
      rw [Tracker.limits_run] at hex
      exact Or.inr hex

/-- What the newest part of a run completes fires, if that part fits the log and the inputs of the
    earlier chords still count. -/
theorem fires_of_completesEach {limits : Limits} {earlier ops : List TrackerOp} {p : Pattern}
    {now : Instant} (hlog : (History.ofOps ops).length ≤ limits.log)
    (hlast : (History.ofOps ops).endsInPress = true) (hsize : 0 < p.size)
    (heach : (History.ofOps ops).CompletesEach p.chords)
    (hcounts : ∀ input ∈ p.earlierInputs,
      ((Tracker.new limits).run (earlier ++ ops)).isHeld input = true ∨
        ((Tracker.new limits).run (earlier ++ ops)).releasedRecently input now = true) :
    p.fires .sequential ((Tracker.new limits).run (earlier ++ ops)) now = true := by
  have hfollows := Tracker.follows_run limits (earlier ++ ops)
  have hsuffix := History.ofOps_suffix_append earlier ops
  have hinlog := hfollows.suffix_log hsuffix (by rw [Tracker.limits_run]; exact hlog)
  rw [Pattern.fires_sequential_iff]
  refine ⟨?_, Matching.sequential_iff_completesEach.mpr ⟨hsize, ?_⟩, hcounts⟩
  · obtain ⟨older, ho⟩ := hsuffix
    rw [hfollows.lastWasPress_eq, ← ho]
    exact History.endsInPress_append hlast
  · obtain ⟨older, ho⟩ := hinlog
    rw [← ho]
    exact heach.append

/-- **A pattern that is complete in the newest part of a run fires**, if that part fits the limits
    and time goes forward in it. -/
theorem fires_of_completeIn {limits : Limits} (earlier : List TrackerOp) {ops : List TrackerOp}
    {p : Pattern} {now : Instant} (hf : Forward ops now)
    (hlog : (History.ofOps ops).length ≤ limits.log)
    (hroom : (History.ofOps ops).released.length ≤ limits.releases)
    (h : p.CompleteIn (History.ofOps ops) limits.window now) :
    p.fires .sequential ((Tracker.new limits).run (earlier ++ ops)) now = true := by
  refine fires_of_completesEach hlog h.endsInPress h.size_pos h.completesEach fun input hi => ?_
  rcases h.counts input hi with hdown | ⟨entry, he, rfl, hp, hn⟩
  · obtain ⟨older, ho⟩ := History.ofOps_suffix_append earlier ops
    rw [(Tracker.follows_run limits (earlier ++ ops)).isHeld_iff, ← ho]
    exact Or.inl (History.isDown_append hdown)
  · exact Or.inr (Tracker.releasedRecently_of_room earlier hf hroom he hp hn)

/-- **Sequential matching is matching against the complete history.** What fires is complete in the
    history of the run, with a press for each chord; and where time went forward, the history fits
    the log and the released inputs fit the release history, what is complete fires. -/
theorem fires_sequential_history (limits : Limits) (ops : List TrackerOp) (p : Pattern)
    (now : Instant) :
    (p.fires .sequential ((Tracker.new limits).run ops) now = true →
      p.CompleteIn (History.ofOps ops) limits.window now ∧
        p.size ≤ (History.ofOps ops).countP (·.pressed)) ∧
    (Forward ops now → (History.ofOps ops).length ≤ limits.log →
      (History.ofOps ops).released.length ≤ limits.releases →
        p.CompleteIn (History.ofOps ops) limits.window now →
          p.fires .sequential ((Tracker.new limits).run ops) now = true) := by
  constructor
  · intro h
    have hc := completeIn_of_fires h
    exact ⟨hc, History.length_atPresses _ ▸ hc.completesEach.length_le⟩
  · intro hf hlog hroom hc
    exact fires_of_completeIn [] hf hlog hroom hc

/-- A tap, a prune and a second press, read both ways. -/
theorem tapped_then_pressed_history :
    let limits := Limits.ofNumbers 500 10 5
    let ops : List TrackerOp :=
      [.press "KeyA" 0, .release "KeyA" 10, .prune 20, .press "KeyB" 100]
    let p := Pattern.ofLists [["KeyA"], ["KeyB"]]
    p.CompleteIn (History.ofOps ops) limits.window 100 ∧
      p.fires .sequential ((Tracker.new limits).run ops) 100 = true := by
  intro limits ops p
  have hboth := fires_sequential_history limits ops p 100
  constructor
  · exact (hboth.1 (by decide)).1
  · exact hboth.2 (by decide) (by decide) (by decide) (by decide)

end KeyBindings
