import KeyBindings.Proofs.Moments
import KeyBindings.Proofs.Standing

/-!
# When the holds of a run began

What a tracker holds and what its log keeps are functions of the history of its run, and of nothing
else: not of the window, not of the release history, not of where anything was pruned.

* `History.BeganAt` -- the place in a history of the press that began the hold of an input: the first
  press after the latest release of the input;
* `BeganAt.concat`, `beganAt_concat` -- one more transition moves no hold that it does not end;
* `exists_places` -- the inputs that are down stand in the order of these places;
* **`held_and_log_of_history`**: so held is the inputs whose latest transition is a press, in that
  order, and the log is the newest part of the history, cut ONCE at the end.
-/

namespace KeyBindings

namespace Sequence

variable {α β : Type} {R : α → β → Prop}

/-- Items left out on one side of a correspondence can be left out on the other. -/
theorem exists_sublist_of_forall₂ {as as' : List α} {bs : List β} (hs : as'.Sublist as)
    (h : List.Forall₂ R as bs) : ∃ bs' : List β, bs'.Sublist bs ∧ List.Forall₂ R as' bs' := by
  induction hs generalizing bs with
  | slnil => exact ⟨bs, .refl bs, h⟩
  | cons a _ ih =>
    obtain ⟨b, bs, -, hrest, rfl⟩ := List.forall₂_cons_left_iff.mp h
    obtain ⟨bs', hsub, hall⟩ := ih hrest
    exact ⟨bs', hsub.cons b, hall⟩
  | cons_cons a _ ih =>
    obtain ⟨b, bs, hab, hrest, rfl⟩ := List.forall₂_cons_left_iff.mp h
    obtain ⟨bs', hsub, hall⟩ := ih hrest
    exact ⟨b :: bs', hsub.cons_cons b, .cons hab hall⟩

end Sequence

namespace History

variable {past : History} {input : Input} {place : Nat}

/-! ## 1. Where a hold began -/

/-- The hold of an input began with the press at a place: the input was up before it, and it has not
    been released after it. So it is the first press after the input's latest release, and later
    presses of the held input do not count. -/
structure BeganAt (past : History) (input : Input) (place : Nat) : Prop where
  pressed : ∃ time, past[place]? = some ⟨input, true, time⟩
  first : isDown (past.take place) input = false
  lasting : Spare (past.drop place) input

theorem BeganAt.lt_length (h : past.BeganAt input place) : place < past.length := by
  obtain ⟨time, hplace⟩ := h.pressed
  exact (List.getElem?_eq_some_iff.mp hplace).1

/-- **A transition that does not release an input leaves its hold where it began.** -/
theorem BeganAt.concat (h : past.BeganAt input place) {entry : Transition}
    (hspare : entry.input = input → entry.pressed = true) :
    BeganAt (past ++ [entry]) input place where
  pressed := by
    rw [List.getElem?_append_left h.lt_length]
    exact h.pressed
  first := by
    rw [List.take_append_of_le_length (Nat.le_of_lt h.lt_length)]
    exact h.first
  lasting := by
    rw [List.drop_append_of_le_length (Nat.le_of_lt h.lt_length), spare_concat_iff]
    exact ⟨h.lasting, hspare⟩

/-- A press of an input that is up begins its hold. -/
theorem beganAt_concat {entry : Transition} (hp : entry.pressed = true)
    (hup : past.isDown entry.input = false) :
    BeganAt (past ++ [entry]) entry.input past.length where
  pressed := by
    refine ⟨entry.time, ?_⟩
    rw [List.getElem?_concat_length, ← hp]
  first := by
    rw [List.take_left]
    exact hup
  lasting := by
    rw [List.drop_left, Spare, List.forall_mem_singleton]
    exact fun _ => hp

/-! ## 2. The order of the holds -/

/-- **What is down stands in the order in which the holds began.** -/
theorem exists_places (past : History) :
    ∃ places : List Nat, places.Pairwise (· < ·) ∧
      List.Forall₂ past.BeganAt past.down.members places := by
  induction past using List.reverseRecOn with
  | nil => exact ⟨[], .nil, .nil⟩
  | append_singleton past entry ih =>
    obtain ⟨places, hrising, hbegan⟩ := ih
    rw [down_concat, follow]
    cases hp : entry.pressed with
    | true =>
      have hstay : List.Forall₂ (BeganAt (past ++ [entry])) (down past).members places :=
        hbegan.imp fun _ _ h => h.concat fun _ => hp
      rw [if_pos rfl, Chord.members_insert]
      split
      · exact ⟨places, hrising, hstay⟩
      · next hup =>
        rw [mem_down_iff, Bool.not_eq_true] at hup
        refine ⟨places ++ [past.length], ?_, List.rel_append hstay (.cons ?_ .nil)⟩
        · refine List.pairwise_append.mpr ⟨hrising, List.pairwise_singleton _ _, ?_⟩
          intro place hplace last hlast
          obtain ⟨input, -, h⟩ := Sequence.exists_of_forall₂ hbegan.flip hplace
          rw [List.mem_singleton.mp hlast]
          exact h.lt_length
        · exact beganAt_concat hp hup
    | false =>
      -- the released input and its place go, all others keep theirs
      obtain ⟨places', hsub, hleft⟩ :=
        Sequence.exists_sublist_of_forall₂ (down past).members.erase_sublist hbegan
      rw [if_neg Bool.false_ne_true, Chord.members_erase]
      refine ⟨places', hrising.sublist hsub, ?_⟩
      have hother : ∀ input ∈ (down past).members.erase entry.input, input ≠ entry.input :=
        fun input hi => ((down past).nodup.mem_erase_iff.mp hi).1
      have hboth := (List.forall₂_and_left _ _).mpr ⟨hother, hleft⟩
      exact hboth.imp fun input place h => h.2.concat fun e => absurd e.symm h.1

end History

/-! ## 3. Held and log -/

/-- **Held and log are functions of the history.** After every run, at any instants and with any
    limits, the held inputs are those whose latest transition since the last clear is a press, each
    once and in the order of the presses that began their holds; the log is the newest transitions
    since then, as many as it keeps and never more. Neither depends on the window or on the room for
    releases. -/
theorem held_and_log_of_history (window log releases : Nat) (ops : List TrackerOp) :
    let t := (Tracker.new (.ofNumbers window log releases)).run ops
    let past := History.ofOps ops
    (∀ input, input ∈ t.held.members ↔ past.isDown input = true) ∧
      t.held.members.Nodup ∧
      (∃ places : List Nat, places.Pairwise (· < ·) ∧
        List.Forall₂ past.BeganAt t.held.members places) ∧
      t.log = Sequence.keepLast (max 1 log) past ∧
      t.log.length ≤ max 1 log ∧
      ∀ window' releases' : Nat,
        let u := (Tracker.new (.ofNumbers window' log releases')).run ops
        u.held = t.held ∧ u.log = t.log := by
  intro t past
  have hfollows : ∀ window releases : Nat,
      ((Tracker.new (.ofNumbers window log releases)).run ops).held = past.down ∧
        ((Tracker.new (.ofNumbers window log releases)).run ops).log =
          Sequence.keepLast (max 1 log) past := by
    intro window releases
    have h := Tracker.follows_run (.ofNumbers window log releases) ops
    have hlog := h.log
    rw [Tracker.limits_run] at hlog
    exact ⟨h.held, hlog⟩
  obtain ⟨hheld, hlog⟩ := hfollows window releases
  refine ⟨fun input => ?_, t.held.nodup, ?_, hlog, ?_, fun window' releases' => ?_⟩
  · rw [hheld]
    exact History.mem_down_iff
  · rw [hheld]
    exact past.exists_places
  · rw [hlog, Sequence.length_keepLast]
    exact Nat.min_le_left _ _
  · obtain ⟨hheld', hlog'⟩ := hfollows window' releases'
    exact ⟨hheld'.trans hheld.symm, hlog'.trans hlog.symm⟩

/-- Pressed again while it is held, `KeyA` stays in front; released and pressed, it goes behind. -/
example : ((Tracker.new (.ofNumbers 0 2 0)).run [.press "KeyA" 5, .press "KeyB" 4, .press "KeyA" 3,
      .prune 9, .press "KeyC" 2]).held.members = ["KeyA", "KeyB", "KeyC"] ∧
    ((Tracker.new (.ofNumbers 0 2 0)).run [.press "KeyA" 5, .press "KeyB" 4, .release "KeyA" 3,
      .press "KeyA" 2]).held.members = ["KeyB", "KeyA"] := by decide

end KeyBindings
