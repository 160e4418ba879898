import KeyBindings.Proofs.Moments
import Mathlib.Data.List.Chain

/-!
# Sequential matching and equality

A sequence matches the last moments more loosely than it equals their groups: a group may have more
than its chord, as long as the surplus was down at the moment before. This file says what is left
when nothing is carried over -- then matching IS equality, chord by chord and up to the order inside
a chord.

* `chordMatches_of_same` -- a moment completes its own group, whatever came before;
* `same_of_chordMatches` -- and no other chord, if its group and the one before have nothing in
  common;
* `chordsMatch_of_same`, `same_of_chordsMatch` -- the same along the window, where each moment is
  the one before for the next. For the first of the window that is the moment in FRONT of it;
* **`sequential_iff_same_last_groups`**: the two directions for a whole pattern.

The moments are any list here, of a tracker or not; all that is asked is that each fresh input
belongs to its group.
-/

namespace KeyBindings

variable {chord : Chord} {chords : List Chord} {m : Moment} {moments : List Moment}

/-! ## 1. One moment -/

namespace Moment

/-- The groups of two moments have nothing in common. -/
def Apart (before after : Moment) : Prop := List.Disjoint before.group.members after.group.members

instance (before after : Moment) : Decidable (Apart before after) :=
  inferInstanceAs (Decidable (∀ input, input ∈ before.group.members → input ∉ after.group.members))

end Moment

namespace Matching

/-- A moment completes its own group. -/
theorem chordMatches_of_same (h : chord.same m.group = true)
    (hfresh : m.fresh ∈ m.group.members) (previous : Option Chord) :
    chordMatches chord m previous = true := by
  have hmem := Chord.same_iff.mp h
  refine chordMatches_iff.mpr ⟨(hmem _).mpr hfresh, fun input hi => (hmem input).mp hi, ?_⟩
  intro input hi hsurplus
  exact absurd ((hmem input).mpr hi) hsurplus

/-- With nothing carried over, a moment completes no chord but its own group. -/
theorem same_of_chordMatches {before? : Option Moment}
    (h : chordMatches chord m (before?.map (·.group)) = true)
    (hapart : ∀ before ∈ before?, before.Apart m) : chord.same m.group = true := by
  obtain ⟨-, hdown, hsurplus⟩ := chordMatches_iff.mp h
  refine Chord.same_iff.mpr fun input => ⟨fun hi => hdown hi, fun hi => ?_⟩
  refine Decidable.byContradiction fun hnot => ?_
  obtain ⟨group, hgroup, hbefore⟩ := hsurplus input hi hnot
  obtain ⟨before, hb, rfl⟩ := Option.map_eq_some_iff.mp hgroup
  exact hapart before hb hbefore hi

/-! ## 2. Moments in a row -/

theorem chordsMatch_of_same (h : Pattern.sameChords chords (moments.map (·.group)) = true)
    (hfresh : ∀ m ∈ moments, m.fresh ∈ m.group.members) (previous : Option Chord) :
    chordsMatch previous chords moments = true := by
  induction moments generalizing previous chords with
  | nil => cases chords <;> rfl
  | cons m moments ih =>
    cases chords with
    | nil => rfl
    | cons chord chords =>
      rw [List.map_cons, Pattern.sameChords, Bool.and_eq_true] at h
      rw [chordsMatch, Bool.and_eq_true]
      exact ⟨chordMatches_of_same h.1 (hfresh m List.mem_cons_self) previous,
        ih h.2 (fun later hl => hfresh later (List.mem_cons_of_mem m hl)) _⟩

/-- `before?` is the moment in front of the first one, if there is one. -/
theorem same_of_chordsMatch {before? : Option Moment}
    (h : chordsMatch (before?.map (·.group)) chords moments = true)
    (hlen : chords.length = moments.length)
    (hapart : (before?.toList ++ moments).IsChain Moment.Apart) :
    Pattern.sameChords chords (moments.map (·.group)) = true := by
  induction moments generalizing before? chords with
  | nil =>
    rw [List.eq_nil_of_length_eq_zero hlen]
    rfl
  | cons m moments ih =>
    cases chords with
    | nil => exact absurd hlen nofun
    | cons chord chords =>
      rw [chordsMatch, Bool.and_eq_true] at h
      rw [List.map_cons, Pattern.sameChords, Bool.and_eq_true]
      have hlater : chordsMatch ((some m).map (·.group)) chords moments = true := h.2
      refine ⟨same_of_chordMatches h.1 fun before hb => ?_,
        ih hlater (Nat.succ.inj hlen) hapart.right_of_append⟩
      obtain rfl : before? = some before := hb
      exact (List.isChain_cons_cons.mp hapart).1

end Matching

/-! ## 3. The last moments -/

/-- One more of the newest items is the item in front of them, if there is one. -/
theorem Sequence.keepLast_succ {α : Type} (n : Nat) (items : List α) :
    keepLast (n + 1) items =
      (items.take (items.length - n)).getLast?.toList ++ keepLast n items := by
  rcases Nat.lt_or_ge n items.length with h | h
  · have hpred : items.length - n = items.length - (n + 1) + 1 := by omega
    have hlt : items.length - (n + 1) < items.length := by omega
    rw [keepLast, List.drop_eq_getElem_cons hlt, keepLast, hpred, List.take_add_one,
      List.getElem?_eq_getElem hlt, Option.toList_some, List.getLast?_concat]
    rfl
  · rw [keepLast_of_length_le h, keepLast_of_length_le (Nat.le_succ_of_le h),
      Nat.sub_eq_zero_of_le h]
    rfl

/-- **Matching is equality where nothing is carried over.** A pattern that equals the groups of the
    last moments, one for each chord, matches; and if no group among these shares an input with the
    group right before it, the one in front of the last moments included, no other pattern does. -/
theorem sequential_iff_same_last_groups {p : Pattern} (hsize : 0 < p.size)
    (hlen : p.size ≤ moments.length) (hfresh : ∀ m ∈ moments, m.fresh ∈ m.group.members) :
    let last := Pattern.ofChords ((Sequence.keepLast p.size moments).map (·.group))
    (p.same last = true → Matching.sequential p moments = true) ∧
      ((Sequence.keepLast (p.size + 1) moments).IsChain Moment.Apart →
        (Matching.sequential p moments = true ↔ p.same last = true)) := by
  intro last
  have hwindow : ∀ m ∈ Sequence.keepLast p.size moments, m.fresh ∈ m.group.members :=
    fun m hm => hfresh m ((Sequence.keepLast_suffix _ _).subset hm)
  have hlast : last.chords = (Sequence.keepLast p.size moments).map (·.group) := by
    refine Pattern.chords_ofChords_of_forall fun c hc => ?_
    obtain ⟨m, hm, rfl⟩ := List.mem_map.mp hc
    exact List.ne_nil_of_mem (hwindow m hm)
  have hsequential : Matching.sequential p moments = Matching.chordsMatch
      ((moments.take (moments.length - p.size)).getLast?.map (·.group)) p.chords
      (Sequence.keepLast p.size moments) := by
    rw [Matching.sequential, decide_eq_true hsize, decide_eq_true hlen]
    rfl
  have hof : p.same last = true → Matching.sequential p moments = true := by
    rw [Pattern.same, hlast, hsequential]
    exact fun h => Matching.chordsMatch_of_same h hwindow _
  refine ⟨hof, fun hapart => ⟨fun hmatch => ?_, hof⟩⟩
  have hone : p.chords.length = (Sequence.keepLast p.size moments).length := by
    rw [Sequence.length_keepLast]
    exact (Nat.min_eq_left hlen).symm
  rw [Sequence.keepLast_succ] at hapart
  rw [hsequential] at hmatch
  rw [Pattern.same, hlast]
  exact Matching.same_of_chordsMatch hmatch hone hapart

/-- The groups of the last two moments in another order, and a moment in front of them. -/
theorem chord_in_other_order_matches :
    let moments : List Moment := [⟨.ofList ["KeyQ"], "KeyQ"⟩, ⟨.ofList ["KeyD", "KeyC"], "KeyC"⟩,
      ⟨.ofList ["ShiftLeft"], "ShiftLeft"⟩]
    let p := Pattern.ofLists [["KeyC", "KeyD"], ["ShiftLeft"]]
    0 < p.size ∧ p.size ≤ moments.length ∧ (∀ m ∈ moments, m.fresh ∈ m.group.members) ∧
      (Sequence.keepLast (p.size + 1) moments).IsChain Moment.Apart ∧
      p.same (.ofChords ((Sequence.keepLast p.size moments).map (·.group))) = true ∧
      Matching.sequential p moments = true := by
  intro moments p
  have hfresh : ∀ m ∈ moments, m.fresh ∈ m.group.members := by decide
  have hapart : (Sequence.keepLast (p.size + 1) moments).IsChain Moment.Apart := by decide
  have hsame : p.same (.ofChords ((Sequence.keepLast p.size moments).map (·.group))) = true := by
    decide
  have h := sequential_iff_same_last_groups (p := p) (by decide) (by decide) hfresh
  exact ⟨by decide, by decide, hfresh, hapart, hsame, (h.2 hapart).mpr hsame⟩

/-- Where `ShiftLeft` is carried over, a pattern matches that does not equal the last group. -/
example :
    let moments : List Moment :=
      [⟨.ofList ["ShiftLeft"], "ShiftLeft"⟩, ⟨.ofList ["ShiftLeft", "KeyE"], "KeyE"⟩]
    let p := Pattern.ofLists [["KeyE"]]
    Matching.sequential p moments = true ∧
      p.same (.ofChords ((Sequence.keepLast p.size moments).map (·.group))) = false := by decide

end KeyBindings
