import KeyBindings.Tracker.Moment

/-!
# Matching: when a pattern is complete

* `simultaneous` -- the inputs stand in the held list as one block, in order;
* `sequential` -- the last moments complete the chords one by one. A chord must contain the fresh
  input of its moment and lie within the moment's group, and what the group has beyond the chord
  must have been down at the moment BEFORE: it was carried over, not pressed for this chord;
* `Pattern.fires` -- the decision against a tracker. A sequence completes on a press only, and the
  inputs of its earlier chords must still count: held, or released within the window.

Each Bool test stands beside what it says (`chordMatches_iff`, `fires_sequential_iff`).
-/

namespace KeyBindings

namespace Matching

/-! ## 1. Held together -/

/-- Whether some inputs, at least one, stand in the held list as one block. -/
def simultaneous (inputs held : List Input) : Bool :=
  !inputs.isEmpty && Sequence.hasRun inputs held

theorem simultaneous_iff {inputs held : List Input} :
    simultaneous inputs held = true ↔ inputs ≠ [] ∧ inputs <:+: held := by
  rw [simultaneous, Bool.and_eq_true, Sequence.hasRun_iff_infix]
  simp

/-! ## 2. One after another -/

/-- Whether a moment completes a chord, where `previous` is the group of the moment before it. -/
def chordMatches (chord : Chord) (moment : Moment) (previous : Option Chord) : Bool :=
  chord.contains moment.fresh && chord.isSubset moment.group &&
    moment.group.members.all fun input =>
      chord.contains input || previous.any (·.contains input)

/-- **A chord is completed by a fresh member, with all members down and nothing new beside
    them.** -/
theorem chordMatches_iff {chord : Chord} {moment : Moment} {previous : Option Chord} :
    chordMatches chord moment previous = true ↔
      moment.fresh ∈ chord.members ∧ chord.members ⊆ moment.group.members ∧
        ∀ input ∈ moment.group.members, input ∉ chord.members →
          ∃ before ∈ previous, input ∈ before.members := by
  simp only [chordMatches, Bool.and_eq_true, Chord.contains_iff, Chord.isSubset_iff,
    List.all_eq_true, Bool.or_eq_true, and_assoc, Option.any_eq_true, Option.mem_def]
  refine and_congr_right fun _ => and_congr_right fun _ => forall₂_congr fun input _ => ?_
  exact Decidable.or_iff_not_imp_left

/-- Whether moments complete chords place by place. -/
def chordsMatch (previous : Option Chord) : List Chord → List Moment → Bool
  | chord :: chords, moment :: moments =>
    chordMatches chord moment previous && chordsMatch (some moment.group) chords moments
  | _, _ => true

/-- Whether the last moments complete the chords of a pattern, one moment for each chord. -/
def sequential (p : Pattern) (moments : List Moment) : Bool :=
  let before := moments.take (moments.length - p.size)
  decide (0 < p.size) && decide (p.size ≤ moments.length) &&
    chordsMatch (before.getLast?.map (·.group)) p.chords (Sequence.keepLast p.size moments)

end Matching

/-! ## 3. Against a tracker -/

namespace Pattern

/-- The inputs of all chords but the last. -/
def earlierInputs (p : Pattern) : List Input := p.chords.dropLast.flatMap Chord.members

/-- Whether a pattern is complete in a tracker at an instant. -/
def fires (p : Pattern) (mode : Mode) (t : Tracker) (now : Instant) : Bool :=
  match mode with
  | .simultaneous => Matching.simultaneous p.flatten t.held.members
  | .sequential =>
    t.lastWasPress && Matching.sequential p t.moments &&
      p.earlierInputs.all fun input => t.isHeld input || t.releasedRecently input now

theorem fires_simultaneous_iff {p : Pattern} {t : Tracker} {now : Instant} :
    p.fires .simultaneous t now = true ↔ p.flatten ≠ [] ∧ p.flatten <:+: t.held.members :=
  Matching.simultaneous_iff

theorem fires_sequential_iff {p : Pattern} {t : Tracker} {now : Instant} :
    p.fires .sequential t now = true ↔
      t.lastWasPress = true ∧ Matching.sequential p t.moments = true ∧
        ∀ input ∈ p.earlierInputs,
          t.isHeld input = true ∨ t.releasedRecently input now = true := by
  simp only [fires, Bool.and_eq_true, List.all_eq_true, Bool.or_eq_true, and_assoc]

/-- A sequence never completes on a release. -/
theorem fires_sequential_release (p : Pattern) (t : Tracker) (input : Input) (now later : Instant) :
    p.fires .sequential (t.release input now) later = false := by
  simp [fires]

end Pattern

end KeyBindings
