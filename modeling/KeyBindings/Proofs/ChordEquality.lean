import KeyBindings.Matching
import KeyBindings.Proofs.Rendering
import KeyBindings.Tracker.Run
import Mathlib.Data.List.Forall2
import Mathlib.Logic.Relation

/-!
# Equality up to order

Chords are compared by their sizes and containment ONE way, patterns chord by chord. This file says
that nothing else is decided by that than which inputs are members, and that matching in sequence
cannot tell equal patterns apart.

* `ChordCall` -- how chords are made: from nothing, by inserting, from a list; `built` is the chord
  after some calls and `putIn` what went into it;
* `Chord.same_iff_contains` -- two chords are the same exactly when they answer alike to every
  question for a member, so `same` is the equality of these answers (`Pattern.same_iff_contains`);
* `Matching.chordMatches_congr`, `Matching.sequential_congr`, `Pattern.fires_sequential_congr` -- a
  sequence asks its chords nothing else;
* **`equal_patterns_match_alike`**: all of it together.

Held together, the ORDER of the inputs counts: equal patterns may differ there.
-/

namespace KeyBindings

/-! ## 1. Chords as they are made -/

/-- A call that makes a chord, or puts something into the one there is. -/
inductive ChordCall where
  | new
  | insert (input : Input)
  | ofList (inputs : List Input)

namespace ChordCall

/-- The chord after one more call. -/
def carryOut (c : Chord) : ChordCall → Chord
  | .new => .empty
  | .insert input => c.insert input
  | .ofList inputs => .ofList inputs

/-- The chord after some calls. -/
def built (calls : List ChordCall) : Chord := calls.foldl carryOut .empty

/-- What has been put in after one more call, in order and with repetitions. -/
def extend (inputs : List Input) : ChordCall → List Input
  | .new => []
  | .insert input => inputs ++ [input]
  | .ofList others => others

/-- What some calls put into their chord. -/
def putIn (calls : List ChordCall) : List Input := calls.foldl extend []

theorem built_concat (calls : List ChordCall) (call : ChordCall) :
    built (calls ++ [call]) = carryOut (built calls) call := List.foldl_append

theorem putIn_concat (calls : List ChordCall) (call : ChordCall) :
    putIn (calls ++ [call]) = extend (putIn calls) call := List.foldl_append

/-- **However it is made, a chord is that of the list of what was put in.** -/
theorem built_eq_ofList (calls : List ChordCall) : built calls = .ofList (putIn calls) := by
  induction calls using List.reverseRecOn with
  | nil => rfl
  | append_singleton calls call ih =>
    rw [built_concat, putIn_concat, ih]
    cases call with
    | new => rfl
    | insert input =>
      show _ = List.foldl Chord.insert .empty (putIn calls ++ [input])
      rw [List.foldl_append]
      rfl
    | ofList inputs => rfl

theorem mem_members_built {calls : List ChordCall} {input : Input} :
    input ∈ (built calls).members ↔ input ∈ putIn calls := by
  rw [built_eq_ofList, Chord.mem_members_ofList]

/-- Every chord is made in some way. -/
theorem exists_built (c : Chord) : ∃ calls, built calls = c :=
  ⟨[.ofList c.members], c.ofList_members⟩

end ChordCall

/-! ## 2. Equal chords -/

namespace Chord

variable {c d : Chord}

/-- **Two chords are the same exactly when they answer alike to every question for a member.** -/
theorem same_iff_contains : c.same d = true ↔ c.contains = d.contains := by
  rw [same_iff, funext_iff]
  refine forall_congr' fun input => ?_
  rw [Bool.eq_iff_iff, contains_iff, contains_iff]

theorem same_iff_isSubset : c.same d = true ↔ c.isSubset d = true ∧ d.isSubset c = true := by
  rw [same_iff, isSubset_iff, isSubset_iff]
  constructor
  · intro h
    exact ⟨fun x hx => (h x).mp hx, fun x hx => (h x).mpr hx⟩
  · intro h x
    exact ⟨fun hx => h.1 hx, fun hx => h.2 hx⟩

theorem equivalence_same : Equivalence fun c d : Chord => c.same d = true := by
  simp only [same_iff_contains]
  exact eq_equivalence.comap contains

/-- What is asked of all members is asked of the members of an equal chord. -/
theorem all_members_congr (h : c.same d = true) (f : Input → Bool) :
    c.members.all f = d.members.all f := by
  have hmem := same_iff.mp h
  rw [Bool.eq_iff_iff, List.all_eq_true, List.all_eq_true]
  exact forall_congr' fun input => imp_congr_left (hmem input)

theorem isEmpty_congr (h : c.same d = true) : c.isEmpty = d.isEmpty := by
  have hmem := same_iff.mp h
  rw [Bool.eq_iff_iff, isEmpty_iff, isEmpty_iff, List.eq_nil_iff_forall_not_mem,
    List.eq_nil_iff_forall_not_mem]
  exact forall_congr' fun input => not_congr (hmem input)

end Chord

/-! ## 3. Equal patterns -/

namespace Pattern

variable {cs ds : List Chord} {p q : Pattern}

theorem sameChords_iff_forall₂ :
    sameChords cs ds = true ↔ List.Forall₂ (fun c d => c.same d = true) cs ds := by
  induction cs generalizing ds with
  | nil => cases ds <;> simp [sameChords]
  | cons c cs ih =>
    cases ds with
    | nil => simp [sameChords]
    | cons d ds => rw [sameChords, Bool.and_eq_true, ih, List.forall₂_cons]

/-- Two patterns are the same exactly when their chords answer alike, place by place. -/
theorem same_iff_contains :
    p.same q = true ↔ p.chords.map Chord.contains = q.chords.map Chord.contains := by
  rw [same, sameChords_iff_forall₂, ← List.forall₂_eq_eq_eq, List.forall₂_map_left_iff,
    List.forall₂_map_right_iff]
  simp only [Chord.same_iff_contains]

theorem equivalence_same : Equivalence fun p q : Pattern => p.same q = true := by
  simp only [same_iff_contains]
  exact eq_equivalence.comap fun p : Pattern => p.chords.map Chord.contains

/-- Equal chords are dropped together. -/
theorem same_ofChords (h : sameChords cs ds = true) : (ofChords cs).same (ofChords ds) = true := by
  rw [sameChords_iff_forall₂] at h
  rw [same, sameChords_iff_forall₂]
  refine List.rel_filter (fun c d hcd => ?_) h
  show (!c.isEmpty) = true ↔ (!d.isEmpty) = true
  rw [Chord.isEmpty_congr hcd]

theorem size_congr (h : p.same q = true) : p.size = q.size := (same_iff.mp h).1

/-- What is asked of all inputs of some chords is asked of those of equal chords. -/
theorem all_flatMap_members_congr (h : sameChords cs ds = true) (f : Input → Bool) :
    (cs.flatMap Chord.members).all f = (ds.flatMap Chord.members).all f := by
  rw [sameChords_iff_forall₂] at h
  rw [List.all_flatMap, List.all_flatMap]
  induction h with
  | nil => rfl
  | cons hcd _ ih => rw [List.all_cons, List.all_cons, Chord.all_members_congr hcd, ih]

theorem sameChords_dropLast (h : sameChords cs ds = true) :
    sameChords cs.dropLast ds.dropLast = true := by
  rw [sameChords_iff_forall₂] at h ⊢
  rw [List.dropLast_eq_take, List.dropLast_eq_take, h.length_eq]
  exact List.forall₂_take _ h

end Pattern

/-! ## 4. Matching in sequence -/

namespace Matching

variable {chord other : Chord} {chords others : List Chord}

/-- **A moment completes equal chords alike.** -/
theorem chordMatches_congr (h : chord.same other = true) (m : Moment) (previous : Option Chord) :
    chordMatches chord m previous = chordMatches other m previous := by
  have hsubset : chord.isSubset m.group = other.isSubset m.group := Chord.all_members_congr h _
  rw [chordMatches, chordMatches, hsubset, Chord.same_iff_contains.mp h]

/-- Along the moments each group is the one before for the next chord, on both sides. -/
theorem chordsMatch_congr (h : Pattern.sameChords chords others = true) (moments : List Moment)
    (previous : Option Chord) :
    chordsMatch previous chords moments = chordsMatch previous others moments := by
  rw [Pattern.sameChords_iff_forall₂] at h
  induction h generalizing moments previous with
  | nil => rfl
  | cons hchord _ ih =>
    cases moments with
    | nil => rfl
    | cons m moments => rw [chordsMatch, chordsMatch, chordMatches_congr hchord, ih]

theorem sequential_congr {p q : Pattern} (h : p.same q = true) (moments : List Moment) :
    sequential p moments = sequential q moments := by
  rw [sequential, sequential, Pattern.size_congr h, chordsMatch_congr h]

end Matching

/-- **A sequence fires as an equal one**, in any tracker at any instant. -/
theorem Pattern.fires_sequential_congr {p q : Pattern} (h : p.same q = true) (t : Tracker)
    (now : Instant) : p.fires .sequential t now = q.fires .sequential t now := by
  rw [fires, fires, Matching.sequential_congr h, earlierInputs, earlierInputs,
    all_flatMap_members_congr (sameChords_dropLast h)]

/-! ## 5. Equality and what respects it -/

/-- **Equality is equality of members, and sequences respect it.** However two chords are made, they
    are the same exactly when they have the same members, when each contains the other, and when the
    same inputs were put in, in whatever order and however often; every chord is made in some way.
    So equality is an equivalence of chords and of patterns, and patterns of chords into which the
    same inputs were put, place by place, are the same. Equal patterns match alike in sequence, in
    every tracker and at every instant. -/
theorem equal_patterns_match_alike :
    (∀ calls others : List ChordCall,
      let c := ChordCall.built calls
      let d := ChordCall.built others
      (c.same d = true ↔ ∀ x, x ∈ c.members ↔ x ∈ d.members) ∧
        (c.same d = true ↔ c.isSubset d = true ∧ d.isSubset c = true) ∧
        (c.same d = true ↔ ∀ x, x ∈ ChordCall.putIn calls ↔ x ∈ ChordCall.putIn others)) ∧
      (∀ c, ∃ calls, ChordCall.built calls = c) ∧
      (Equivalence fun c d : Chord => c.same d = true) ∧
      (Equivalence fun p q : Pattern => p.same q = true) ∧
      (∀ made others : List (List ChordCall),
        List.Forall₂ (fun calls calls' =>
          ∀ x, x ∈ ChordCall.putIn calls ↔ x ∈ ChordCall.putIn calls') made others →
        (Pattern.ofChords (made.map ChordCall.built)).same
          (Pattern.ofChords (others.map ChordCall.built)) = true) ∧
      ∀ p q : Pattern, p.same q = true → ∀ (t : Tracker) (now : Instant),
        p.fires .sequential t now = q.fires .sequential t now := by
  have hbuilt : ∀ calls others : List ChordCall,
      (ChordCall.built calls).same (ChordCall.built others) = true ↔
        ∀ x, x ∈ ChordCall.putIn calls ↔ x ∈ ChordCall.putIn others := by
    intro calls others
    rw [Chord.same_iff]
    simp only [ChordCall.mem_members_built]
  refine ⟨fun calls others => ⟨Chord.same_iff, Chord.same_iff_isSubset, hbuilt calls others⟩,
    ChordCall.exists_built, Chord.equivalence_same, Pattern.equivalence_same, ?_, ?_⟩
  · intro made others h
    refine Pattern.same_ofChords ?_
    rw [Pattern.sameChords_iff_forall₂, List.forall₂_map_left_iff, List.forall₂_map_right_iff]
    exact h.imp fun calls calls' hput => (hbuilt calls calls').mpr hput
  · intro p q h t now
    exact Pattern.fires_sequential_congr h t now

/-- A chord in another order, one put in twice, and one that was thrown away first. -/
theorem reordered_pattern_fires :
    let made : List (List ChordCall) :=
      [[.ofList ["KeyC", "KeyD"]], [.insert "ShiftLeft"]]
    let others : List (List ChordCall) :=
      [[.new, .insert "KeyD", .insert "KeyC", .insert "KeyD"], [.ofList ["KeyQ"], .new,
        .insert "ShiftLeft"]]
    let p := Pattern.ofChords (made.map ChordCall.built)
    let q := Pattern.ofChords (others.map ChordCall.built)
    let t := (Tracker.new (Limits.ofNumbers 500 10 5)).run [.press "KeyC" 0, .press "KeyD" 10,
      .release "KeyC" 20, .release "KeyD" 30, .press "ShiftLeft" 40]
    List.Forall₂ (fun calls calls' => ∀ x, x ∈ ChordCall.putIn calls ↔ x ∈ ChordCall.putIn calls')
        made others ∧
      p.same q = true ∧ p.fires .sequential t 40 = q.fires .sequential t 40 ∧
      p.fires .sequential t 40 = true := by
  intro made others p q t
  have hput : List.Forall₂
      (fun calls calls' => ∀ x, x ∈ ChordCall.putIn calls ↔ x ∈ ChordCall.putIn calls')
      made others := by
    refine .cons (fun x => ?_) (.cons (fun x => ?_) .nil)
    · simp only [ChordCall.putIn, List.foldl, ChordCall.extend, List.cons_append, List.nil_append,
        List.mem_cons, List.not_mem_nil, or_false]
      tauto
    · simp only [ChordCall.putIn, List.foldl, ChordCall.extend, List.nil_append]
  obtain ⟨-, -, -, -, hsame, hfires⟩ := equal_patterns_match_alike
  have hpq : p.same q = true := hsame made others hput
  exact ⟨hput, hpq, hfires p q hpq t 40, by decide⟩

/-- Held together, the order of the inputs counts. -/
example :
    let p := Pattern.ofLists [["KeyC", "KeyD"]]
    let q := Pattern.ofLists [["KeyD", "KeyC"]]
    let t := (Tracker.new (Limits.ofNumbers 500 10 5)).run [.press "KeyC" 0, .press "KeyD" 10]
    p.same q = true ∧ p.fires .simultaneous t 10 = true ∧ q.fires .simultaneous t 10 = false := by
  decide

end KeyBindings
