import KeyBindings.Proofs.Performance

/-!
# Sequences of taps, and when they go stale

A tap presses an input and lets it go at once. A pattern of single inputs is tapped out: all taps
but the last are over when the last press completes it, so what keeps the earlier ones counting is
their window. But the window is asked of INPUTS, not of taps. An input that is tapped again counts
by its newer release, and the input of the last press counts because it is down.

* `Tap.stream` -- taps one after the other and then a press;
* `fires_stream_iff` -- a tapped pattern fires exactly when the newest inputs are its inputs and
  each earlier tap whose input is NOT tapped or pressed again was released within the window;
* **`stale_taps_spared_iff`**: so a pattern with a stale tap never fires exactly when its first
  input does not come again. A double tap fires however long ago its first tap was
  (`stale_double_tap_fires`).
-/

namespace KeyBindings

/-- An input pressed and released again. -/
structure Tap where
  input : Input
  down : Instant
  up : Instant
  deriving DecidableEq, Repr

namespace Tap

/-- The press and the release of a tap. -/
def entries (tap : Tap) : History := [⟨tap.input, true, tap.down⟩, ⟨tap.input, false, tap.up⟩]

/-- Taps one after the other, and then a press. -/
def stream (taps : List Tap) (input : Input) (now : Instant) : History :=
  taps.flatMap entries ++ [⟨input, true, now⟩]

/-! ## 1. What a stream of taps leaves -/

theorem stream_append (older newer : List Tap) (input : Input) (now : Instant) :
    stream (older ++ newer) input now = older.flatMap entries ++ stream newer input now := by
  rw [stream, stream, List.flatMap_append, List.append_assoc]

theorem length_stream (taps : List Tap) (input : Input) (now : Instant) :
    (stream taps input now).length = 2 * taps.length + 1 := by
  induction taps with
  | nil => rfl
  | cons tap taps ih =>
    rw [stream, List.flatMap_cons, List.append_assoc, List.length_append, ← stream, ih,
      List.length_cons]
    show 2 + _ = _
    omega

/-- A stream carries its inputs out one by one. -/
theorem performs_stream (taps : List Tap) (input : Input) (now : Instant) :
    Performs ((taps.map (·.input) ++ [input]).map ([·])) (stream taps input now) := by
  induction taps with
  | nil => exact .last ⟨rfl, fun entry he => List.mem_singleton.mp he ▸ rfl⟩
  | cons tap taps ih =>
    have hd : History.Strokes [⟨tap.input, true, tap.down⟩] true [tap.input] :=
      ⟨rfl, fun entry he => List.mem_singleton.mp he ▸ rfl⟩
    have hu : History.Strokes [⟨tap.input, false, tap.up⟩] false [tap.input] :=
      ⟨rfl, fun entry he => List.mem_singleton.mp he ▸ rfl⟩
    have hnext := Performs.next hd hu (.refl _) ih
    exact hnext

theorem map_input_filter_stream (taps : List Tap) (input : Input) (now : Instant) :
    ((stream taps input now).filter (·.pressed)).map (·.input) = taps.map (·.input) ++ [input] := by
  induction taps with
  | nil => rfl
  | cons tap taps ih =>
    rw [List.map_cons, List.cons_append, ← ih]
    rfl

/-- A release of a stream is the release of one of its taps. -/
theorem exists_tap_of_release {taps : List Tap} {input : Input} {now : Instant} {entry : Transition}
    (h : entry ∈ stream taps input now) (hp : entry.pressed = false) :
    ∃ tap ∈ taps, entry.input = tap.input ∧ entry.time = tap.up := by
  rcases List.mem_append.mp h with h | h
  · obtain ⟨tap, ht, he⟩ := List.mem_flatMap.mp h
    rcases List.mem_cons.mp he with rfl | he
    · exact absurd hp nofun
    · exact ⟨tap, ht, by rw [List.mem_singleton.mp he], by rw [List.mem_singleton.mp he]⟩
  · rw [List.mem_singleton.mp h] at hp
    exact absurd hp nofun

theorem release_mem_stream {taps : List Tap} {tap : Tap} (h : tap ∈ taps) (input : Input)
    (now : Instant) : ⟨tap.input, false, tap.up⟩ ∈ stream taps input now :=
  List.mem_append_left _ (List.mem_flatMap.mpr
    ⟨tap, h, List.mem_cons_of_mem _ (List.mem_singleton_self _)⟩)

/-- Only the last input of a stream is down. -/
theorem isDown_stream_iff (taps : List Tap) (input : Input) (now : Instant) {other : Input} :
    (stream taps input now).isDown other = true ↔ other = input := by
  rw [stream, History.isDown_concat]
  split
  · next h => exact iff_of_true rfl h.symm
  · next h =>
    refine iff_of_false ?_ fun e => h e.symm
    clear h
    induction taps using List.reverseRecOn with
    | nil => exact nofun
    | append_singleton taps tap ih =>
      have hsplit : (taps ++ [tap]).flatMap entries =
          (taps.flatMap entries ++ [⟨tap.input, true, tap.down⟩]) ++
            [⟨tap.input, false, tap.up⟩] := by
        rw [List.flatMap_append, List.append_assoc]
        rfl
      rw [hsplit, History.isDown_concat, History.isDown_concat]
      split
      · exact nofun
      · exact ih

/-- Going forward, a later tap is released later. -/
theorem up_le_up {before after : List Tap} {tap earlier : Tap} {input : Input} {now : Instant}
    (hf : Forward ((stream (before ++ tap :: after) input now).map Transition.op) now)
    (h : earlier ∈ before) : earlier.up ≤ tap.up := by
  have hp := (forward_map_op_iff.mp hf).1
  rw [stream_append, List.pairwise_map] at hp
  have hearlier : ⟨earlier.input, false, earlier.up⟩ ∈ before.flatMap entries :=
    List.mem_flatMap.mpr ⟨earlier, h, List.mem_cons_of_mem _ (List.mem_singleton_self _)⟩
  exact (List.pairwise_append.mp hp).2.2 _ hearlier _
    (release_mem_stream List.mem_cons_self input now)

/-- An input that was tapped was tapped a last time. -/
theorem exists_last_tap {taps : List Tap} {input : Input} (h : input ∈ taps.map (·.input)) :
    ∃ before tap after, taps = before ++ tap :: after ∧ tap.input = input ∧
      input ∉ after.map (·.input) := by
  induction taps with
  | nil => exact absurd h List.not_mem_nil
  | cons first taps ih =>
    by_cases hlater : input ∈ taps.map (·.input)
    · obtain ⟨before, tap, after, rfl, hx, hn⟩ := ih hlater
      exact ⟨first :: before, tap, after, rfl, hx, hn⟩
    · rw [List.map_cons, List.mem_cons] at h
      exact ⟨[], first, taps, rfl, (h.resolve_right hlater).symm, hlater⟩

end Tap

/-! ## 2. Patterns of single inputs -/

theorem map_members_of_singles {chords : List Chord} (h : ∀ c ∈ chords, c.size = 1) :
    chords.map Chord.members = (chords.flatMap Chord.members).map ([·]) := by
  induction chords with
  | nil => rfl
  | cons chord chords ih =>
    obtain ⟨input, hi⟩ := List.length_eq_one_iff.mp (h chord List.mem_cons_self)
    rw [List.map_cons, List.flatMap_cons, ih fun c hc => h c (List.mem_cons_of_mem _ hc), hi]
    rfl

namespace Pattern

variable {p : Pattern}

theorem toLists_of_singles (hone : ∀ c ∈ p.chords, c.size = 1) :
    p.toLists = p.flatten.map ([·]) :=
  map_members_of_singles hone

theorem length_flatten_of_singles (hone : ∀ c ∈ p.chords, c.size = 1) :
    p.flatten.length = p.size := by
  have h := congrArg List.length (toLists_of_singles hone)
  rw [toLists, List.length_map, List.length_map] at h
  exact h.symm

theorem earlierInputs_of_singles (hone : ∀ c ∈ p.chords, c.size = 1) :
    p.earlierInputs = p.flatten.dropLast := by
  have h := congrArg List.dropLast (toLists_of_singles hone)
  rw [toLists, ← List.map_dropLast, ← List.map_dropLast] at h
  rw [earlierInputs, List.flatMap, h, ← List.flatMap, List.flatMap_singleton']

/-- The newest presses that complete single inputs are presses of these. -/
theorem flatten_eq_of_completesEach {past : History} (hone : ∀ c ∈ p.chords, c.size = 1)
    (h : past.CompletesEach p.chords) :
    p.flatten = Sequence.keepLast p.size ((past.filter (·.pressed)).map (·.input)) := by
  have hlast : ∀ {presses : List History} {chords : List Chord},
      List.Forall₂ History.Completes presses chords → (∀ c ∈ chords, c.size = 1) →
        (presses.map List.getLast?).map (Option.map (·.input)) =
          (chords.flatMap Chord.members).map some := by
    intro presses chords hc hs
    induction hc with
    | nil => rfl
    | @cons upTo chord presses chords hcomp _ ih =>
      obtain ⟨input, hi⟩ := List.length_eq_one_iff.mp (hs chord List.mem_cons_self)
      obtain ⟨⟨entry, he, hm⟩, -⟩ := hcomp
      have he' : upTo.getLast? = some entry := he
      rw [hi] at hm
      rw [List.map_cons, List.map_cons, ih fun c hc => hs c (List.mem_cons_of_mem _ hc),
        List.flatMap_cons, hi, he', ← List.mem_singleton.mp hm]
      rfl
  have heq := hlast h hone
  rw [Sequence.map_keepLast, History.map_getLast?_atPresses, Sequence.map_keepLast, List.map_map]
    at heq
  have hsome : p.flatten.map some =
      (Sequence.keepLast p.size ((past.filter (·.pressed)).map (·.input))).map some := by
    rw [Sequence.map_keepLast, List.map_map]
    exact heq.symm
  exact List.map_injective_iff.mpr (fun _ _ => Option.some.inj) hsome

end Pattern

/-! ## 3. When a tapped pattern fires -/

variable {limits : Limits} {p : Pattern} {taps : List Tap} {input : Input} {now : Instant}

/-- The newest inputs of a stream that completes a pattern of single inputs are its inputs. -/
theorem flatten_eq_of_completeIn (hone : ∀ c ∈ p.chords, c.size = 1)
    (h : p.CompleteIn (Tap.stream taps input now) limits.window now) :
    p.flatten = (Sequence.keepLast (p.size - 1) taps).map (·.input) ++ [input] := by
  have hpress : [input].length ≤ p.size := h.size_pos
  rw [Pattern.flatten_eq_of_completesEach hone h.completesEach, Tap.map_input_filter_stream,
    Sequence.keepLast_append_of_length_le _ hpress, Sequence.map_keepLast, List.length_singleton]

/-- **Where a tapped pattern fires, each earlier tap whose input does not come again is fresh.** -/
theorem fresh_of_completeIn {before after : List Tap} {tap : Tap}
    (hone : ∀ c ∈ p.chords, c.size = 1)
    (hf : Forward ((Tap.stream (before ++ tap :: after) input now).map Transition.op) now)
    (h : p.CompleteIn (Tap.stream (before ++ tap :: after) input now) limits.window now)
    (hnew : after.length + 1 < p.size) (hlast : tap.input ∉ after.map (·.input) ++ [input]) :
    now ≤ tap.up + limits.window := by
  rw [List.mem_append, List.mem_singleton, not_or] at hlast
  have hmem : tap.input ∈ p.earlierInputs := by
    have hfit : (tap :: after).length ≤ p.size - 1 := by
      rw [List.length_cons]
      omega
    rw [Pattern.earlierInputs_of_singles hone, flatten_eq_of_completeIn hone h,
      List.dropLast_concat, Sequence.keepLast_append_of_length_le _ hfit, List.map_append]
    exact List.mem_append_right _ List.mem_cons_self
  rcases h.counts tap.input hmem with hdown | ⟨entry, he, hx, hp, hn⟩
  · exact absurd ((Tap.isDown_stream_iff _ _ _).mp hdown) hlast.2
  · -- the release that counts is one of this tap or of an earlier one
    obtain ⟨other, ho, hxo, hto⟩ := Tap.exists_tap_of_release he hp
    have hle : other.up ≤ tap.up := by
      rcases List.mem_append.mp ho with ho | ho
      · exact Tap.up_le_up hf ho
      · rcases List.mem_cons.mp ho with rfl | ho
        · exact Nat.le_refl _
        · exact absurd (List.mem_map.mpr ⟨other, ho, hxo.symm.trans hx⟩) hlast.1
    calc now ≤ entry.time + limits.window := hn
      _ = other.up + limits.window := by rw [hto]
      _ ≤ tap.up + limits.window := Nat.add_le_add_right hle _

/-- **A tapped pattern fires** when the newest inputs are its inputs and each of its taps whose
    input does not come again is fresh. -/
theorem fires_stream_of_fresh (older : List Tap) (hone : ∀ c ∈ p.chords, c.size = 1)
    (hlog : 2 * p.size - 1 ≤ limits.log) (hroom : p.size - 1 ≤ limits.releases)
    (hf : Forward ((Tap.stream (older ++ taps) input now).map Transition.op) now)
    (hinputs : p.flatten = taps.map (·.input) ++ [input])
    (hfresh : ∀ before tap after, taps = before ++ tap :: after →
      tap.input ∉ after.map (·.input) ++ [input] → now ≤ tap.up + limits.window) :
    p.fires .sequential
      ((Tracker.new limits).run ((Tap.stream (older ++ taps) input now).map Transition.op)) now =
        true := by
  have hsize : p.size = taps.length + 1 := by
    rw [← Pattern.length_flatten_of_singles hone, hinputs, List.length_append, List.length_map,
      List.length_singleton]
  rw [Tap.stream_append, List.map_append] at hf ⊢
  have hperf : Performs p.toLists (Tap.stream taps input now) := by
    rw [Pattern.toLists_of_singles hone, hinputs]
    exact Tap.performs_stream taps input now
  have hne : ∀ inputs ∈ p.toLists, inputs ≠ [] := by
    intro inputs hi
    obtain ⟨chord, hc, rfl⟩ := List.mem_map.mp hi
    exact p.members_ne_nil chord hc
  have hreleased : (Tap.stream taps input now).released ⊆ taps.map (·.input) := by
    intro other ho
    obtain ⟨entry, he, rfl, hp⟩ := History.mem_released_iff.mp ho
    obtain ⟨tap, ht, hx, -⟩ := Tap.exists_tap_of_release he hp
    exact List.mem_map.mpr ⟨tap, ht, hx.symm⟩
  refine fires_of_completeIn _ hf.of_append ?_ ?_ ?_
  · rw [History.ofOps_map_op, Tap.length_stream]
    omega
  · rw [History.ofOps_map_op]
    have hle := (List.nodup_dedup _).length_le_of_subset hreleased
    rw [List.length_map] at hle
    exact Nat.le_trans hle (by omega)
  · rw [History.ofOps_map_op]
    refine ⟨hperf.endsInPress hne, by omega, ?_, fun other ho => ?_⟩
    · rw [hperf.completesEach_iff, Pattern.toLists, partials_singles hone,
        Sequence.keepLast_of_length_le (Nat.le_of_eq (List.length_map _)),
        List.forall₂_map_left_iff, List.forall₂_same]
      exact fun c hc => Covers.self (p.members_ne_nil c hc)
    · rw [Tap.isDown_stream_iff]
      refine Decidable.or_iff_not_imp_left.mpr fun hother => ?_
      rw [Pattern.earlierInputs_of_singles hone, hinputs, List.dropLast_concat] at ho
      obtain ⟨before, tap, after, rfl, rfl, hn⟩ := Tap.exists_last_tap ho
      have hmem : tap ∈ before ++ tap :: after := List.mem_append_right _ List.mem_cons_self
      refine ⟨_, Tap.release_mem_stream hmem input now, rfl, rfl, hfresh _ _ _ rfl ?_⟩
      rw [List.mem_append, List.mem_singleton, not_or]
      exact ⟨hn, hother⟩

/-- **Which streams of taps fire**: those whose newest inputs are the inputs of the pattern, with
    each earlier tap of them fresh unless its input comes again. -/
theorem fires_stream_iff (hone : ∀ c ∈ p.chords, c.size = 1) (hpos : 0 < p.size)
    (hlog : 2 * p.size - 1 ≤ limits.log) (hroom : p.size - 1 ≤ limits.releases)
    (hf : Forward ((Tap.stream taps input now).map Transition.op) now) :
    p.fires .sequential
        ((Tracker.new limits).run ((Tap.stream taps input now).map Transition.op)) now = true ↔
      p.flatten <:+ taps.map (·.input) ++ [input] ∧
        ∀ before tap after, taps = before ++ tap :: after → after.length + 1 < p.size →
          tap.input ∉ after.map (·.input) ++ [input] → now ≤ tap.up + limits.window := by
  constructor
  · intro hfires
    have hc := completeIn_of_fires hfires
    rw [History.ofOps_map_op] at hc
    refine ⟨?_, ?_⟩
    · obtain ⟨older, ho⟩ := Sequence.keepLast_suffix (p.size - 1) taps
      refine ⟨older.map (·.input), ?_⟩
      rw [flatten_eq_of_completeIn hone hc, ← List.append_assoc, ← List.map_append, ho]
    · intro before tap after he hnew hlast
      subst he
      exact fresh_of_completeIn hone hf hc hnew hlast
  · intro hboth
    obtain ⟨hsuffix, hfresh⟩ := hboth
    -- the taps of the pattern are the newest ones
    have hlen := Pattern.length_flatten_of_singles hone
    have hle := hsuffix.length_le
    rw [hlen, List.length_append, List.length_map, List.length_singleton] at hle
    obtain ⟨older, newer, rfl, hnewer⟩ : ∃ older newer, taps = older ++ newer ∧
        newer.length + 1 = p.size := by
      refine ⟨_, _, (List.take_append_drop (taps.length + 1 - p.size) taps).symm, ?_⟩
      rw [List.length_drop]
      omega
    refine fires_stream_of_fresh older hone hlog hroom hf ?_ ?_
    · rw [List.map_append, List.append_assoc] at hsuffix
      refine (List.suffix_of_suffix_length_le hsuffix (List.suffix_append _ _) ?_).eq_of_length ?_
      all_goals
        rw [hlen, List.length_append, List.length_map, List.length_singleton]
        omega
    · intro before tap after he hlast
      subst he
      refine hfresh (older ++ before) tap after (List.append_assoc ..).symm ?_ hlast
      rw [List.length_append, List.length_cons] at hnewer
      omega

/-! ## 4. Patterns that never fire stale -/

/-- The oldest tap of a pattern being fresh, all are: they were released later. -/
theorem fresh_of_first_fresh {older newer : List Tap} {first : Tap} {window : Nat}
    (hf : Forward ((Tap.stream (older ++ first :: newer) input now).map Transition.op) now)
    (hfresh : now ≤ first.up + window) : ∀ tap ∈ first :: newer, now ≤ tap.up + window := by
  intro tap ht
  rcases List.mem_cons.mp ht with rfl | ht
  · exact hfresh
  · obtain ⟨before, after, rfl⟩ := List.append_of_mem ht
    have hsplit : older ++ first :: (before ++ tap :: after) =
        (older ++ first :: before) ++ tap :: after := by
      rw [List.append_assoc, List.cons_append]
    rw [hsplit] at hf
    have hle := Tap.up_le_up hf (List.mem_append_right _ List.mem_cons_self)
    exact Nat.le_trans hfresh (Nat.add_le_add_right hle _)

/-- A pattern whose first input comes again, tapped out with a pause after the first tap: the first
    tap is stale when the rest begins. -/
def pausedTaps (first : Input) (middle : List Input) (pause : Instant) : List Tap :=
  ⟨first, 0, 0⟩ :: middle.map fun input => ⟨input, pause, pause⟩

theorem forward_pausedTaps (first : Input) (middle : List Input) (last : Input) (pause : Instant) :
    Forward ((Tap.stream (pausedTaps first middle pause) last pause).map Transition.op) pause := by
  have hlater : ∀ entry ∈ Tap.stream (middle.map fun input => ⟨input, pause, pause⟩) last pause,
      entry.time = pause := by
    intro entry he
    rcases List.mem_append.mp he with he | he
    · obtain ⟨tap, ht, he⟩ := List.mem_flatMap.mp he
      obtain ⟨other, -, rfl⟩ := List.mem_map.mp ht
      rcases List.mem_cons.mp he with rfl | he
      · rfl
      · rw [List.mem_singleton.mp he]
    · rw [List.mem_singleton.mp he]
  have hsplit : Tap.stream (pausedTaps first middle pause) last pause =
      Tap.entries ⟨first, 0, 0⟩ ++
        Tap.stream (middle.map fun input => ⟨input, pause, pause⟩) last pause := rfl
  have hfirst : ∀ entry ∈ Tap.entries ⟨first, 0, 0⟩, entry.time = 0 := by
    intro entry he
    rcases List.mem_cons.mp he with rfl | he
    · rfl
    · rw [List.mem_singleton.mp he]
  rw [hsplit, forward_map_op_iff, List.pairwise_map]
  refine ⟨List.pairwise_append.mpr ⟨?_, ?_, fun a ha b _ => ?_⟩, fun entry he => ?_⟩
  · exact List.pairwise_of_forall_mem_list fun a ha b _ => hfirst a ha ▸ Nat.zero_le _
  · exact List.pairwise_of_forall_mem_list fun a ha b hb =>
      Nat.le_of_eq ((hlater a ha).trans (hlater b hb).symm)
  · exact hfirst a ha ▸ Nat.zero_le _
  · rcases List.mem_append.mp he with he | he
    · exact hfirst entry he ▸ Nat.zero_le _
    · exact Nat.le_of_eq (hlater entry he)

/-- **A pattern whose first input comes again fires on a stale tap.** -/
theorem fires_pausedTaps {first last : Input} {middle : List Input}
    (hone : ∀ c ∈ p.chords, c.size = 1) (hlog : 2 * p.size - 1 ≤ limits.log)
    (hroom : p.size - 1 ≤ limits.releases) (hinputs : p.flatten = first :: (middle ++ [last]))
    (hagain : first ∈ middle ++ [last]) (pause : Instant) :
    p.fires .sequential
      ((Tracker.new limits).run
        ((Tap.stream (pausedTaps first middle pause) last pause).map Transition.op)) pause =
          true := by
  have hmap : (middle.map fun input => (⟨input, pause, pause⟩ : Tap)).map (·.input) = middle := by
    rw [List.map_map]
    exact List.map_id middle
  refine fires_stream_of_fresh [] hone hlog hroom (forward_pausedTaps first middle last pause) ?_ ?_
  · rw [hinputs, List.map_cons, hmap, List.cons_append]
  · intro before tap after he hlast
    cases before with
    | nil =>
      -- the stale tap: its input comes again
      obtain ⟨rfl, rfl⟩ := List.cons.inj he
      rw [hmap] at hlast
      exact absurd hagain hlast
    | cons other before =>
      have hmem : tap ∈ middle.map fun input => (⟨input, pause, pause⟩ : Tap) := by
        rw [(List.cons.inj he).2]
        exact List.mem_append_right _ List.mem_cons_self
      obtain ⟨input, -, rfl⟩ := List.mem_map.mp hmem
      exact Nat.le_add_right _ _

/-- **A pattern whose first input comes again fires stale**, whatever the window. -/
theorem exists_stale_of_again {first : Input} {rest : List Input}
    (hone : ∀ c ∈ p.chords, c.size = 1) (hlog : 2 * p.size - 1 ≤ limits.log)
    (hroom : p.size - 1 ≤ limits.releases) (hinputs : p.flatten = first :: rest)
    (hagain : first ∈ rest) :
    ∃ (taps : List Tap) (input : Input) (now : Instant),
      Forward ((Tap.stream taps input now).map Transition.op) now ∧
        p.fires .sequential ((Tracker.new limits).run
          ((Tap.stream taps input now).map Transition.op)) now = true ∧
        ∃ tap ∈ Sequence.keepLast (p.size - 1) taps, ¬ now ≤ tap.up + limits.window := by
  obtain ⟨middle, last, rfl⟩ := (List.eq_nil_or_concat' rest).resolve_left
    (List.ne_nil_of_mem hagain)
  have hfires := fires_pausedTaps hone hlog hroom hinputs hagain (limits.window + 1)
  have hlen : (pausedTaps first middle (limits.window + 1)).length ≤ p.size - 1 := by
    have hsize := Pattern.length_flatten_of_singles hone
    rw [hinputs, List.length_cons, List.length_append, List.length_singleton] at hsize
    rw [pausedTaps, List.length_cons, List.length_map]
    omega
  refine ⟨_, last, _, forward_pausedTaps first middle last _, hfires, ⟨first, 0, 0⟩, ?_, ?_⟩
  · rw [Sequence.keepLast_of_length_le hlen]
    exact List.mem_cons_self
  · show ¬ limits.window + 1 ≤ 0 + limits.window
    omega

/-- **A pattern whose first input does not come again never fires stale.** -/
theorem fresh_of_first_alone (hone : ∀ c ∈ p.chords, c.size = 1)
    (halone : ∀ first ∈ p.flatten.head?, first ∉ p.flatten.tail)
    (hf : Forward ((Tap.stream taps input now).map Transition.op) now)
    (hfires : p.fires .sequential
      ((Tracker.new limits).run ((Tap.stream taps input now).map Transition.op)) now = true) :
    ∀ tap ∈ Sequence.keepLast (p.size - 1) taps, now ≤ tap.up + limits.window := by
  intro tap htap
  have hc := completeIn_of_fires hfires
  rw [History.ofOps_map_op] at hc
  have hflat := flatten_eq_of_completeIn hone hc
  have hlen : (Sequence.keepLast (p.size - 1) taps).length ≤ p.size - 1 := by
    rw [Sequence.length_keepLast]
    exact Nat.min_le_left _ _
  obtain ⟨older, ho⟩ := Sequence.keepLast_suffix (p.size - 1) taps
  cases hnewest : Sequence.keepLast (p.size - 1) taps with
  | nil =>
    rw [hnewest] at htap
    exact absurd htap List.not_mem_nil
  | cons first newer =>
    rw [hnewest] at htap hflat ho hlen
    subst ho
    rw [hflat] at halone
    rw [List.length_cons] at hlen
    have hfirst := fresh_of_completeIn hone hf hc (by omega) (halone _ rfl)
    exact fresh_of_first_fresh hf hfirst tap htap

/-- **A stale tap keeps a pattern of single inputs from firing exactly when the first input of the
    pattern does not come again.** In general a stream fires when its newest inputs are those of the
    pattern and each of these taps is fresh unless its input comes again. -/
theorem stale_taps_spared_iff (hone : ∀ c ∈ p.chords, c.size = 1) (hpos : 0 < p.size)
    (hlog : 2 * p.size - 1 ≤ limits.log) (hroom : p.size - 1 ≤ limits.releases) :
    (∀ (taps : List Tap) (input : Input) (now : Instant),
      Forward ((Tap.stream taps input now).map Transition.op) now →
        (p.fires .sequential
            ((Tracker.new limits).run ((Tap.stream taps input now).map Transition.op)) now = true ↔
          p.flatten <:+ taps.map (·.input) ++ [input] ∧
            ∀ before tap after, taps = before ++ tap :: after → after.length + 1 < p.size →
              tap.input ∉ after.map (·.input) ++ [input] → now ≤ tap.up + limits.window)) ∧
    ((∀ (taps : List Tap) (input : Input) (now : Instant),
      Forward ((Tap.stream taps input now).map Transition.op) now →
        p.fires .sequential
          ((Tracker.new limits).run ((Tap.stream taps input now).map Transition.op)) now = true →
            ∀ tap ∈ Sequence.keepLast (p.size - 1) taps, now ≤ tap.up + limits.window) ↔
      ∀ first ∈ p.flatten.head?, first ∉ p.flatten.tail) := by
  refine ⟨fun taps input now hf => fires_stream_iff hone hpos hlog hroom hf, ?_, ?_⟩
  · intro hspared first hfirst hagain
    have hinputs := List.cons_head?_tail hfirst
    obtain ⟨taps, input, now, hf, hfires, tap, htap, hstale⟩ :=
      exists_stale_of_again hone hlog hroom hinputs.symm hagain
    exact hstale (hspared taps input now hf hfires tap htap)
  · intro halone taps input now hf hfires
    exact fresh_of_first_alone hone halone hf hfires

/-- Two different keys in order fire within the window, and never stale. -/
theorem ordered_keys_spared :
    let limits := Limits.ofNumbers 500 3 1
    let p := Pattern.ofLists [["KeyA"], ["KeyB"]]
    p.fires .sequential ((Tracker.new limits).run
      ((Tap.stream [⟨"KeyA", 0, 0⟩] "KeyB" 500).map Transition.op)) 500 = true ∧
    ∀ (taps : List Tap) (input : Input) (now : Instant),
      Forward ((Tap.stream taps input now).map Transition.op) now →
        p.fires .sequential
          ((Tracker.new limits).run ((Tap.stream taps input now).map Transition.op)) now = true →
            ∀ tap ∈ Sequence.keepLast 1 taps, now ≤ tap.up + 500 := by
  intro limits p
  have hone : ∀ c ∈ p.chords, c.size = 1 := by decide
  have hlog : 2 * p.size - 1 ≤ limits.log := by decide
  have hroom : p.size - 1 ≤ limits.releases := by decide
  have hspared := stale_taps_spared_iff hone (by decide) hlog hroom
  exact ⟨by decide, hspared.2.mpr (by decide)⟩

/-- **A stale double tap fires**: the first tap was over far longer ago than the window. -/
theorem stale_double_tap_fires :
    ¬ ∀ (limits : Limits) (p : Pattern) (taps : List Tap) (input : Input) (now : Instant),
      2 ≤ p.size → (∀ c ∈ p.chords, c.size = 1) → 2 * p.size - 1 ≤ limits.log →
        p.size - 1 ≤ limits.releases →
          Forward ((Tap.stream taps input now).map Transition.op) now →
            p.fires .sequential
              ((Tracker.new limits).run ((Tap.stream taps input now).map Transition.op)) now =
                true →
              ∀ tap ∈ Sequence.keepLast (p.size - 1) taps, now ≤ tap.up + limits.window := by
  intro hall
  have hfresh := hall (Limits.ofNumbers 500 10 5) (Pattern.ofLists [["KeyA"], ["KeyA"]])
    [⟨"KeyA", 0, 0⟩] "KeyA" 10000 (by decide) (by decide) (by decide) (by decide) (by decide)
    (by decide) ⟨"KeyA", 0, 0⟩ (by decide)
  exact absurd hfresh (by decide)

end KeyBindings
