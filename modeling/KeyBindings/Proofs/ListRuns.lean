import KeyBindings.Matching

/-!
# Runs inside a list, by splits, windows and places

`Sequence.hasRun` walks down a list and asks at every item whether the run begins there. This file
says what the answer means, for items of any kind that are compared lawfully.

* `blockAt`, `infix_iff_exists_place` -- a run stands at some PLACE of the list;
* `windows`, `hasRun_eq_search` -- the same answer is found by comparing the run with every window
  of its length, after a look at the two lengths;
* `infix_iff_block_at_only_place` -- where no item stands twice there is one place to look at: the
  place of the run's first item;
* **`runs_are_exactly_infixes`**: all of this in one statement, and the laws that follow from it.

A held list has no input twice. So `fires_simultaneous_iff_block_at_first` -- a simultaneous pattern
is complete or not at ONE place of what is held.
-/

namespace KeyBindings

namespace Sequence

variable {α : Type} {inner outer items window : List α} {a : α} {n place : Nat}

/-! ## 1. Places -/

/-- The `n` items from a place on, or fewer where the list ends before. -/
def blockAt (n place : Nat) (items : List α) : List α := (items.drop place).take n

@[simp] theorem length_blockAt : (blockAt n place items).length = min n (items.length - place) := by
  rw [blockAt, List.length_take, List.length_drop]

theorem blockAt_infix : blockAt n place items <:+: items :=
  (List.take_prefix _ _).isInfix.trans (List.drop_suffix _ _).isInfix

/-- An infix is a block that fits. -/
theorem infix_iff_exists_place :
    inner <:+: outer ↔
      ∃ place, place + inner.length ≤ outer.length ∧ blockAt inner.length place outer = inner := by
  constructor
  · rintro ⟨front, back, rfl⟩
    refine ⟨front.length, ?_, ?_⟩
    · simp only [List.length_append]
      omega
    · rw [blockAt, List.append_assoc, List.drop_left, List.take_left]
  · rintro ⟨place, -, hblock⟩
    exact hblock ▸ blockAt_infix

/-- The item at the place where a block begins is the first of the block. -/
theorem getElem?_of_blockAt (hblock : blockAt inner.length place outer = inner)
    (hne : inner ≠ []) : outer[place]? = some (inner.head hne) := by
  have hlen : inner.length ≠ 0 := mt List.length_eq_zero_iff.mp hne
  calc outer[place]?
      = (outer.drop place).head? := List.head?_drop.symm
    _ = (blockAt inner.length place outer).head? := by rw [blockAt, List.head?_take, if_neg hlen]
    _ = some (inner.head hne) := by rw [hblock, List.head?_eq_some_head hne]

/-! ## 2. Windows -/

/-- The blocks of `n` neighbours in a list, from left to right. -/
def windows (n : Nat) (items : List α) : List (List α) :=
  (List.range (items.length + 1 - n)).map fun place => blockAt n place items

/-- The windows of a length are the infixes of that length. -/
theorem mem_windows_iff : window ∈ windows n items ↔ window.length = n ∧ window <:+: items := by
  rw [windows, List.mem_map]
  constructor
  · rintro ⟨place, hplace, rfl⟩
    have hfits : place < items.length + 1 - n := List.mem_range.mp hplace
    refine ⟨?_, blockAt_infix⟩
    rw [length_blockAt]
    omega
  · rintro ⟨rfl, hinfix⟩
    obtain ⟨place, hfits, hblock⟩ := infix_iff_exists_place.mp hinfix
    exact ⟨place, List.mem_range.mpr (by omega), hblock⟩

/-- **Walking down the list and searching its windows give the same answer.** The search looks at
    the lengths first: an empty run is everywhere, and one longer than the list is nowhere. -/
theorem hasRun_eq_search [BEq α] [LawfulBEq α] (inner outer : List α) :
    hasRun inner outer =
      if inner.isEmpty then true
      else if outer.length < inner.length then false
      else (windows inner.length outer).any (· == inner) := by
  rw [Bool.eq_iff_iff, hasRun_iff_infix]
  split
  · next hempty =>
    rw [List.isEmpty_iff] at hempty
    exact iff_of_true (hempty ▸ List.nil_infix) rfl
  · split
    · next hlong =>
      exact iff_of_false (fun hinfix => Nat.not_le.mpr hlong hinfix.length_le) Bool.false_ne_true
    · rw [List.any_eq_true]
      constructor
      · intro hinfix
        exact ⟨inner, mem_windows_iff.mpr ⟨rfl, hinfix⟩, beq_self_eq_true inner⟩
      · rintro ⟨window, hwindow, hsame⟩
        rw [beq_iff_eq] at hsame
        exact hsame ▸ (mem_windows_iff.mp hwindow).2

/-! ## 3. Lists without repeated items -/

/-- Where no item stands twice, the place of an item is its only one. -/
theorem getElem?_eq_some_iff_of_nodup (hnodup : items.Nodup) (hplace : items[place]? = some a)
    (i : Nat) : items[i]? = some a ↔ i = place := by
  have hlt : place < items.length := (List.getElem?_eq_some_iff.mp hplace).1
  rw [← hplace, eq_comm, List.getElem?_inj hlt hnodup, eq_comm]

/-- Only the place of its first item is left for a run in such a list. -/
theorem infix_iff_block_at_only_place (hne : inner ≠ []) (hnodup : outer.Nodup) :
    inner <:+: outer ↔
      ∃ place, (∀ i, outer[i]? = some (inner.head hne) ↔ i = place) ∧
        blockAt inner.length place outer = inner := by
  constructor
  · intro hinfix
    obtain ⟨place, -, hblock⟩ := infix_iff_exists_place.mp hinfix
    have hfirst := getElem?_of_blockAt hblock hne
    exact ⟨place, getElem?_eq_some_iff_of_nodup hnodup hfirst, hblock⟩
  · -- a block is an infix wherever it stands; that the place is the only one is not needed here
    rintro ⟨place, -, hblock⟩
    exact hblock ▸ blockAt_infix

/-! ## 4. What a run is -/

/-- **A run is exactly an infix.** `inner` is found in `outer` exactly when `outer` splits into
    something, `inner` and something again; a search through the windows of `outer` gives the same
    answer. So every list has itself and the empty list as runs, and a run of a run is a run. If no
    item stands twice in `outer` and `inner` has a first item, `inner` is found exactly when that
    item has its one place in `outer` and `inner` is the block from there on. -/
theorem runs_are_exactly_infixes (α : Type) [BEq α] [LawfulBEq α] :
    (∀ inner outer : List α,
      hasRun inner outer = true ↔ ∃ front back, outer = front ++ inner ++ back) ∧
    (∀ inner outer : List α, hasRun inner outer =
      if inner.isEmpty then true
      else if outer.length < inner.length then false
      else (windows inner.length outer).any (· == inner)) ∧
    (∀ items : List α, hasRun items items = true) ∧
    (∀ inner middle outer : List α,
      hasRun inner middle = true → hasRun middle outer = true → hasRun inner outer = true) ∧
    (∀ outer : List α, hasRun [] outer = true) ∧
    ∀ (inner outer : List α) (hne : inner ≠ []), outer.Nodup →
      (hasRun inner outer = true ↔
        ∃ place, (∀ i, outer[i]? = some (inner.head hne) ↔ i = place) ∧
          blockAt inner.length place outer = inner) := by
  refine ⟨fun inner outer => ?_, hasRun_eq_search, fun items => ?_, ?_, hasRun_nil, ?_⟩
  · have hsplit : inner <:+: outer ↔ ∃ front back, outer = front ++ inner ++ back :=
      exists_congr fun front => exists_congr fun back => eq_comm
    exact hasRun_iff_infix.trans hsplit
  · exact hasRun_iff_infix.mpr List.infix_rfl
  · intro inner middle outer hinner hmiddle
    have hfirst : inner <:+: middle := hasRun_iff_infix.mp hinner
    have hsecond : middle <:+: outer := hasRun_iff_infix.mp hmiddle
    exact hasRun_iff_infix.mpr <| hfirst.trans hsecond
  · intro inner outer hne hnodup
    exact hasRun_iff_infix.trans <| infix_iff_block_at_only_place hne hnodup

/-- Of four inputs held together, the middle two are a run. The second and the last are not: the
    only place to look at is that of `ShiftLeft`, and there `KeyD` follows. -/
theorem neighbours_held_in_order :
    let held : List Input := ["KeyX", "ShiftLeft", "KeyD", "KeyE"]
    held.Nodup ∧ hasRun ["ShiftLeft", "KeyD"] held = true ∧
      hasRun ["ShiftLeft", "KeyE"] held = false := by
  intro held
  have hnodup : held.Nodup := by decide
  obtain ⟨-, -, -, -, -, honly⟩ := runs_are_exactly_infixes Input
  have hshift : held[1]? = some "ShiftLeft" := rfl
  have hplace := getElem?_eq_some_iff_of_nodup hnodup hshift
  refine ⟨hnodup, ?_, Bool.eq_false_iff.mpr fun hrun => ?_⟩
  · exact (honly _ held (List.cons_ne_nil _ _) hnodup).mpr ⟨1, hplace, rfl⟩
  · obtain ⟨place, hfirst, hblock⟩ := (honly _ held (List.cons_ne_nil _ _) hnodup).mp hrun
    obtain rfl : 1 = place := (hfirst 1).mp hshift
    exact absurd hblock (by decide)

/-- Where the first item of a run stands twice, its first place does not decide. -/
example : hasRun [1, 2] [1, 1, 2] = true ∧ blockAt 2 0 [1, 1, 2] ≠ [1, 2] := by decide

end Sequence

/-! ## 5. Held together -/

/-- **A simultaneous pattern is looked for at one place.** It is complete exactly when its first
    input is held and the held inputs from there on are those of the pattern, in order. -/
theorem Pattern.fires_simultaneous_iff_block_at_first {p : Pattern} {t : Tracker} {now : Instant} :
    p.fires .simultaneous t now = true ↔
      ∃ (hne : p.flatten ≠ []) (place : Nat),
        (∀ i, t.held.members[i]? = some (p.flatten.head hne) ↔ i = place) ∧
          Sequence.blockAt p.flatten.length place t.held.members = p.flatten := by
  rw [fires_simultaneous_iff, ← exists_prop]
  exact exists_congr fun hne => Sequence.infix_iff_block_at_only_place hne t.held.nodup

end KeyBindings
