/-!
# Sequences: runs inside a list and the newest items of a list

* `hasRun inner outer` -- whether `inner` stands in `outer` as one block, in the same order; a
  Bool test beside the denotation `inner <:+: outer` (**`hasRun_iff_infix`**);
* `keepLast n items` -- the newest `n` items of a list that is written oldest first, cut off at
  once;
* `dropOldest n items` -- the loop that takes the oldest item away while there are more than `n`;
  it leaves the newest `n` (**`dropOldest_eq_keepLast`**).
-/

namespace KeyBindings.Sequence

variable {α : Type}

/-! ## 1. Runs -/

/-- Whether `inner` stands in `outer` as a block without gaps. The empty list stands in every
    list. -/
def hasRun [BEq α] (inner : List α) : List α → Bool
  | [] => inner.isEmpty
  | a :: outer => inner.isPrefixOf (a :: outer) || hasRun inner outer

/-- **A run is exactly an infix.** -/
theorem hasRun_iff_infix [BEq α] [LawfulBEq α] {inner outer : List α} :
    hasRun inner outer = true ↔ inner <:+: outer := by
  induction outer with
  | nil => simp [hasRun]
  | cons a outer ih =>
    rw [hasRun, Bool.or_eq_true, ih, List.isPrefixOf_iff_prefix, List.infix_cons_iff]

@[simp] theorem hasRun_nil [BEq α] (outer : List α) : hasRun [] outer = true := by
  cases outer <;> simp [hasRun]

/-! ## 2. The newest items -/

/-- The last `n` items of a list, or the whole list when it is shorter. -/
def keepLast (n : Nat) (items : List α) : List α := items.drop (items.length - n)

@[simp] theorem length_keepLast (n : Nat) (items : List α) :
    (keepLast n items).length = min n items.length := by
  rw [keepLast, List.length_drop]
  omega

@[simp] theorem keepLast_nil (n : Nat) : keepLast n ([] : List α) = [] := List.drop_nil

theorem keepLast_suffix (n : Nat) (items : List α) : keepLast n items <:+ items :=
  List.drop_suffix _ _

theorem keepLast_of_length_le {n : Nat} {items : List α} (h : items.length ≤ n) :
    keepLast n items = items := by
  rw [keepLast, Nat.sub_eq_zero_of_le h, List.drop_zero]

theorem map_keepLast {β : Type} (f : α → β) (n : Nat) (items : List α) :
    (keepLast n items).map f = keepLast n (items.map f) := by
  rw [keepLast, keepLast, List.map_drop, List.length_map]

/-- Newer items that fit are kept, and before them what the room left holds of the older ones. -/
theorem keepLast_append_of_length_le {n : Nat} (older : List α) {newer : List α}
    (h : newer.length ≤ n) :
    keepLast n (older ++ newer) = keepLast (n - newer.length) older ++ newer := by
  have hd : (older ++ newer).length - n = older.length - (n - newer.length) := by
    rw [List.length_append]
    omega
  rw [keepLast, hd, List.drop_append_of_le_length (by omega), keepLast]

/-- Of more newer items than are kept, the older ones play no part. -/
theorem keepLast_append_of_le_length {n : Nat} (older : List α) {newer : List α}
    (h : n ≤ newer.length) : keepLast n (older ++ newer) = keepLast n newer := by
  have hd : (older ++ newer).length - n = older.length + (newer.length - n) := by
    rw [List.length_append]
    omega
  rw [keepLast, hd, ← List.drop_drop, List.drop_left, keepLast]

/-- **Dropping the oldest after each new item or once at the end is the same.** -/
theorem keepLast_concat_keepLast (n : Nat) (items : List α) (a : α) :
    keepLast n (keepLast n items ++ [a]) = keepLast n (items ++ [a]) := by
  cases n with
  | zero => simp [keepLast]
  | succ n =>
    have hd : items.length - (n + 1) ≤ (items ++ [a]).length := by simp; omega
    have e : keepLast (n + 1) items ++ [a] =
        (items ++ [a]).drop (items.length - (n + 1)) := by
      rw [keepLast, List.drop_append_of_le_length (by omega)]
    rw [e, keepLast, List.drop_drop, keepLast, List.length_drop]
    congr 1
    simp only [List.length_append, List.length_singleton]
    omega

/-! ## 3. Dropping the oldest -/

/-- Takes the oldest item away while there are more than `n`. -/
def dropOldest (n : Nat) : List α → List α
  | [] => []
  | a :: items => if n < items.length + 1 then dropOldest n items else a :: items

/-- **Dropping the oldest one by one leaves the newest items.** -/
theorem dropOldest_eq_keepLast (n : Nat) (items : List α) :
    dropOldest n items = keepLast n items := by
  induction items with
  | nil => rw [dropOldest, keepLast_nil]
  | cons a items ih =>
    rw [dropOldest]
    split
    next h =>
      have hd : (a :: items).length - n = (items.length - n) + 1 := by
        rw [List.length_cons]
        omega
      rw [ih, keepLast, keepLast, hd, List.drop_succ_cons]
    next h => exact (keepLast_of_length_le (by rw [List.length_cons]; omega)).symm

theorem map_dropOldest {β : Type} (f : α → β) (n : Nat) (items : List α) :
    (dropOldest n items).map f = dropOldest n (items.map f) := by
  rw [dropOldest_eq_keepLast, dropOldest_eq_keepLast, map_keepLast]

end KeyBindings.Sequence
