import KeyBindings.Input.Basic

/-!
# Chords: inputs that are down together

A chord lists its members without repetition, in the order they were put in. The order is kept for
showing the chord and for matching against the held list; EQUALITY ignores it. `same` tests equal
size and containment one way, which suffices because members are unique
(**`same_iff`**: same members).
-/

namespace KeyBindings

/-- Inputs without repetition, in the order they were put in. -/
structure Chord where
  members : List Input
  nodup : members.Nodup
  deriving DecidableEq

namespace Chord

@[ext] theorem ext {c d : Chord} (h : c.members = d.members) : c = d := by
  cases c
  cases d
  simp_all

/-! ## 1. Building -/

/-- The chord without members. -/
def empty : Chord := ⟨[], List.nodup_nil⟩

instance : Inhabited Chord := ⟨empty⟩

/-- Puts an input at the end of a chord, unless it is a member already. -/
def insert (c : Chord) (input : Input) : Chord :=
  if h : input ∈ c.members then c
  else
    { members := c.members ++ [input]
      nodup := List.nodup_append.mpr
        ⟨c.nodup, by simp, fun a ha b hb => by
          rw [List.mem_singleton.mp hb]
          exact fun e => h (e ▸ ha)⟩ }

/-- Takes an input out of a chord. -/
def erase (c : Chord) (input : Input) : Chord :=
  ⟨c.members.erase input, c.nodup.erase input⟩

/-- The chord of a list: the first occurrence of each input, in order. -/
def ofList (inputs : List Input) : Chord := inputs.foldl insert empty

@[simp] theorem members_empty : empty.members = [] := rfl

theorem members_insert (c : Chord) (input : Input) :
    (c.insert input).members =
      if input ∈ c.members then c.members else c.members ++ [input] := by
  unfold insert
  split <;> rfl

@[simp] theorem members_erase (c : Chord) (input : Input) :
    (c.erase input).members = c.members.erase input := rfl

@[simp] theorem mem_members_insert {c : Chord} {input x : Input} :
    x ∈ (c.insert input).members ↔ x ∈ c.members ∨ x = input := by
  rw [members_insert]
  split
  · next h => exact ⟨Or.inl, fun hx => hx.elim id fun e => e ▸ h⟩
  · simp

@[simp] theorem mem_members_erase {c : Chord} {input x : Input} :
    x ∈ (c.erase input).members ↔ x ≠ input ∧ x ∈ c.members := by
  rw [members_erase, c.nodup.mem_erase_iff]

theorem mem_members_foldl_insert {inputs : List Input} {c : Chord} {x : Input} :
    x ∈ (inputs.foldl insert c).members ↔ x ∈ c.members ∨ x ∈ inputs := by
  induction inputs generalizing c with
  | nil => simp
  | cons input inputs ih => rw [List.foldl_cons, ih, mem_members_insert, List.mem_cons, or_assoc]

/-- A chord made from a list has the members of the list. -/
@[simp] theorem mem_members_ofList {inputs : List Input} {x : Input} :
    x ∈ (ofList inputs).members ↔ x ∈ inputs := by
  rw [ofList, mem_members_foldl_insert]
  simp

/-- Distinct inputs that are no members yet are put in as they stand. -/
theorem members_foldl_insert_of_nodup {inputs : List Input} {c : Chord}
    (h : (c.members ++ inputs).Nodup) : (inputs.foldl insert c).members = c.members ++ inputs := by
  induction inputs generalizing c with
  | nil => exact (List.append_nil _).symm
  | cons input inputs ih =>
    have hnew : input ∉ c.members := fun hmem =>
      (List.nodup_append.mp h).2.2 input hmem input List.mem_cons_self rfl
    have hmembers : (c.insert input).members = c.members ++ [input] := by
      rw [members_insert, if_neg hnew]
    have hrest : ((c.insert input).members ++ inputs).Nodup := by
      rw [hmembers, List.append_assoc]
      exact h
    rw [List.foldl_cons, ih hrest, hmembers, List.append_assoc, List.singleton_append]

/-- A chord of distinct inputs has these members, in the order given. -/
theorem members_ofList_of_nodup {inputs : List Input} (h : inputs.Nodup) :
    (ofList inputs).members = inputs :=
  members_foldl_insert_of_nodup h

/-! ## 2. Asking -/

def size (c : Chord) : Nat := c.members.length

def isEmpty (c : Chord) : Bool := c.members.isEmpty

def contains (c : Chord) (input : Input) : Bool := c.members.contains input

/-- Whether every member of `c` is a member of `d`. -/
def isSubset (c d : Chord) : Bool := c.members.all d.contains

@[simp] theorem contains_iff {c : Chord} {input : Input} :
    c.contains input = true ↔ input ∈ c.members := by
  simp [contains]

@[simp] theorem isEmpty_iff {c : Chord} : c.isEmpty = true ↔ c.members = [] := by
  simp [isEmpty]

theorem isSubset_iff {c d : Chord} : c.isSubset d = true ↔ c.members ⊆ d.members := by
  simp [isSubset, List.subset_def]

/-! ## 3. Equality up to order -/

/-- Whether two chords have equally many members and the second has all of the first. -/
def same (c d : Chord) : Bool := c.size == d.size && c.isSubset d

/-- Of two lists without repetition of equal length, one in the other, each has the members of the
    other. -/
theorem subset_of_subset_of_length_le {α : Type} [DecidableEq α] :
    ∀ {as bs : List α}, as.Nodup → bs.Nodup → as ⊆ bs → bs.length ≤ as.length → bs ⊆ as
  | [], bs, _, _, _, hl => by
    rw [List.length_nil, Nat.le_zero_eq, List.length_eq_zero_iff] at hl
    simp [hl]
  | a :: as, bs, ha, hb, hsub, hl => by
    have hab : a ∈ bs := hsub List.mem_cons_self
    have hcons := List.nodup_cons.mp ha
    have hlen : (bs.erase a).length = bs.length - 1 := List.length_erase_of_mem hab
    have hsub' : as ⊆ bs.erase a := fun x hx =>
      (hb.mem_erase_iff).mpr ⟨fun e => hcons.1 (e ▸ hx), hsub (List.mem_cons_of_mem a hx)⟩
    have ih := subset_of_subset_of_length_le hcons.2 (hb.erase a) hsub' (by
      rw [hlen]
      simp only [List.length_cons] at hl
      omega)
    intro x hx
    by_cases e : x = a
    · exact e ▸ List.mem_cons_self
    · exact List.mem_cons_of_mem a (ih ((hb.mem_erase_iff).mpr ⟨e, hx⟩))

/-- **Two chords are the same exactly when they have the same members.** -/
theorem same_iff {c d : Chord} : c.same d = true ↔ ∀ x, x ∈ c.members ↔ x ∈ d.members := by
  rw [same, Bool.and_eq_true, isSubset_iff, beq_iff_eq]
  constructor
  · rintro ⟨hl, hsub⟩ x
    exact ⟨fun hx => hsub hx,
      fun hx => subset_of_subset_of_length_le c.nodup d.nodup hsub (Nat.le_of_eq hl.symm) hx⟩
  · intro h
    have hcd : c.members ⊆ d.members := fun x hx => (h x).mp hx
    have hdc : d.members ⊆ c.members := fun x hx => (h x).mpr hx
    exact ⟨Nat.le_antisymm (c.nodup.length_le_of_subset hcd) (d.nodup.length_le_of_subset hdc), hcd⟩

/-! ## 4. Showing -/

/-- The members in order, joined by plus signs. -/
def text (c : Chord) : String := " + ".intercalate c.members

end Chord

end KeyBindings
