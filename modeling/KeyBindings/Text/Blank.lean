/-!
# Text: blank characters and trimming

* `isBlank` -- the characters with the Unicode property White_Space, read off a table of ranges;
* `trim` -- a text without the blanks at its two ends.

**`trim_eq_self_iff`**: a text is its own trimmed form exactly when neither end is blank, and
**`trim_trim`**: trimming twice is trimming once. Core's `Char.isWhitespace` is the ASCII part of
the property (`isBlank_of_isWhitespace`).
-/

namespace KeyBindings.Text

/-! ## 1. The property -/

/-- The code points with the property White_Space, as closed ranges in increasing order. -/
def blankRanges : List (Nat × Nat) :=
  [(0x09, 0x0D), (0x20, 0x20), (0x85, 0x85), (0xA0, 0xA0), (0x1680, 0x1680), (0x2000, 0x200A),
   (0x2028, 0x2029), (0x202F, 0x202F), (0x205F, 0x205F), (0x3000, 0x3000)]

/-- A character is blank when its code point lies in one of the ranges. -/
def isBlank (c : Char) : Bool :=
  blankRanges.any fun r => decide (r.1 ≤ c.toNat) && decide (c.toNat ≤ r.2)

theorem isBlank_of_isWhitespace {c : Char} (h : c.isWhitespace = true) : isBlank c = true := by
  simp only [Char.isWhitespace, Bool.or_eq_true, decide_eq_true_eq] at h
  rcases h with ((rfl | rfl) | rfl) | rfl <;> decide

/-! ## 2. Trimming -/

/-- A text without its leading blanks. -/
def trimStart (cs : List Char) : List Char := cs.dropWhile isBlank

/-- A text without its trailing blanks. -/
def trimEnd (cs : List Char) : List Char := (cs.reverse.dropWhile isBlank).reverse

/-- A text without the blanks at its two ends. -/
def trim (cs : List Char) : List Char := trimEnd (trimStart cs)

theorem trimStart_cons_blank {c : Char} (h : isBlank c = true) (cs : List Char) :
    trimStart (c :: cs) = trimStart cs := by simp [trimStart, h]

theorem trimStart_eq_self_iff {cs : List Char} :
    trimStart cs = cs ↔ ∀ c ∈ cs.head?, isBlank c = false := by
  cases cs with
  | nil => simp [trimStart]
  | cons c cs =>
    cases h : isBlank c with
    | false => simp [trimStart, h]
    | true =>
      have hl : (cs.dropWhile isBlank).length ≤ cs.length :=
        (List.dropWhile_suffix isBlank).length_le
      have hne : cs.dropWhile isBlank ≠ c :: cs := fun e => by
        rw [e, List.length_cons] at hl
        omega
      simp [trimStart, h, hne]

theorem trimEnd_eq_self_iff {cs : List Char} :
    trimEnd cs = cs ↔ ∀ c ∈ cs.getLast?, isBlank c = false := by
  have h : trimStart cs.reverse = cs.reverse ↔ _ := trimStart_eq_self_iff
  rw [List.head?_reverse] at h
  rw [← h, trimEnd, trimStart]
  exact List.reverse_eq_iff

theorem head?_dropWhile_isBlank (cs : List Char) :
    ∀ c ∈ (cs.dropWhile isBlank).head?, isBlank c = false := by
  intro c hc
  have h := List.head?_dropWhile_not isBlank cs
  rw [Option.mem_def] at hc
  simpa [hc] using h

/-- Dropping blanks at the end leaves the front character where it is. -/
theorem head?_trimEnd {cs : List Char} (h : ∀ c ∈ cs.head?, isBlank c = false) :
    ∀ c ∈ (trimEnd cs).head?, isBlank c = false := by
  have hp : trimEnd cs <+: cs := by
    have : cs.reverse.dropWhile isBlank <:+ cs.reverse := List.dropWhile_suffix isBlank
    exact List.reverse_suffix.mp (by simpa [trimEnd] using this)
  obtain ⟨t, ht⟩ := hp
  intro c hc
  refine h c ?_
  rw [Option.mem_def] at hc ⊢
  rw [← ht, List.head?_append, hc, Option.some_or]

/-- **A text is its own trimmed form exactly when neither of its ends is blank.** -/
theorem trim_eq_self_iff {cs : List Char} :
    trim cs = cs ↔ (∀ c ∈ cs.head?, isBlank c = false) ∧ ∀ c ∈ cs.getLast?, isBlank c = false := by
  constructor
  · intro h
    have hs : trimStart cs = cs := by
      have h1 : (trim cs).length ≤ (trimStart cs).length := by
        have : (trimStart cs).reverse.dropWhile isBlank <:+ (trimStart cs).reverse :=
          List.dropWhile_suffix isBlank
        simpa [trim, trimEnd] using this.length_le
      have h2 : trimStart cs <:+ cs := List.dropWhile_suffix isBlank
      exact h2.eq_of_length_le (by rw [h] at h1; exact h1)
    have he : trimEnd cs = cs := by rwa [trim, hs] at h
    exact ⟨trimStart_eq_self_iff.mp hs, trimEnd_eq_self_iff.mp he⟩
  · rintro ⟨hs, he⟩
    rw [trim, trimStart_eq_self_iff.mpr hs, trimEnd_eq_self_iff.mpr he]

/-- **Trimming twice is trimming once.** -/
theorem trim_trim (cs : List Char) : trim (trim cs) = trim cs := by
  refine trim_eq_self_iff.mpr ⟨head?_trimEnd (head?_dropWhile_isBlank cs), ?_⟩
  have h := head?_dropWhile_isBlank (trimStart cs).reverse
  rwa [← List.getLast?_reverse] at h

end KeyBindings.Text
