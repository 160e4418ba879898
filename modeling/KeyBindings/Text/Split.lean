import KeyBindings.Text.Blank

/-!
# Text: cutting at separators

* `cut p cs` -- the pieces of a text between the characters `p` picks, empty pieces included: one
  piece more than there are separators (`length_cut`);
* `lines` -- the pieces between line feeds;
* `words` -- the non-empty pieces between blanks.

**`cut_append`** is the law the line numbers of a script rest on: cutting a text that has a
separator in the middle cuts its two halves apart. No piece holds a separator (`not_of_mem_cut`),
so no word holds a blank.
-/

namespace KeyBindings.Text

/-! ## 1. Pieces -/

/-- Puts a character in front of the first piece. -/
def extendFirst (c : Char) : List (List Char) → List (List Char)
  | [] => [[c]]
  | piece :: pieces => (c :: piece) :: pieces

/-- The pieces of a text between its separators, the empty ones included. -/
def cut (p : Char → Bool) (cs : List Char) : List (List Char) :=
  cs.foldr (fun c pieces => if p c then [] :: pieces else extendFirst c pieces) [[]]

@[simp] theorem cut_nil (p : Char → Bool) : cut p [] = [[]] := rfl

theorem cut_cons (p : Char → Bool) (c : Char) (cs : List Char) :
    cut p (c :: cs) = if p c then [] :: cut p cs else extendFirst c (cut p cs) := rfl

theorem cut_ne_nil (p : Char → Bool) (cs : List Char) : cut p cs ≠ [] := by
  cases cs with
  | nil => simp
  | cons c cs =>
    rw [cut_cons]
    split
    · simp
    · cases cut p cs <;> simp [extendFirst]

/-- A text has one piece more than it has separators. -/
theorem length_cut (p : Char → Bool) (cs : List Char) :
    (cut p cs).length = cs.countP p + 1 := by
  induction cs with
  | nil => rfl
  | cons c cs ih =>
    rw [cut_cons, List.countP_cons]
    cases hp : p c with
    | true => simp [ih]
    | false =>
      cases e : cut p cs with
      | nil => exact absurd e (cut_ne_nil p cs)
      | cons piece pieces => simp_all [extendFirst]

/-- **A separator in the middle cuts the two halves apart.** -/
theorem cut_append {p : Char → Bool} {s : Char} (hs : p s = true) (as bs : List Char) :
    cut p (as ++ s :: bs) = cut p as ++ cut p bs := by
  induction as with
  | nil => simp [cut_cons, hs]
  | cons a as ih =>
    rw [List.cons_append, cut_cons, cut_cons, ih]
    split
    · rfl
    · cases e : cut p as with
      | nil => exact absurd e (cut_ne_nil p as)
      | cons piece pieces => rfl

/-- A text without separators is its one piece. -/
theorem cut_eq_singleton {p : Char → Bool} {cs : List Char} (h : ∀ c ∈ cs, p c = false) :
    cut p cs = [cs] := by
  induction cs with
  | nil => rfl
  | cons c cs ih =>
    rw [cut_cons, ih fun x hx => h x (List.mem_cons_of_mem c hx)]
    simp [h c List.mem_cons_self, extendFirst]

/-- No piece of a text holds a separator. -/
theorem not_of_mem_cut {p : Char → Bool} {cs piece : List Char} (h : piece ∈ cut p cs) :
    ∀ c ∈ piece, p c = false := by
  induction cs generalizing piece with
  | nil =>
    obtain rfl : piece = [] := by simpa using h
    simp
  | cons a cs ih =>
    rw [cut_cons] at h
    split at h
    · rcases List.mem_cons.mp h with rfl | h
      · simp
      · exact ih h
    · next ha =>
      cases e : cut p cs with
      | nil => exact absurd e (cut_ne_nil p cs)
      | cons first rest =>
        rw [e] at h ih
        rcases List.mem_cons.mp h with rfl | h
        · intro c hc
          rcases List.mem_cons.mp hc with rfl | hc
          · simpa using ha
          · exact ih List.mem_cons_self c hc
        · exact ih (List.mem_cons_of_mem first h)

/-! ## 2. Lines and words -/

/-- The lines of a text: its pieces between line feeds. A text that ends in a line feed has an
    empty last line. -/
def lines (cs : List Char) : List (List Char) := cut (· == '\n') cs

/-- The words of a text: its non-empty pieces between blanks. -/
def words (cs : List Char) : List (List Char) := (cut isBlank cs).filter (!·.isEmpty)

@[simp] theorem words_nil : words [] = [] := rfl

/-- **A blank in the middle parts the words of the two halves.** -/
theorem words_append_cons {b : Char} (hb : isBlank b = true) (as bs : List Char) :
    words (as ++ b :: bs) = words as ++ words bs := by
  rw [words, cut_append hb, List.filter_append]
  rfl

/-- A text without blanks is one word, unless it is empty. -/
theorem words_eq_singleton {cs : List Char} (hne : cs ≠ []) (h : ∀ c ∈ cs, isBlank c = false) :
    words cs = [cs] := by
  rw [words, cut_eq_singleton h]
  simp [hne]

end KeyBindings.Text
