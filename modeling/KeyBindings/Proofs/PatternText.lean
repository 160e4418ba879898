import KeyBindings.Pattern.Read
import KeyBindings.Text.Split

/-!
# What a binding's text spells

Patterns are read from tokens. Here the same is said of the text, with cuts alone: the text is cut
at every arrow, each part at every plus sign, and the pieces are trimmed.

* `Text.separated_induction` -- a text is a piece without separators, or two texts around one;
* `Token.scanChars_append` -- a delimiter anywhere parts the tokens of the two halves;
* `Pattern.partNames` -- the names of a part: its trimmed pieces, the empty ones left out;
* **`Pattern.chords_ofText`**: the chords of a text are the parts that have names, each name at its
  first occurrence;
* `Legible` -- the names that can stand among given delimiters. Whatever a reader finds is legible
  (`legible_of_nameIn`), and a legible name is found, whatever blanks stand around it.
-/

namespace KeyBindings

/-- **A text is a piece without separators, or two texts around a separator.** -/
@[elab_as_elim]
theorem Text.separated_induction {p : Char → Bool} {motive : List Char → Prop}
    (piece : ∀ cs, (∀ c ∈ cs, p c = false) → motive cs)
    (append : ∀ as s bs, p s = true → motive as → motive bs → motive (as ++ s :: bs))
    (cs : List Char) : motive cs := by
  by_cases h : ∃ s ∈ cs, p s = true
  · obtain ⟨s, hmem, hs⟩ := h
    obtain ⟨as, bs, rfl⟩ := List.append_of_mem hmem
    have has : as.length < (as ++ s :: bs).length := by
      rw [List.length_append, List.length_cons]
      omega
    have hbs : bs.length < (as ++ s :: bs).length := by
      rw [List.length_append, List.length_cons]
      omega
    exact append as s bs hs (separated_induction piece append as)
      (separated_induction piece append bs)
  · exact piece cs fun c hc => Bool.eq_false_iff.mpr fun hs => h ⟨c, hc, hs⟩
termination_by cs.length

namespace Token

/-! ## 1. Tokens -/

/-- The name that a token is, if it is one. -/
def name? : Token → Option Input
  | .name input => some input
  | .plus | .arrow => none

/-- What stands in front of a delimiter is read as if it stood alone. -/
theorem scanParts_append {d : Char} {delimiter : Token} (hd : ofDelimiter? d = some delimiter)
    (as bs : List Char) :
    scanParts (as ++ d :: bs) =
      ((scanParts as).1, (scanParts as).2 ++ delimiter :: scanChars bs) := by
  induction as with
  | nil =>
    rw [List.nil_append, scanParts_cons, scanStep, hd]
    rfl
  | cons c as ih =>
    rw [List.cons_append, scanParts_cons, ih, scanParts_cons, scanStep, scanStep]
    cases ofDelimiter? c with
    | none => rfl
    | some other => simp

/-- **A delimiter parts the tokens of the two halves.** -/
theorem scanChars_append {d : Char} {delimiter : Token} (hd : ofDelimiter? d = some delimiter)
    (as bs : List Char) :
    scanChars (as ++ d :: bs) = scanChars as ++ delimiter :: scanChars bs := by
  rw [scanChars, scanParts_append hd]
  exact (List.append_assoc ..).symm

theorem ofDelimiter?_plus : ofDelimiter? '+' = some .plus := rfl

theorem ofDelimiter?_arrow : ofDelimiter? '>' = some .arrow := rfl

theorem ofDelimiter?_eq_none {c : Char} (hp : c ≠ '+') (ha : c ≠ '>') : ofDelimiter? c = none := by
  rw [ofDelimiter?, if_neg hp, if_neg ha]

end Token

namespace Pattern

/-! ## 2. Chords of tokens -/

/-- An arrow closes the open chord. -/
theorem chordsFrom_append_arrow (chord : Chord) (as bs : List Token) :
    chordsFrom chord (as ++ .arrow :: bs) = chordsFrom chord as ++ chordsFrom .empty bs := by
  induction as generalizing chord with
  | nil => rfl
  | cons token as ih =>
    cases token with
    | plus => exact ih chord
    | arrow => exact congrArg (chord :: ·) (ih .empty)
    | name input => exact ih (chord.insert input)

/-- Without an arrow the open chord takes all names. -/
theorem chordsFrom_of_arrow_notMem {tokens : List Token} (h : .arrow ∉ tokens) (chord : Chord) :
    chordsFrom chord tokens = [(tokens.filterMap Token.name?).foldl Chord.insert chord] := by
  induction tokens generalizing chord with
  | nil => rfl
  | cons token tokens ih =>
    rw [List.mem_cons, not_or] at h
    cases token with
    | plus => exact ih h.2 chord
    | arrow => exact absurd rfl h.1
    | name input => exact ih h.2 (chord.insert input)

/-! ## 3. Chords of a text -/

/-- The names of a part between arrows: the pieces between plus signs, trimmed, without the empty
    ones. -/
def partNames (part : List Char) : List Input := (Text.cut (· == '+') part).filterMap nameIn

/-- A stretch without plus signs has one name at most. -/
theorem partNames_of_forall_ne {part : List Char} (h : ∀ c ∈ part, c ≠ '+') :
    partNames part = (nameIn part).toList := by
  rw [partNames, Text.cut_eq_singleton fun c hc => beq_eq_false_iff_ne.mpr (h c hc)]
  cases hn : nameIn part <;> simp [hn]

/-- A plus sign parts the names of the two halves. -/
theorem partNames_append (as bs : List Char) :
    partNames (as ++ '+' :: bs) = partNames as ++ partNames bs := by
  rw [partNames, Text.cut_append rfl, List.filterMap_append, partNames, partNames]

/-- The tokens of a part are its names and plus signs. -/
theorem names_scanChars {part : List Char} (h : '>' ∉ part) :
    (Token.scanChars part).filterMap Token.name? = partNames part ∧
      .arrow ∉ Token.scanChars part := by
  induction part using Text.separated_induction (p := (· == '+')) with
  | piece cs hcs =>
    have hnone : ∀ c ∈ cs, Token.ofDelimiter? c = none := fun c hc =>
      Token.ofDelimiter?_eq_none (by simpa using hcs c hc) fun e => h (e ▸ hc)
    have hplus : ∀ c ∈ cs, c ≠ '+' := fun c hc => by simpa using hcs c hc
    rw [Token.scanChars_of_forall hnone, partNames_of_forall_ne hplus, Token.named]
    cases nameIn cs <;> simp [Token.name?]
  | append as s bs hs iha ihb =>
    obtain rfl : s = '+' := by simpa using hs
    rw [List.mem_append, List.mem_cons, not_or, not_or] at h
    obtain ⟨hna, hxa⟩ := iha h.1
    obtain ⟨hnb, hxb⟩ := ihb h.2.2
    rw [Token.scanChars_append Token.ofDelimiter?_plus]
    constructor
    · rw [List.filterMap_append, List.filterMap_cons_none rfl, hna, hnb, partNames_append]
    · simp [hxa, hxb]

/-- The chords that a text spells, the empty ones among them. -/
theorem chordsFrom_scanChars (cs : List Char) :
    chordsFrom .empty (Token.scanChars cs) =
      (Text.cut (· == '>') cs).map fun part => Chord.ofList (partNames part) := by
  induction cs using Text.separated_induction (p := (· == '>')) with
  | piece cs hcs =>
    have hnot : '>' ∉ cs := fun hmem => by simpa using hcs _ hmem
    obtain ⟨hnames, harrow⟩ := names_scanChars hnot
    rw [chordsFrom_of_arrow_notMem harrow, hnames, Text.cut_eq_singleton hcs]
    rfl
  | append as s bs hs iha ihb =>
    obtain rfl : s = '>' := by simpa using hs
    rw [Token.scanChars_append Token.ofDelimiter?_arrow, chordsFrom_append_arrow, iha, ihb,
      Text.cut_append rfl, List.map_append]

/-- **The chords of a text are its parts between arrows that have names.** -/
theorem chords_ofText (binding : String) :
    (ofText binding).chords = ((Text.cut (· == '>') binding.toList).map fun part =>
      Chord.ofList (partNames part)).filter (!·.isEmpty) :=
  congrArg (List.filter _) (chordsFrom_scanChars binding.toList)

end Pattern

/-! ## 4. Legible names -/

namespace Text

/-- A text is trimmed of nothing but characters of its own. -/
theorem trim_subset (cs : List Char) : trim cs ⊆ cs := by
  intro c hc
  have hstart : c ∈ trimStart cs :=
    List.mem_reverse.mp ((List.dropWhile_sublist _).subset (List.mem_reverse.mp hc))
  exact (List.dropWhile_sublist _).subset hstart

theorem trim_cons_blank {c : Char} (h : isBlank c = true) (cs : List Char) :
    trim (c :: cs) = trim cs := by
  rw [trim, trimStart_cons_blank h, trim]

theorem trimEnd_concat_blank {c : Char} (h : isBlank c = true) (cs : List Char) :
    trimEnd (cs ++ [c]) = trimEnd cs := by
  rw [trimEnd, List.reverse_concat, List.dropWhile_cons_of_pos h, trimEnd]

theorem trim_concat_blank {c : Char} (h : isBlank c = true) (cs : List Char) :
    trim (cs ++ [c]) = trim cs := by
  rw [trim, trimStart, List.dropWhile_append, trim]
  split
  · next hall =>
    rw [trimStart, List.isEmpty_iff.mp hall, List.dropWhile_cons_of_pos h, List.dropWhile_nil]
  · exact trimEnd_concat_blank h _

/-- The pieces of a text have no characters but its own. -/
theorem subset_of_mem_cut {p : Char → Bool} {cs piece : List Char} (h : piece ∈ cut p cs) :
    piece ⊆ cs := by
  induction cs using separated_induction (p := p) generalizing piece with
  | piece cs hcs =>
    rw [cut_eq_singleton hcs, List.mem_singleton] at h
    exact h ▸ List.Subset.refl cs
  | append as s bs hs iha ihb =>
    rw [cut_append hs] at h
    rcases List.mem_append.mp h with h | h
    · exact List.Subset.trans (iha h) (List.subset_append_left as _)
    · exact List.Subset.trans (ihb h) fun c hc =>
        List.mem_append_right as (List.mem_cons_of_mem s hc)

end Text

/-- A name that can be told from what stands around it: it is not empty, has no blank at its ends
    and none of the delimiters in it. -/
structure Legible (delimiters : List Char) (name : Input) : Prop where
  ne_empty : name ≠ ""
  trimmed : Text.trim name.toList = name.toList
  free : ∀ d ∈ delimiters, d ∉ name.toList

-- `all` goes through the delimiters; a bare quantifier may be decided by trying every character
instance (delimiters : List Char) (name : Input) : Decidable (Legible delimiters name) :=
  decidable_of_iff
    (name ≠ "" ∧ Text.trim name.toList = name.toList ∧ delimiters.all (· ∉ name.toList) = true)
    ⟨fun h => ⟨h.1, h.2.1, by simpa using h.2.2⟩,
      fun h => ⟨h.ne_empty, h.trimmed, by simpa using h.free⟩⟩

variable {delimiters : List Char} {name : Input}

theorem Legible.toList_ne_nil (h : Legible delimiters name) : name.toList ≠ [] :=
  fun e => h.ne_empty (String.toList_eq_nil_iff.mp e)

/-- Among fewer delimiters a name stays legible. -/
theorem Legible.of_subset {others : List Char} (h : Legible delimiters name)
    (hsub : others ⊆ delimiters) : Legible others name :=
  ⟨h.ne_empty, h.trimmed, fun d hd => h.free d (hsub hd)⟩

/-- A legible name is found where it stands alone. -/
theorem Legible.nameIn (h : Legible delimiters name) : nameIn name.toList = some name := by
  rw [KeyBindings.nameIn, h.trimmed, if_neg h.toList_ne_nil, String.ofList_toList]

/-- **What is found in a stretch without delimiters is legible.** -/
theorem legible_of_nameIn {stretch : List Char} (h : nameIn stretch = some name)
    (hfree : ∀ d ∈ delimiters, d ∉ stretch) : Legible delimiters name := by
  obtain ⟨hne, htrim⟩ := toList_of_nameIn h
  refine ⟨fun e => hne (String.toList_eq_nil_iff.mpr e), htrim, fun d hd hmem => ?_⟩
  rw [nameIn, Option.ite_none_left_eq_some] at h
  rw [← Option.some.inj h.2, String.toList_ofList] at hmem
  exact hfree d hd (Text.trim_subset stretch hmem)

theorem nameIn_cons_blank {c : Char} (h : Text.isBlank c = true) (stretch : List Char) :
    nameIn (c :: stretch) = nameIn stretch := by
  rw [nameIn, Text.trim_cons_blank h, nameIn]

theorem nameIn_concat_blank {c : Char} (h : Text.isBlank c = true) (stretch : List Char) :
    nameIn (stretch ++ [c]) = nameIn stretch := by
  rw [nameIn, Text.trim_concat_blank h, nameIn]

end KeyBindings
