import KeyBindings.Proofs.PatternText
import Mathlib.Data.List.Chain
import Mathlib.Data.List.Induction

/-!
# Tokens and the text they were read from

Tokens written one after the other are a text again: the text they were read from, without the
blanks around its names. Reading that text gives the same tokens, since no two names stand side by
side -- there is a delimiter between them in every text.

* `Token.delimited_induction` -- a text is a stretch without delimiters, or two texts around one;
* `Token.scanChars_cons_blank`, `Token.scanChars_concat_blank` -- a blank at an end of a text adds
  no token;
* `Token.Spacing`, **`Token.scanChars_around_spacing`** -- text that names nothing: between two
  texts it adds its delimiters and nothing else, and parts the names on its two sides if it has a
  delimiter at all;
* `Token.Readable` -- tokens that can be told apart when nothing is written between them. Whatever
  is read is readable (`readable_scanChars`), and what is readable is read back (`scanChars_spell`);
* `Token.texts` -- the tokens of a text as texts, the delimiters as themselves;
* **`tokens_round_trip`**: what the tokens of a text are, and that they come back.
-/

namespace KeyBindings

namespace Token

variable {c d : Char} {cs : List Char} {token delimiter : Token} {tokens : List Token}

/-! ## 1. Delimiters and blanks -/

theorem ofDelimiter?_eq_some_iff :
    ofDelimiter? c = some token ↔ c = '+' ∧ token = .plus ∨ c = '>' ∧ token = .arrow := by
  rw [ofDelimiter?]
  split
  · next h =>
    subst h
    simp [eq_comm]
  · next hp =>
    split
    · next h =>
      subst h
      simp [eq_comm]
    · next ha => simp [hp, ha]

theorem ofDelimiter?_eq_none_iff : ofDelimiter? c = none ↔ c ≠ '+' ∧ c ≠ '>' := by
  constructor
  · intro h
    constructor
    · rintro rfl
      exact absurd h nofun
    · rintro rfl
      exact absurd h nofun
  · exact fun h => ofDelimiter?_eq_none h.1 h.2

theorem ofDelimiter?_of_isBlank (h : Text.isBlank c = true) : ofDelimiter? c = none := by
  refine ofDelimiter?_eq_none ?_ ?_
  · rintro rfl
    exact absurd h (by decide)
  · rintro rfl
    exact absurd h (by decide)

/-- A delimiter names nothing. -/
theorem name?_of_ofDelimiter? (h : ofDelimiter? c = some delimiter) : delimiter.name? = none := by
  rcases ofDelimiter?_eq_some_iff.mp h with ⟨-, rfl⟩ | ⟨-, rfl⟩ <;> rfl

/-- **A text is a stretch without delimiters, or two texts around a delimiter.** -/
@[elab_as_elim]
theorem delimited_induction {motive : List Char → Prop}
    (stretch : ∀ cs, (∀ c ∈ cs, ofDelimiter? c = none) → motive cs)
    (append : ∀ as d delimiter bs, ofDelimiter? d = some delimiter → motive as → motive bs →
      motive (as ++ d :: bs))
    (cs : List Char) : motive cs := by
  induction cs using Text.separated_induction (p := fun c => (ofDelimiter? c).isSome) with
  | piece cs hcs => exact stretch cs fun c hc => by simpa using hcs c hc
  | append as d bs hd iha ihb =>
    obtain ⟨delimiter, hd⟩ := Option.isSome_iff_exists.mp hd
    exact append as d delimiter bs hd iha ihb

theorem scanChars_cons_delimiter (h : ofDelimiter? d = some delimiter) (cs : List Char) :
    scanChars (d :: cs) = delimiter :: scanChars cs := scanChars_append h [] cs

/-- A blank in front of a text adds no token. -/
theorem scanChars_cons_blank (h : Text.isBlank c = true) (cs : List Char) :
    scanChars (c :: cs) = scanChars cs := by
  rw [scanChars, scanParts_cons, scanStep, ofDelimiter?_of_isBlank h]
  show named (c :: (scanParts cs).1) ++ (scanParts cs).2 = _
  rw [named, nameIn_cons_blank h, ← named, ← scanChars]

/-- Nor does a blank behind it. -/
theorem scanChars_concat_blank (h : Text.isBlank c = true) (cs : List Char) :
    scanChars (cs ++ [c]) = scanChars cs := by
  induction cs using delimited_induction with
  | stretch cs hcs =>
    have hall : ∀ x ∈ cs ++ [c], ofDelimiter? x = none := by
      intro x hx
      rcases List.mem_append.mp hx with hx | hx
      · exact hcs x hx
      · exact List.mem_singleton.mp hx ▸ ofDelimiter?_of_isBlank h
    rw [scanChars_of_forall hall, scanChars_of_forall hcs, named, nameIn_concat_blank h, named]
  | append as d delimiter bs hd iha ihb =>
    rw [List.append_assoc, List.cons_append, scanChars_append hd, scanChars_append hd, ihb]

/-! ## 2. Text that names nothing -/

/-- Blanks and delimiters, and no other characters. -/
def Spacing (cs : List Char) : Prop :=
  ∀ c ∈ cs, Text.isBlank c = true ∨ ∃ delimiter, ofDelimiter? c = some delimiter

theorem spacing_cons_iff :
    Spacing (c :: cs) ↔
      (Text.isBlank c = true ∨ ∃ delimiter, ofDelimiter? c = some delimiter) ∧ Spacing cs :=
  List.forall_mem_cons

theorem spacing_append_iff {as bs : List Char} :
    Spacing (as ++ bs) ↔ Spacing as ∧ Spacing bs :=
  List.forall_mem_append

/-- Spacing by its characters. -/
theorem spacing_iff : Spacing cs ↔ ∀ c ∈ cs, Text.isBlank c = true ∨ c = '+' ∨ c = '>' := by
  refine forall₂_congr fun c _ => or_congr_right ?_
  constructor
  · rintro ⟨delimiter, hd⟩
    exact (ofDelimiter?_eq_some_iff.mp hd).imp And.left And.left
  · rintro (rfl | rfl)
    · exact ⟨_, ofDelimiter?_plus⟩
    · exact ⟨_, ofDelimiter?_arrow⟩

/-- In front of a text, spacing adds its delimiters. -/
theorem scanChars_spacing_append {run : List Char} (h : Spacing run) (cs : List Char) :
    scanChars (run ++ cs) = run.filterMap ofDelimiter? ++ scanChars cs := by
  induction run with
  | nil => rfl
  | cons c run ih =>
    obtain ⟨hc, hrun⟩ := spacing_cons_iff.mp h
    rcases hc with hblank | ⟨delimiter, hd⟩
    · rw [List.cons_append, scanChars_cons_blank hblank, ih hrun,
        List.filterMap_cons_none (ofDelimiter?_of_isBlank hblank)]
    · rw [List.cons_append, scanChars_cons_delimiter hd, ih hrun, List.filterMap_cons_some hd]
      rfl

/-- Behind a text as well. -/
theorem scanChars_append_spacing {run : List Char} (h : Spacing run) (cs : List Char) :
    scanChars (cs ++ run) = scanChars cs ++ run.filterMap ofDelimiter? := by
  induction run using List.reverseRecOn with
  | nil => simp
  | append_singleton run c ih =>
    obtain ⟨hrun, hlast⟩ := spacing_append_iff.mp h
    rw [← List.append_assoc, List.filterMap_append, ← List.append_assoc, ← ih hrun]
    rcases hlast c (List.mem_singleton_self c) with hblank | ⟨delimiter, hd⟩
    · have hnone : [c].filterMap ofDelimiter? = [] :=
        List.filterMap_cons_none (ofDelimiter?_of_isBlank hblank)
      rw [scanChars_concat_blank hblank, hnone, List.append_nil]
    · have hone : [c].filterMap ofDelimiter? = [delimiter] := List.filterMap_cons_some hd
      rw [scanChars_append hd, hone]
      rfl

/-- **Between two texts, spacing with a delimiter adds its delimiters**, and each text is read as if
    it stood alone. -/
theorem scanChars_around_spacing {run : List Char} (h : Spacing run) (hd : d ∈ run)
    (hdelimiter : ofDelimiter? d = some delimiter) (as bs : List Char) :
    scanChars (as ++ run ++ bs) = scanChars as ++ run.filterMap ofDelimiter? ++ scanChars bs := by
  obtain ⟨front, back, rfl⟩ := List.append_of_mem hd
  obtain ⟨hfront, hrest⟩ := spacing_append_iff.mp h
  obtain ⟨-, hback⟩ := spacing_cons_iff.mp hrest
  have hassoc : as ++ (front ++ d :: back) ++ bs = (as ++ front) ++ d :: (back ++ bs) := by simp
  rw [hassoc, scanChars_append hdelimiter, scanChars_append_spacing hfront,
    scanChars_spacing_append hback, List.filterMap_append, List.filterMap_cons_some hdelimiter]
  simp

/-! ## 3. Tokens that are read back -/

/-- One of two neighbours is a delimiter. -/
def Apart (a b : Token) : Prop := a.name? = none ∨ b.name? = none

/-- Tokens that can be told apart when nothing is written between them: the names are legible, and
    no two of them are neighbours. -/
structure Readable (tokens : List Token) : Prop where
  legible : ∀ name, .name name ∈ tokens → Legible ['+', '>'] name
  apart : tokens.IsChain Apart

/-- A stretch holds no name and gives no token, or holds one and gives that one. -/
theorem named_cases (stretch : List Char) :
    nameIn stretch = none ∧ named stretch = [] ∨
      ∃ name, nameIn stretch = some name ∧ named stretch = [.name name] := by
  rw [named]
  cases nameIn stretch with
  | none => exact Or.inl ⟨rfl, rfl⟩
  | some name => exact Or.inr ⟨name, rfl, rfl⟩

/-- What is found where no delimiter stands is legible. -/
theorem legible_of_stretch {stretch : List Char} {name : Input}
    (h : ∀ c ∈ stretch, ofDelimiter? c = none) (hname : nameIn stretch = some name) :
    Legible ['+', '>'] name := by
  refine legible_of_nameIn hname fun d hd hmem => ?_
  obtain ⟨hplus, harrow⟩ := ofDelimiter?_eq_none_iff.mp (h d hmem)
  rcases List.mem_pair.mp hd with rfl | rfl
  · exact hplus rfl
  · exact harrow rfl

/-- **Whatever is read is readable.** -/
theorem readable_scanChars (cs : List Char) : Readable (scanChars cs) := by
  induction cs using delimited_induction with
  | stretch cs hcs =>
    rw [scanChars_of_forall hcs]
    rcases named_cases cs with ⟨-, hnil⟩ | ⟨name, hname, hone⟩
    · rw [hnil]
      exact ⟨fun _ h => absurd h List.not_mem_nil, .nil⟩
    · rw [hone]
      refine ⟨fun other h => ?_, .singleton _⟩
      obtain rfl : other = name := by simpa using h
      exact legible_of_stretch hcs hname
  | append as d delimiter bs hd iha ihb =>
    have hnone := name?_of_ofDelimiter? hd
    rw [scanChars_append hd]
    constructor
    · intro name h
      rcases List.mem_append.mp h with h | h
      · exact iha.legible name h
      · rcases List.mem_cons.mp h with rfl | h
        · exact absurd hnone nofun
        · exact ihb.legible name h
    · have hback : (delimiter :: scanChars bs).IsChain Apart :=
        List.isChain_cons.mpr ⟨fun _ _ => Or.inl hnone, ihb.apart⟩
      refine List.isChain_append.mpr ⟨iha.apart, hback, ?_⟩
      intro a _ b hb
      obtain rfl := Option.some.inj hb
      exact Or.inr hnone

/-- Tokens written one after the other. -/
def spell (tokens : List Token) : List Char := tokens.flatMap fun token => token.text.toList

/-- A stretch that ends at a delimiter or at the end of the text is read by itself. -/
theorem scanChars_stretch_append {stretch : List Char} (h : ∀ c ∈ stretch, ofDelimiter? c = none)
    (hcs : ∀ c ∈ cs.head?, ofDelimiter? c ≠ none) :
    scanChars (stretch ++ cs) = named stretch ++ scanChars cs := by
  cases cs with
  | nil =>
    rw [List.append_nil, scanChars_of_forall h]
    exact (List.append_nil _).symm
  | cons d cs =>
    obtain ⟨delimiter, hd⟩ := Option.ne_none_iff_exists'.mp (hcs d rfl)
    rw [scanChars_append_cons h hd, scanChars_cons_delimiter hd]

/-- What begins with a delimiter is written with one in front. -/
theorem head?_spell (h : ∀ token ∈ tokens.head?, token.name? = none) :
    ∀ c ∈ (spell tokens).head?, ofDelimiter? c ≠ none := by
  cases tokens with
  | nil => exact nofun
  | cons token tokens =>
    intro c hc
    have hnone : token.name? = none := h token rfl
    cases token with
    | plus => exact Option.some.inj hc ▸ nofun
    | arrow => exact Option.some.inj hc ▸ nofun
    | name name => exact absurd hnone nofun

/-- **Readable tokens are read back.** -/
theorem scanChars_spell (h : Readable tokens) : scanChars (spell tokens) = tokens := by
  induction tokens with
  | nil => rfl
  | cons token tokens ih =>
    obtain ⟨hhead, hchain⟩ := List.isChain_cons.mp h.apart
    have ih := ih ⟨fun name hn => h.legible name (List.mem_cons_of_mem token hn), hchain⟩
    cases token with
    | plus => exact (scanChars_cons_delimiter ofDelimiter?_plus _).trans (congrArg _ ih)
    | arrow => exact (scanChars_cons_delimiter ofDelimiter?_arrow _).trans (congrArg _ ih)
    | name name =>
      have hname : Legible ['+', '>'] name := h.legible name List.mem_cons_self
      have hfree : ∀ c ∈ name.toList, ofDelimiter? c = none := fun c hc =>
        ofDelimiter?_eq_none (fun e => hname.free '+' (by simp) (e ▸ hc))
          fun e => hname.free '>' (by simp) (e ▸ hc)
      have hnext : ∀ token ∈ tokens.head?, token.name? = none := fun token ht =>
        (hhead token ht).resolve_left nofun
      show scanChars (name.toList ++ spell tokens) = _
      rw [scanChars_stretch_append hfree (head?_spell hnext), ih, named, hname.nameIn]
      rfl

/-! ## 4. The texts of the tokens -/

/-- The texts of the delimiters. -/
def delimiterTexts : List String := ["+", ">"]

/-- A token has a delimiter's text if it is one, since no legible name is written like it. -/
theorem text_mem_delimiterTexts_iff (h : Readable tokens) (ht : token ∈ tokens) :
    token.text ∈ delimiterTexts ↔ token.name? = none := by
  cases token with
  | plus => exact iff_of_true (by decide) rfl
  | arrow => exact iff_of_true (by decide) rfl
  | name name =>
    have hname := h.legible name ht
    refine iff_of_false (fun hmem => ?_) nofun
    rcases List.mem_pair.mp hmem with rfl | rfl
    · exact hname.free '+' (by simp) (by decide)
    · exact hname.free '>' (by simp) (by decide)

/-- A token is a delimiter, or its text is a legible name. -/
theorem text_mem_or_legible (h : Readable tokens) (ht : token ∈ tokens) :
    token.text ∈ delimiterTexts ∨ Legible ['+', '>'] token.text := by
  cases token with
  | plus => exact Or.inl (by decide)
  | arrow => exact Or.inl (by decide)
  | name name => exact Or.inr (h.legible name ht)

/-- The delimiters among the tokens are those of the text. -/
theorem filter_scanChars (cs : List Char) :
    (scanChars cs).filter (·.name? = none) = cs.filterMap ofDelimiter? := by
  induction cs using delimited_induction with
  | stretch cs hcs =>
    rw [scanChars_of_forall hcs, List.filterMap_eq_nil_iff.mpr hcs]
    rcases named_cases cs with ⟨-, hnil⟩ | ⟨name, -, hone⟩
    · rw [hnil]
      rfl
    · rw [hone]
      rfl
  | append as d delimiter bs hd iha ihb =>
    have hnone := name?_of_ofDelimiter? hd
    rw [scanChars_append hd, List.filter_append, List.filter_cons_of_pos (by simp [hnone]), iha,
      ihb, List.filterMap_append, List.filterMap_cons_some hd]

/-- The texts of a text's delimiters are its plus signs and arrows. -/
theorem map_text_filterMap (cs : List Char) :
    (cs.filterMap ofDelimiter?).map text =
      (cs.filter (· ∈ ['+', '>'])).map String.singleton := by
  induction cs with
  | nil => rfl
  | cons c cs ih =>
    cases h : ofDelimiter? c with
    | none =>
      obtain ⟨hplus, harrow⟩ := ofDelimiter?_eq_none_iff.mp h
      rw [List.filterMap_cons_none h, List.filter_cons_of_neg (by simp [hplus, harrow]), ih]
    | some delimiter =>
      rw [List.filterMap_cons_some h, List.map_cons, ih]
      rcases ofDelimiter?_eq_some_iff.mp h with ⟨rfl, rfl⟩ | ⟨rfl, rfl⟩ <;> rfl

/-- The texts of the tokens of a text, in order. -/
def texts (binding : String) : List String := (scan binding).map text

/-- Joining the texts writes the tokens one after the other, and they are read back. -/
theorem scan_join_texts (binding : String) : scan (String.join (texts binding)) = scan binding := by
  rw [scan, String.toList_join, texts, List.flatMap_map]
  exact scanChars_spell (readable_scanChars binding.toList)

/-- The texts of the delimiters are those of the plus signs and arrows of the text. -/
theorem filter_texts (binding : String) :
    (texts binding).filter (· ∈ delimiterTexts) =
      (binding.toList.filter (· ∈ ['+', '>'])).map String.singleton := by
  have hread : Readable (scan binding) := readable_scanChars binding.toList
  calc
    (texts binding).filter (· ∈ delimiterTexts) =
        ((scan binding).filter (·.text ∈ delimiterTexts)).map text := List.filter_map
    _ = ((scan binding).filter (·.name? = none)).map text :=
      congrArg _ (List.filter_congr fun token ht =>
        decide_eq_decide.mpr (text_mem_delimiterTexts_iff hread ht))
    _ = (binding.toList.filterMap ofDelimiter?).map text :=
      congrArg _ (filter_scanChars binding.toList)
    _ = (binding.toList.filter (· ∈ ['+', '>'])).map String.singleton :=
      map_text_filterMap binding.toList

/-- No two texts of names are neighbours. -/
theorem isChain_texts (binding : String) :
    (texts binding).IsChain fun a b => a ∈ delimiterTexts ∨ b ∈ delimiterTexts := by
  have hread : Readable (scan binding) := readable_scanChars binding.toList
  refine (List.isChain_map _).mpr (hread.apart.imp_of_mem_imp fun a b ha hb hab => ?_)
  exact hab.imp (text_mem_delimiterTexts_iff hread ha).mpr
    (text_mem_delimiterTexts_iff hread hb).mpr

end Token

open Token in
/-- **The tokens of a text come back.** Joining their texts without anything between them gives a
    text with the same tokens, and so with the same pattern. The delimiters among them are the plus
    signs and arrows of the text, in that order; each of the others is a legible name -- trimmed,
    not empty, without delimiters -- and no two of these are neighbours. -/
theorem tokens_round_trip (binding : String) :
    Token.texts (String.join (Token.texts binding)) = Token.texts binding ∧
      Pattern.ofText (String.join (Token.texts binding)) = Pattern.ofText binding ∧
      (Token.texts binding).filter (· ∈ ["+", ">"]) =
        (binding.toList.filter (· ∈ ['+', '>'])).map String.singleton ∧
      (∀ token ∈ Token.texts binding, token ∈ ["+", ">"] ∨ Legible ['+', '>'] token) ∧
      (Token.texts binding).IsChain fun a b => a ∈ ["+", ">"] ∨ b ∈ ["+", ">"] := by
  have hscan := scan_join_texts binding
  refine ⟨?_, ?_, filter_texts binding, fun token ht => ?_, isChain_texts binding⟩
  · rw [texts, hscan, ← texts]
  · rw [Pattern.ofText, hscan, Pattern.ofText]
  · obtain ⟨source, hsource, rfl⟩ := List.mem_map.mp ht
    exact text_mem_or_legible (readable_scanChars binding.toList) hsource

/-- Blanks around names go, the one inside a name stays, and so does every delimiter. -/
example :
    Token.texts " A B ++ > C>" = ["A B", "+", "+", ">", "C", ">"] := by decide

end KeyBindings
