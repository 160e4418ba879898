import KeyBindings.Proofs.PatternText
import KeyBindings.Script.Basic
import Mathlib.Data.List.TakeWhile

/-!
# Scripts as they may be written

A script is written step by step, each on its own line; spellings, blanks, comments, empty lines and
line ends are the writer's choice. `Script.Written` says which texts write which steps, without the
reader; this file shows that the reader accepts exactly these texts and gives exactly these steps.

* `Text.words_eq_cons_iff` -- the first word of a text, with what stands around it;
* `Text.readNumber_eq_ok_iff` -- decimal digits behind an optional plus sign;
* `Script.Step.Spelled`, `Script.LineWritten`, `Script.Written` -- a step as two words, a line, a
  text;
* `readStep_eq_ok_iff`, `readLine_eq_ok_iff`, **`ofText_eq_ok_iff`** -- the reader at each of these
  levels;
* **`reads_as_written`**: that, and which steps can be written at all.

Three notions of a separator meet here: a line feed ALONE ends a line, every blank parts words, and
a carriage return is a blank wherever it stands, also in front of a line feed.
-/

namespace KeyBindings

namespace Text

/-! ## 1. Words -/

/-- Nothing but blanks. -/
def Blanks (cs : List Char) : Prop := ∀ c ∈ cs, isBlank c = true

instance (cs : List Char) : Decidable (Blanks cs) :=
  decidable_of_iff (cs.all isBlank = true) List.all_eq_true

/-- Characters that make up one word. -/
structure IsWord (cs : List Char) : Prop where
  ne_nil : cs ≠ []
  solid : ∀ c ∈ cs, isBlank c = false

theorem isWord_iff {cs : List Char} : IsWord cs ↔ cs ≠ [] ∧ cs.all (!isBlank ·) = true := by
  have hsolid : cs.all (!isBlank ·) = true ↔ ∀ c ∈ cs, isBlank c = false := by
    simp only [List.all_eq_true, Bool.not_eq_true']
  rw [hsolid]
  exact ⟨fun h => ⟨h.ne_nil, h.solid⟩, fun h => ⟨h.1, h.2⟩⟩

instance (cs : List Char) : Decidable (IsWord cs) := decidable_of_iff _ isWord_iff.symm

variable {cs before gap rest w : List Char} {ws : List (List Char)}

theorem words_blanks_append (h : Blanks before) (rest : List Char) :
    words (before ++ rest) = words rest := by
  induction before with
  | nil => rfl
  | cons b before ih =>
    have hb : isBlank b = true := h b List.mem_cons_self
    exact (words_append_cons hb [] (before ++ rest)).trans
      (ih fun c hc => h c (List.mem_cons_of_mem b hc))

theorem words_append_blanks (h : Blanks gap) (cs : List Char) : words (cs ++ gap) = words cs := by
  cases gap with
  | nil => rw [List.append_nil]
  | cons b gap =>
    have hrest : words gap = [] := by
      have := words_blanks_append (fun c hc => h c (List.mem_cons_of_mem b hc)) []
      rwa [List.append_nil] at this
    rw [words_append_cons (h b List.mem_cons_self), hrest, List.append_nil]

/-- A word that ends where a blank begins is the first word. -/
theorem words_word_append (hw : IsWord w) (hrest : ∀ c ∈ rest.head?, isBlank c = true) :
    words (w ++ rest) = w :: words rest := by
  have hword : words w = [w] := words_eq_singleton hw.ne_nil hw.solid
  cases rest with
  | nil => rw [List.append_nil, hword, words_nil]
  | cons b rest =>
    have hb : isBlank b = true := hrest b rfl
    rw [words_append_cons hb, hword]
    exact congrArg (w :: ·) (words_append_cons hb [] rest).symm

/-- Behind its leading blanks, a text is empty or begins with a word. -/
theorem exists_word_of_not_blanks (h : ¬ Blanks cs) :
    ∃ before w rest, cs = before ++ w ++ rest ∧ Blanks before ∧ IsWord w ∧
      ∀ c ∈ rest.head?, isBlank c = true := by
  have hsplit : cs.takeWhile isBlank ++ cs.dropWhile isBlank = cs := List.takeWhile_append_dropWhile
  have hbefore : Blanks (cs.takeWhile isBlank) := fun c hc => List.mem_takeWhile_imp hc
  have hhead := head?_dropWhile_isBlank cs
  cases hs : cs.dropWhile isBlank with
  | nil =>
    rw [hs, List.append_nil] at hsplit
    exact absurd (hsplit ▸ hbefore) h
  | cons c solid =>
    have hc : (!isBlank c) = true := by
      rw [hs] at hhead
      rw [hhead c rfl]
      rfl
    refine ⟨cs.takeWhile isBlank, (c :: solid).takeWhile (!isBlank ·),
      (c :: solid).dropWhile (!isBlank ·), ?_, hbefore, ⟨?_, ?_⟩, ?_⟩
    · rw [List.append_assoc, List.takeWhile_append_dropWhile, ← hs, hsplit]
    · rw [List.takeWhile_cons, if_pos hc]
      exact List.cons_ne_nil _ _
    · intro x hx
      simpa using List.mem_takeWhile_imp hx
    · intro x hx
      have hnot := List.head?_dropWhile_not (!isBlank ·) (c :: solid)
      rw [Option.mem_def] at hx
      simpa [hx] using hnot

/-- A text without words is blank. -/
theorem words_eq_nil_iff : words cs = [] ↔ Blanks cs := by
  constructor
  · intro h
    refine Decidable.byContradiction fun hnot => ?_
    obtain ⟨before, w, rest, rfl, hbefore, hw, hrest⟩ := exists_word_of_not_blanks hnot
    rw [List.append_assoc, words_blanks_append hbefore, words_word_append hw hrest] at h
    exact List.cons_ne_nil _ _ h
  · intro h
    have := words_blanks_append h []
    rwa [List.append_nil] at this

/-- **The first word of a text** stands behind blanks and ends where a blank begins. -/
theorem words_eq_cons_iff :
    words cs = w :: ws ↔ ∃ before rest, cs = before ++ w ++ rest ∧ Blanks before ∧ IsWord w ∧
      (∀ c ∈ rest.head?, isBlank c = true) ∧ words rest = ws := by
  constructor
  · intro h
    have hnot : ¬ Blanks cs := fun hblank =>
      List.cons_ne_nil w ws (h.symm.trans (words_eq_nil_iff.mpr hblank))
    obtain ⟨before, w', rest, rfl, hbefore, hw, hrest⟩ := exists_word_of_not_blanks hnot
    rw [List.append_assoc, words_blanks_append hbefore, words_word_append hw hrest] at h
    obtain ⟨rfl, rfl⟩ := List.cons.inj h
    exact ⟨before, rest, rfl, hbefore, hw, hrest, rfl⟩
  · intro h
    obtain ⟨before, rest, rfl, hbefore, hw, hrest, rfl⟩ := h
    rw [List.append_assoc, words_blanks_append hbefore, words_word_append hw hrest]

/-- Two words stand among blanks, one of which at least parts them. -/
theorem words_eq_pair_iff {v : List Char} :
    words cs = [v, w] ↔ ∃ before gap after, cs = before ++ v ++ gap ++ w ++ after ∧
      Blanks before ∧ IsWord v ∧ Blanks gap ∧ gap ≠ [] ∧ IsWord w ∧ Blanks after := by
  constructor
  · intro h
    obtain ⟨before, rest, rfl, hbefore, hv, hrest, h⟩ := words_eq_cons_iff.mp h
    obtain ⟨gap, after, rfl, hgap, hw, -, h⟩ := words_eq_cons_iff.mp h
    refine ⟨before, gap, after, by simp, hbefore, hv, hgap, ?_, hw, words_eq_nil_iff.mp h⟩
    rintro rfl
    -- with no gap the second word would begin with a blank
    obtain ⟨c, w, rfl⟩ := List.exists_cons_of_ne_nil hw.ne_nil
    have hblank : isBlank c = true := hrest c rfl
    rw [hw.solid c List.mem_cons_self] at hblank
    exact Bool.noConfusion hblank
  · intro h
    obtain ⟨before, gap, after, rfl, hbefore, hv, hgap, hne, hw, hafter⟩ := h
    obtain ⟨b, gap, rfl⟩ := List.exists_cons_of_ne_nil hne
    have hb : isBlank b = true := hgap b List.mem_cons_self
    have hsecond : words (w ++ after) = [w] := by
      rw [words_append_blanks hafter, words_eq_singleton hw.ne_nil hw.solid]
    refine words_eq_cons_iff.mpr ⟨before, b :: gap ++ (w ++ after), by simp, hbefore, hv, ?_, ?_⟩
    · intro c hc
      obtain rfl : b = c := Option.some.inj hc
      exact hb
    · rw [words_blanks_append hgap, hsecond]

/-- Trimming loses no word. -/
theorem words_trim (cs : List Char) : words (trim cs) = words cs := by
  have hstart : words (trimStart cs) = words cs := by
    have hblanks : Blanks (cs.takeWhile isBlank) := fun c hc => List.mem_takeWhile_imp hc
    have h := words_blanks_append hblanks (cs.dropWhile isBlank)
    rw [List.takeWhile_append_dropWhile] at h
    exact h.symm
  have hend : ∀ cs, words (trimEnd cs) = words cs := by
    intro cs
    have hblanks : Blanks (cs.reverse.takeWhile isBlank).reverse := fun c hc =>
      List.mem_takeWhile_imp (List.mem_reverse.mp hc)
    have h := words_append_blanks hblanks (trimEnd cs)
    rw [trimEnd, ← List.reverse_append, List.takeWhile_append_dropWhile, List.reverse_reverse] at h
    exact h.symm
  rw [trim, hend, hstart]

/-! ## 2. Numbers -/

/-- A number in decimal: digits of that value, leading zeros among them, behind a plus sign or
    not. -/
def Decimal (cs : List Char) (n : Nat) : Prop :=
  ∃ digits, (cs = digits ∨ cs = '+' :: digits) ∧ digits ≠ [] ∧
    (∀ c ∈ digits, c.isDigit = true) ∧ Nat.ofDigitChars 10 digits 0 = n

theorem le_ofDigitChars (cs : List Char) (n : Nat) : n ≤ Nat.ofDigitChars 10 cs n := by
  induction cs generalizing n with
  | nil => exact Nat.le_refl n
  | cons c cs ih =>
    rw [Nat.ofDigitChars_cons]
    exact Nat.le_trans (by omega) (ih _)

/-- Digits are read as long as what they stand for fits. -/
theorem readDigits_eq_ok_iff {n m : Nat} (hn : n ≤ maxNumber) :
    readDigits n cs = .ok m ↔
      (∀ c ∈ cs, c.isDigit = true) ∧ Nat.ofDigitChars 10 cs n = m ∧ m ≤ maxNumber := by
  induction cs generalizing n with
  | nil =>
    rw [readDigits, Except.ok.injEq, Nat.ofDigitChars_nil]
    exact ⟨fun e => ⟨fun c hc => absurd hc List.not_mem_nil, e, e ▸ hn⟩, fun h => h.2.1⟩
  | cons c cs ih =>
    have hvalue : 10 * n + (c.toNat - '0'.toNat) = 10 * n + digitValue c := rfl
    rw [readDigits, Nat.ofDigitChars_cons, hvalue, List.forall_mem_cons]
    cases hd : c.isDigit with
    | false => simp
    | true =>
      by_cases hle : 10 * n + digitValue c ≤ maxNumber
      · rw [if_pos rfl, if_pos hle, ih hle, and_assoc, and_iff_right rfl]
      · rw [if_pos rfl, if_neg hle]
        constructor
        · intro h
          cases h
        · intro h
          refine absurd ?_ hle
          -- a value only grows with more digits
          calc
            10 * n + digitValue c ≤ Nat.ofDigitChars 10 cs (10 * n + digitValue c) :=
              le_ofDigitChars cs _
            _ ≤ maxNumber := h.2.1 ▸ h.2.2

/-- **Read as numbers are the decimal numbers that fit.** -/
theorem readNumber_eq_ok_iff {n : Nat} :
    readNumber cs = .ok n ↔ Decimal cs n ∧ n ≤ maxNumber := by
  have hdigits : ∀ {digits : List Char}, digits ≠ [] →
      (readDigits 0 digits = .ok n ↔ (digits ≠ [] ∧ (∀ c ∈ digits, c.isDigit = true) ∧
        Nat.ofDigitChars 10 digits 0 = n) ∧ n ≤ maxNumber) := fun hne => by
    rw [readDigits_eq_ok_iff (Nat.zero_le _), and_iff_right hne, and_assoc]
  unfold readNumber
  split
  · refine iff_of_false nofun ?_
    intro h
    obtain ⟨⟨digits, rfl | h, hne, -⟩, -⟩ := h
    · exact hne rfl
    · exact absurd h nofun
  · next c cs =>
    rw [hdigits (List.cons_ne_nil c cs)]
    refine and_congr_left fun _ => ⟨fun h => ⟨_, Or.inr rfl, h⟩, ?_⟩
    intro h
    obtain ⟨digits, rfl | h, hdigit⟩ := h
    · exact absurd (hdigit.2.1 '+' List.mem_cons_self) (by decide)
    · exact (List.cons.inj h).2 ▸ hdigit
  · next hne hplus =>
    rw [hdigits hne]
    refine and_congr_left fun _ => ⟨fun h => ⟨cs, Or.inl rfl, h⟩, ?_⟩
    intro h
    obtain ⟨digits, rfl | rfl, hdigit⟩ := h
    · exact hdigit
    · obtain ⟨d, digits, rfl⟩ := List.exists_cons_of_ne_nil hdigit.1
      exact absurd rfl (hplus d digits)

/-- The plain decimal text of a number is one of its decimal forms. -/
theorem decimal_toDigits (n : Nat) : Decimal (Nat.toDigits 10 n) n :=
  ⟨_, Or.inl rfl, Nat.toDigits_ne_nil,
    fun _ hc => Nat.isDigit_of_mem_toDigits (by decide) (by decide) hc,
    Nat.ofDigitChars_ten_toDigits⟩

/-! ## 3. Spellings -/

/-- **A spelling is found in a table** that gives one value to all spellings of a text. -/
theorem readSpelling_eq_some_iff {α : Type} {table : List (String × α)}
    (htable : ∀ e ∈ table, ∀ e' ∈ table, foldCase e.1 = foldCase e'.1 → e.2 = e'.2)
    {s : String} {a : α} :
    readSpelling table s = some a ↔ ∃ word, (word, a) ∈ table ∧ foldCase word = foldCase s := by
  rw [readSpelling, Option.map_eq_some_iff]
  constructor
  · intro h
    obtain ⟨⟨word, a⟩, hfound, rfl⟩ := h
    have hword := List.find?_some hfound
    exact ⟨word, List.mem_of_find?_eq_some hfound, caseless_iff.mp hword⟩
  · intro h
    obtain ⟨word, hmem, hword⟩ := h
    cases hfound : table.find? fun entry => caseless entry.1 s with
    | none => exact absurd (caseless_iff.mpr hword) (List.find?_eq_none.mp hfound _ hmem)
    | some e =>
      have he := List.find?_some hfound
      have hsame : foldCase e.1 = foldCase word := (caseless_iff.mp he).trans hword.symm
      exact ⟨e, rfl, htable e (List.mem_of_find?_eq_some hfound) _ hmem hsame⟩

/-- No visible character of ASCII is blank. -/
theorem isBlank_of_visible {c : Char} (hlow : 33 ≤ c.toNat) (hhigh : c.toNat ≤ 126) :
    isBlank c = false := by
  refine Bool.eq_false_iff.mpr fun hb => ?_
  simp only [isBlank, blankRanges, List.any_cons, List.any_nil, Bool.or_eq_true, Bool.and_eq_true,
    decide_eq_true_eq, Bool.false_eq_true, or_false] at hb
  omega

theorem isBlank_of_isDigit {c : Char} (h : c.isDigit = true) : isBlank c = false := by
  rw [Char.isDigit, Bool.and_eq_true, decide_eq_true_eq, decide_eq_true_eq] at h
  have hlow : 48 ≤ c.toNat := UInt32.le_iff_toNat_le.mp h.1
  have hhigh : c.toNat ≤ 57 := UInt32.le_iff_toNat_le.mp h.2
  exact isBlank_of_visible (by omega) (by omega)

/-- Only letters have two cases. -/
theorem toLower_of_isBlank {c : Char} (h : isBlank c = true) : c.toLower = c := by
  refine dif_neg fun hcapital => ?_
  have hlow : 65 ≤ c.toNat := UInt32.le_iff_toNat_le.mp hcapital.1
  have hhigh : c.toNat ≤ 90 := UInt32.le_iff_toNat_le.mp hcapital.2
  rw [isBlank_of_visible (by omega) (by omega)] at h
  exact Bool.noConfusion h

end Text

namespace Script

open Text

/-! ## 4. What is written -/

/-- The words for an action, in small letters. -/
def verbs : Action → List String
  | .press => ["press", "down"]
  | .release => ["release", "up"]
  | .repeat => ["repeat"]

/-- Two words that stand for a step. An action may be written in capitals and small letters, a wait
    may not; what an input is named by has neither a blank nor a comment in it. -/
inductive Step.Spelled : List Char → List Char → Step → Prop
  | input {verb argument : List Char} {action : Action} {word : String} :
    word ∈ verbs action → verb.map Char.toLower = word.toList → IsWord argument →
    '#' ∉ argument → Spelled verb argument (.input action (String.ofList argument))
  | wait {argument : List Char} {duration : Nat} :
    Decimal argument duration → duration ≤ maxNumber →
    Spelled ['w', 'a', 'i', 't'] argument (.wait duration)

/-- What may stand around the words of a line: any blanks that do not end the line. -/
def Padding (cs : List Char) : Prop := ∀ c ∈ cs, isBlank c = true ∧ c ≠ '\n'

/-- What may stand behind the words of a line: nothing, or a comment. -/
inductive Comment : List Char → Prop
  | none : Comment []
  | some {text : List Char} : '\n' ∉ text → Comment ('#' :: text)

/-- A line, and the step it stands for if it stands for one. -/
inductive LineWritten : List Char → Option Step → Prop
  | skipped {padding comment : List Char} : Padding padding → Comment comment →
    LineWritten (padding ++ comment) none
  | step {before verb gap argument after comment : List Char} {step : Step} :
    Padding before → Step.Spelled verb argument step → Padding gap → gap ≠ [] → Padding after →
    Comment comment →
    LineWritten (before ++ verb ++ gap ++ argument ++ after ++ comment) (some step)

/-- A text and the steps that it stands for, line by line. The last line may be left unended; if it
    is ended, an empty one comes after it. -/
inductive Written : List Char → List Step → Prop
  | last {line : List Char} {step? : Option Step} : LineWritten line step? →
    Written line step?.toList
  | line {line ending rest : List Char} {step? : Option Step} {steps : List Step} :
    LineWritten line step? → ending = ['\n'] ∨ ending = ['\r', '\n'] → Written rest steps →
    Written (line ++ ending ++ rest) (step?.toList ++ steps)

/-! ## 5. Steps -/

variable {verb argument line : List Char} {step : Step} {step? : Option Step}

theorem mem_spellings_iff {word : String} {action : Action} :
    (word, action) ∈ Action.spellings ↔ word ∈ verbs action := by
  cases action <;> simp [Action.spellings, verbs]

theorem foldCase_of_mem_verbs {action : Action} :
    ∀ word ∈ verbs action, foldCase word = word.toList := by
  cases action <;> decide

/-- The reader of actions knows these words, in any case. -/
theorem actionOfText?_eq_some_iff {action : Action} :
    Action.ofText? (String.ofList verb) = some action ↔
      ∃ word ∈ verbs action, verb.map Char.toLower = word.toList := by
  rw [Action.ofText?, readSpelling_eq_some_iff (by decide)]
  refine exists_congr fun word => ?_
  rw [mem_spellings_iff]
  refine and_congr_right fun hword => ?_
  rw [foldCase_of_mem_verbs word hword, foldCase, String.toList_ofList, eq_comm]

/-- No word for an action has a blank or a comment in it. -/
theorem solid_of_mem_verbs {action : Action} {word : String} (h : word ∈ verbs action)
    (hverb : verb.map Char.toLower = word.toList) : IsWord verb ∧ '#' ∉ verb := by
  have hsolid : ∀ action, ∀ word ∈ verbs action, IsWord word.toList ∧ '#' ∉ word.toList := by
    intro action
    cases action <;> decide
  obtain ⟨hword, hhash⟩ := hsolid action word h
  rw [← hverb] at hword hhash
  refine ⟨⟨fun e => hword.ne_nil (List.map_eq_nil_iff.mpr e),
      fun c hc => Bool.eq_false_iff.mpr fun hb => ?_⟩,
    fun hmem => hhash (List.mem_map.mpr ⟨'#', hmem, rfl⟩)⟩
  have hlow := hword.solid c.toLower (List.mem_map_of_mem hc)
  rw [toLower_of_isBlank hb, hb] at hlow
  exact Bool.noConfusion hlow

theorem isWord_of_decimal {n : Nat} (h : Decimal argument n) :
    IsWord argument ∧ '#' ∉ argument := by
  have hdigit : ∀ {c : Char}, c.isDigit = true → isBlank c = false ∧ c ≠ '#' := fun hc =>
    ⟨isBlank_of_isDigit hc, by rintro rfl; exact absurd hc (by decide)⟩
  have hsolid : ∀ c ∈ argument, isBlank c = false ∧ c ≠ '#' := by
    intro c hc
    obtain ⟨digits, rfl | rfl, -, hdigits, -⟩ := h
    · exact hdigit (hdigits c hc)
    · rcases List.mem_cons.mp hc with rfl | hc
      · decide
      · exact hdigit (hdigits c hc)
  refine ⟨⟨?_, fun c hc => (hsolid c hc).1⟩, fun hmem => (hsolid _ hmem).2 rfl⟩
  obtain ⟨digits, rfl | rfl, hne, -⟩ := h
  · exact hne
  · exact List.cons_ne_nil _ _

/-- Words that stand for a step are words, and no comment begins in them. -/
theorem Step.Spelled.isWord (h : Step.Spelled verb argument step) :
    (IsWord verb ∧ '#' ∉ verb) ∧ IsWord argument ∧ '#' ∉ argument := by
  cases h with
  | input hword hverb hargument hhash => exact ⟨solid_of_mem_verbs hword hverb, hargument, hhash⟩
  | wait hdecimal hle => exact ⟨⟨by decide, by decide⟩, isWord_of_decimal hdecimal⟩

/-- **The reader gives the step that two words stand for.** -/
theorem readStep_eq_ok_iff (hargument : IsWord argument) (hhash : '#' ∉ argument) :
    readStep verb argument = .ok step ↔ Step.Spelled verb argument step := by
  constructor
  · intro h
    rw [readStep] at h
    split at h
    · next hwait =>
      split at h
      · exact absurd h nofun
      · next duration hn =>
        obtain rfl := Except.ok.inj h
        obtain ⟨hdecimal, hle⟩ := readNumber_eq_ok_iff.mp hn
        exact hwait ▸ .wait hdecimal hle
    · split at h
      · exact absurd h nofun
      · next action ha =>
        obtain rfl := Except.ok.inj h
        obtain ⟨word, hword, hverb⟩ := actionOfText?_eq_some_iff.mp ha
        exact .input hword hverb hargument hhash
  · intro h
    cases h with
    | input hword hverb _ _ =>
      have ha := actionOfText?_eq_some_iff.mpr ⟨_, hword, hverb⟩
      have hnot : verb ≠ waitWord := by
        rintro rfl
        have hnone : Action.ofText? (String.ofList waitWord) = none := by decide
        exact Option.some_ne_none _ (ha.symm.trans hnone)
      rw [readStep, if_neg hnot, ha]
    | wait hdecimal hle =>
      show readStep waitWord argument = _
      rw [readStep, if_pos rfl, readNumber_eq_ok_iff.mpr ⟨hdecimal, hle⟩]

/-! ## 6. Lines -/

theorem Padding.blanks {cs : List Char} (h : Padding cs) : Blanks cs := fun c hc => (h c hc).1

theorem Padding.hash_notMem {cs : List Char} (h : Padding cs) : '#' ∉ cs := fun hmem =>
  absurd (h _ hmem).1 (by decide)

theorem newline_notMem_of_isWord {cs : List Char} (h : IsWord cs) : '\n' ∉ cs := fun hmem =>
  absurd (h.solid _ hmem) (by decide)

theorem Comment.newline_notMem {cs : List Char} (h : Comment cs) : '\n' ∉ cs := by
  cases h with
  | none => exact List.not_mem_nil
  | some htext => exact List.not_mem_cons_of_ne_of_not_mem (by decide) htext

/-- A line is one line. -/
theorem LineWritten.newline_notMem (h : LineWritten line step?) : '\n' ∉ line := by
  have hpadding : ∀ {cs : List Char}, Padding cs → '\n' ∉ cs := fun h hmem => (h _ hmem).2 rfl
  cases h with
  | skipped hp hc =>
    rw [List.mem_append, not_or]
    exact ⟨hpadding hp, hc.newline_notMem⟩
  | step hbefore hspelled hgap hne hafter hc =>
    obtain ⟨⟨hverb, -⟩, hargument, -⟩ := hspelled.isWord
    simp only [List.mem_append, not_or]
    exact ⟨⟨⟨⟨⟨hpadding hbefore, newline_notMem_of_isWord hverb⟩, hpadding hgap⟩,
      newline_notMem_of_isWord hargument⟩, hpadding hafter⟩, hc.newline_notMem⟩

/-- What a line says ends where its comment begins. -/
theorem words_content_append {body comment : List Char} (hbody : '#' ∉ body)
    (hcomment : Comment comment) : words (content (body ++ comment)) = words body := by
  have htake : (body ++ comment).takeWhile (· ≠ '#') = body := by
    have hall : ∀ c ∈ body, decide (c ≠ '#') = true := fun c hc =>
      decide_eq_true fun e => hbody (e ▸ hc)
    rw [List.takeWhile_append_of_pos hall]
    cases hcomment with
    | none => exact List.append_nil _
    | some _ => exact List.append_nil _
  rw [content, htake, words_trim]

/-- A line is what it says, and then nothing or a comment. -/
theorem exists_comment (h : '\n' ∉ line) :
    ∃ body comment, line = body ++ comment ∧ '#' ∉ body ∧ Comment comment := by
  refine ⟨line.takeWhile (· ≠ '#'), line.dropWhile (· ≠ '#'),
    List.takeWhile_append_dropWhile.symm, fun hmem => ?_, ?_⟩
  · exact absurd (List.mem_takeWhile_imp hmem) (by decide)
  · have hsub : line.dropWhile (· ≠ '#') ⊆ line := (List.dropWhile_sublist _).subset
    have hhead := List.head?_dropWhile_not (fun c => decide (c ≠ '#')) line
    cases hd : line.dropWhile (· ≠ '#') with
    | nil => exact .none
    | cons c text =>
      rw [hd] at hsub hhead
      obtain rfl : c = '#' := by simpa using hhead
      exact .some fun hmem => h (hsub (List.mem_cons_of_mem _ hmem))

/-- **The reader reads a line as it is written.** -/
theorem readLine_eq_ok_iff (h : '\n' ∉ line) :
    readLine line = .ok step? ↔ LineWritten line step? := by
  constructor
  · intro hread
    obtain ⟨body, comment, rfl, hhash, hcomment⟩ := exists_comment h
    have hline : ∀ c ∈ body, c ≠ '\n' := fun c hc e => h (List.mem_append_left _ (e ▸ hc))
    rw [readLine, words_content_append hhash hcomment] at hread
    split at hread
    · next hwords =>
      obtain rfl := Except.ok.inj hread
      exact .skipped (fun c hc => ⟨words_eq_nil_iff.mp hwords c hc, hline c hc⟩) hcomment
    · exact absurd hread nofun
    · next verb argument hwords =>
      obtain ⟨before, gap, after, rfl, hbefore, -, hgap, hne, hargument, hafter⟩ :=
        words_eq_pair_iff.mp hwords
      simp only [List.mem_append, not_or] at hhash
      simp only [List.mem_append] at hline
      cases hs : readStep verb argument with
      | error reason =>
        rw [hs] at hread
        exact absurd hread nofun
      | ok step =>
        rw [hs] at hread
        obtain rfl := Except.ok.inj hread
        refine .step (fun c hc => ⟨hbefore c hc, hline c (by simp [hc])⟩)
          ((readStep_eq_ok_iff hargument hhash.1.2).mp hs)
          (fun c hc => ⟨hgap c hc, hline c (by simp [hc])⟩) hne
          (fun c hc => ⟨hafter c hc, hline c (by simp [hc])⟩) hcomment
    · exact absurd hread nofun
  · intro hwritten
    cases hwritten with
    | skipped hp hc =>
      rw [readLine, words_content_append hp.hash_notMem hc, words_eq_nil_iff.mpr hp.blanks]
    | @step before verb gap argument after comment step hbefore hspelled hgap hne hafter hc =>
      obtain ⟨⟨hverb, hv⟩, hargument, ha⟩ := hspelled.isWord
      have hbody : '#' ∉ before ++ verb ++ gap ++ argument ++ after := by
        simp only [List.mem_append, not_or]
        exact ⟨⟨⟨⟨hbefore.hash_notMem, hv⟩, hgap.hash_notMem⟩, ha⟩, hafter.hash_notMem⟩
      have hwords : words (before ++ verb ++ gap ++ argument ++ after) = [verb, argument] :=
        words_eq_pair_iff.mpr ⟨before, gap, after, rfl, hbefore.blanks, hverb, hgap.blanks, hne,
          hargument, hafter.blanks⟩
      have hread : readStep verb argument = .ok step :=
        (readStep_eq_ok_iff hargument ha).mpr hspelled
      rw [readLine, words_content_append hbody hc, hwords]
      exact congrArg (Except.map some) hread

/-! ## 7. Texts -/

/-- A carriage return at the end belongs to the blanks or to the comment there. -/
theorem LineWritten.concat_return (h : LineWritten line step?) :
    LineWritten (line ++ ['\r']) step? := by
  have htail : ∀ {after comment : List Char}, Padding after → Comment comment →
      ∃ after' comment', Padding after' ∧ Comment comment' ∧
        after ++ comment ++ ['\r'] = after' ++ comment' := by
    intro after comment hafter hcomment
    cases hcomment with
    | none =>
      refine ⟨after ++ ['\r'], [], fun c hc => ?_, .none, by simp⟩
      rcases List.mem_append.mp hc with hc | hc
      · exact hafter c hc
      · rw [List.mem_singleton.mp hc]
        decide
    | @some text htext =>
      refine ⟨after, '#' :: (text ++ ['\r']), hafter, .some ?_, by simp⟩
      rw [List.mem_append, not_or]
      exact ⟨htext, by decide⟩
  cases h with
  | skipped hp hc =>
    obtain ⟨after, comment, hafter, hcomment, he⟩ := htail hp hc
    exact he ▸ .skipped hafter hcomment
  | @step before verb gap argument after comment step hbefore hspelled hgap hne hafter hc =>
    obtain ⟨after', comment', hafter', hcomment', he⟩ := htail hafter hc
    have hline : before ++ verb ++ gap ++ argument ++ after ++ comment ++ ['\r'] =
        before ++ verb ++ gap ++ argument ++ after' ++ comment' := by
      rw [List.append_assoc _ after comment, List.append_assoc _ (after ++ comment), he,
        ← List.append_assoc]
    exact hline ▸ .step hbefore hspelled hgap hne hafter' hcomment'

/-- **Two scripts one after the other are a script**, with a line feed between them. -/
theorem Written.append {as bs : List Char} {xs ys : List Step} (has : Written as xs)
    (hbs : Written bs ys) : Written (as ++ '\n' :: bs) (xs ++ ys) := by
  induction has with
  | last hline =>
    have h := Written.line hline (Or.inl rfl) hbs
    rwa [List.append_assoc] at h
  | line hline hending _ ih =>
    have h := Written.line hline hending ih
    rwa [← List.append_assoc, ← List.append_assoc] at h

theorem lines_of_newline_notMem (h : '\n' ∉ line) : lines line = [line] :=
  cut_eq_singleton fun _ hc => beq_eq_false_iff_ne.mpr fun e => h (e ▸ hc)

theorem lines_append (as bs : List Char) : lines (as ++ '\n' :: bs) = lines as ++ lines bs :=
  cut_append rfl as bs

/-- Lines that are read are written as the steps they give. -/
theorem written_of_readLines {cs : List Char} {number : Nat} {steps : List Step}
    (h : readLines number (lines cs) = .ok steps) : Written cs steps := by
  induction cs using separated_induction (p := (· == '\n')) generalizing number steps with
  | piece cs hcs =>
    have hline : '\n' ∉ cs := fun hmem => absurd (hcs _ hmem) (by decide)
    rw [lines_of_newline_notMem hline, readLines] at h
    split at h
    · cases h
    · next step? hread =>
      obtain rfl := Except.ok.inj h
      show Written cs (step?.toList ++ [])
      rw [List.append_nil]
      exact .last ((readLine_eq_ok_iff hline).mp hread)
  | append as s bs hs iha ihb =>
    obtain rfl : s = '\n' := beq_iff_eq.mp hs
    rw [lines_append, readLines_append] at h
    split at h
    · cases h
    · next xs hxs =>
      cases hys : readLines (number + (lines as).length) (lines bs) with
      | error e =>
        rw [hys] at h
        cases h
      | ok ys =>
        rw [hys] at h
        obtain rfl := Except.ok.inj h
        exact (iha hxs).append (ihb hys)

/-- Steps that are written are read, whatever number the first line has. -/
theorem Written.readLines {cs : List Char} {steps : List Step} (h : Written cs steps)
    (number : Nat) : readLines number (lines cs) = .ok steps := by
  have hone : ∀ {line : List Char} {step? : Option Step}, LineWritten line step? → ∀ number,
      Script.readLines number (lines line) = .ok step?.toList := by
    intro line step? hline number
    rw [lines_of_newline_notMem hline.newline_notMem, Script.readLines,
      (readLine_eq_ok_iff hline.newline_notMem).mpr hline]
    exact congrArg Except.ok (List.append_nil _)
  induction h generalizing number with
  | last hline => exact hone hline number
  | @line line ending rest step? steps hline hending _ ih =>
    obtain ⟨whole, hwhole, he⟩ : ∃ whole, LineWritten whole step? ∧
        line ++ ending ++ rest = whole ++ '\n' :: rest := by
      rcases hending with rfl | rfl
      · exact ⟨line, hline, by simp⟩
      · exact ⟨line ++ ['\r'], hline.concat_return, by simp⟩
    rw [he, lines_append, readLines_append, hone hwhole]
    show (Script.readLines _ (lines rest)).map _ = _
    rw [ih]
    rfl

/-- **The reader gives steps exactly for the texts that write them.** -/
theorem ofText_eq_ok_iff {text : String} {steps : List Step} :
    ofText text = .ok steps ↔ Written text.toList steps :=
  ⟨written_of_readLines, fun h => h.readLines 1⟩

/-! ## 8. Steps that can be written -/

/-- A step can be written when its input is a word without a comment in it, and its wait fits into
    64 bits. -/
def Step.Writable : Step → Prop
  | .input _ name => IsWord name.toList ∧ '#' ∉ name.toList
  | .wait duration => duration ≤ maxNumber

theorem Step.Spelled.writable (h : Step.Spelled verb argument step) : step.Writable := by
  cases h with
  | input _ _ hargument hhash =>
    rw [Step.Writable, String.toList_ofList]
    exact ⟨hargument, hhash⟩
  | wait _ hle => exact hle

theorem Step.Writable.exists_spelled (h : step.Writable) :
    ∃ verb argument, Step.Spelled verb argument step := by
  cases step with
  | input action name =>
    obtain ⟨word, hword⟩ : ∃ word, word ∈ verbs action := by
      cases action <;> exact ⟨_, List.mem_cons_self⟩
    have h := Step.Spelled.input hword (foldCase_of_mem_verbs word hword) h.1 h.2
    rw [String.ofList_toList] at h
    exact ⟨_, _, h⟩
  | wait duration => exact ⟨_, _, .wait (decimal_toDigits duration) h⟩

/-- Only steps that can be written are. -/
theorem Written.writable {cs : List Char} {steps : List Step} (h : Written cs steps) :
    ∀ step ∈ steps, step.Writable := by
  have hone : ∀ {line : List Char} {step? : Option Step}, LineWritten line step? →
      ∀ step ∈ step?.toList, step.Writable := by
    intro line step? hline step hmem
    cases hline with
    | skipped _ _ => exact absurd hmem List.not_mem_nil
    | step _ hspelled _ _ _ _ =>
      rw [List.mem_singleton.mp hmem]
      exact hspelled.writable
  induction h with
  | last hline => exact hone hline
  | line hline _ _ ih =>
    intro step hmem
    rcases List.mem_append.mp hmem with hmem | hmem
    · exact hone hline step hmem
    · exact ih step hmem

/-- And each list of them is, one step to a line. -/
theorem exists_written {steps : List Step} (h : ∀ step ∈ steps, step.Writable) :
    ∃ cs, Written cs steps := by
  have hempty : Padding [] := fun c hc => absurd hc List.not_mem_nil
  have hspace : Padding [' '] := by
    intro c hc
    rw [List.mem_singleton.mp hc]
    decide
  induction steps with
  | nil => exact ⟨_, .last (.skipped hempty .none)⟩
  | cons step steps ih =>
    obtain ⟨verb, argument, hspelled⟩ := (h step List.mem_cons_self).exists_spelled
    obtain ⟨rest, hrest⟩ := ih fun s hs => h s (List.mem_cons_of_mem step hs)
    have hline := LineWritten.step hempty hspelled hspace (List.cons_ne_nil _ _) hempty .none
    exact ⟨_, .line hline (Or.inl rfl) hrest⟩

/-- **A script reads as it is written.** Whatever spellings, blanks, comments, skipped lines and
    line ends a text chooses, reading it gives the steps it writes; no other text gives them; and
    the steps that some text gives are those whose inputs are words without a comment and whose
    waits fit. -/
theorem reads_as_written (steps : List Step) :
    (∀ text : String, ofText text = .ok steps ↔ Written text.toList steps) ∧
      ((∃ text : String, ofText text = .ok steps) ↔ ∀ step ∈ steps, step.Writable) := by
  refine ⟨fun text => ofText_eq_ok_iff, ?_, fun h => ?_⟩
  · intro h
    obtain ⟨text, htext⟩ := h
    exact (ofText_eq_ok_iff.mp htext).writable
  · obtain ⟨cs, hcs⟩ := exists_written h
    refine ⟨String.ofList cs, ofText_eq_ok_iff.mpr ?_⟩
    rwa [String.toList_ofList]

/-- Capitals, a tabulator, a plus sign before zeros, both line ends, a comment right behind a word
    and a line of blanks. -/
example :
    ofText "\t dOwN\u00a0KeyA#x\r\n \r\n#press\nwait +007\r" =
      .ok [.input .press "KeyA", .wait 7] := by decide

end Script

end KeyBindings
