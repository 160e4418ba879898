import KeyBindings.Proofs.Standing
import KeyBindings.Proofs.Tokens

/-!
# The grammar of a binding's text

A text is read character by character, with a name and a chord open. What comes out can be said in
two ways that know nothing of that.

By CUTS: the text is cut at every arrow and each part at every plus sign; the pieces are trimmed,
what is left empty is dropped, and a name that a part repeats counts once.

By LAWS: an arrow puts the chords of two texts one after the other, and a run of delimiters and
blanks counts as an arrow if it has one, and as a plus sign otherwise. No state of the reader leaks
through such a run, since what it adds to the tokens is delimiters alone
(`DelimiterRun.scan_append`), and these do no more than close the open chord or leave it open
(`chords_ofTokens_around_arrow`, `ofTokens_around_pluses`).

* **`Pattern.toLists_ofText_eq_cuts`**: the grammar by cuts;
* **`Pattern.delimiter_runs_collapse`**: the laws.
-/

namespace KeyBindings

/-! ## 1. Cuts -/

/-- The pieces of a text are those of the cut that lists have. -/
theorem Text.cut_eq_splitOnP (p : Char → Bool) (cs : List Char) : cut p cs = cs.splitOnP p := by
  induction cs using separated_induction (p := p) with
  | piece cs hcs =>
    rw [cut_eq_singleton hcs, List.splitOnP_eq_singleton]
    exact hcs
  | append as s bs hs iha ihb =>
    rw [cut_append hs, iha, ihb, List.splitOnP_append_cons as bs hs]

theorem Text.cut_eq_splitOn (s : Char) (cs : List Char) : cut (· == s) cs = cs.splitOn s :=
  cut_eq_splitOnP (· == s) cs

namespace Pattern

/-- The names in some pieces are what trimming leaves of them, if anything. -/
theorem filterMap_nameIn (pieces : List (List Char)) :
    pieces.filterMap nameIn =
      ((pieces.map Text.trim).filter (· ≠ [])).map String.ofList := by
  induction pieces with
  | nil => rfl
  | cons piece pieces ih =>
    rw [List.map_cons]
    by_cases h : Text.trim piece = []
    · have hnone : nameIn piece = none := if_pos h
      rw [List.filterMap_cons_none hnone, List.filter_cons_of_neg (by simp [h]), ih]
    · have hsome : nameIn piece = some (String.ofList (Text.trim piece)) := if_neg h
      rw [List.filterMap_cons_some hsome, List.filter_cons_of_pos (by simp [h]), List.map_cons, ih]

/-- The members of a pattern made of chords are those of the chords that have any. -/
theorem toLists_ofChords (chords : List Chord) :
    (ofChords chords).toLists = (chords.map Chord.members).filter (· ≠ []) := by
  rw [List.filter_map]
  refine congrArg (List.map Chord.members) (List.filter_congr fun c _ => ?_)
  cases hc : c.members <;> simp [Chord.isEmpty, hc]

/-- **The grammar by cuts.** Cut a text at every arrow and each part at every plus sign, trim the
    pieces and drop the empty ones, keep each name of a part where it stands first, and drop the
    parts without names: these are the chords of the text, each with its members in that order. -/
theorem toLists_ofText_eq_cuts (binding : String) :
    let names (part : List Char) : List Input :=
      (((part.splitOn '+').map Text.trim).filter (· ≠ [])).map String.ofList
    (ofText binding).toLists =
      ((binding.toList.splitOn '>').map fun part => (names part).eraseDups).filter (· ≠ []) := by
  intro names
  have hmembers : ∀ part, (Chord.ofList (partNames part)).members = (names part).eraseDups := by
    intro part
    rw [Chord.members_ofList, partNames, Text.cut_eq_splitOn, filterMap_nameIn]
  have hchords : ofText binding =
      ofChords ((binding.toList.splitOn '>').map fun part => Chord.ofList (partNames part)) := by
    apply ext
    rw [chords_ofText, Text.cut_eq_splitOn]
    rfl
  rw [hchords, toLists_ofChords, List.map_map]
  exact congrArg _ (List.map_congr_left fun part _ => hmembers part)

/-- Blanks inside a name stay, a repeated name counts at its first place, and a part of delimiters
    alone is dropped. -/
example :
    (ofText " Page Up + KeyA +KeyA+ Page Up>+ > KeyA").toLists =
      [["Page Up", "KeyA"], ["KeyA"]] := by
  decide

/-! ## 2. Delimiters among tokens -/

variable {ds : List Token}

/-- An arrow puts the chords of two halves one after the other. -/
theorem chords_ofTokens_append_arrow (as bs : List Token) :
    (ofTokens (as ++ .arrow :: bs)).chords = (ofTokens as).chords ++ (ofTokens bs).chords := by
  rw [ofTokens, chordsFrom_append_arrow]
  exact List.filter_append ..

/-- A plus sign says nothing. -/
theorem ofTokens_append_plus (as bs : List Token) :
    ofTokens (as ++ .plus :: bs) = ofTokens (as ++ bs) := by
  have hchords : ∀ chord, chordsFrom chord (as ++ .plus :: bs) = chordsFrom chord (as ++ bs) := by
    induction as with
    | nil => exact fun _ => rfl
    | cons token as ih =>
      intro chord
      cases token with
      | plus => exact ih chord
      | arrow => exact congrArg (chord :: ·) (ih .empty)
      | name input => exact ih (chord.insert input)
  rw [ofTokens, hchords, ofTokens]

/-- In front of other tokens delimiters have no effect. -/
theorem ofTokens_delimiters_append (h : ∀ d ∈ ds, d.name? = none) (tokens : List Token) :
    ofTokens (ds ++ tokens) = ofTokens tokens := by
  induction ds with
  | nil => rfl
  | cons d ds ih =>
    rw [← ih fun x hx => h x (List.mem_cons_of_mem d hx)]
    cases d with
    | plus => exact ofTokens_append_plus [] (ds ++ tokens)
    | arrow => exact ext (chords_ofTokens_append_arrow [] (ds ++ tokens))
    | name input => exact absurd (h _ List.mem_cons_self) nofun

/-- Nor behind them. -/
theorem ofTokens_append_delimiters (h : ∀ d ∈ ds, d.name? = none) (tokens : List Token) :
    ofTokens (tokens ++ ds) = ofTokens tokens := by
  induction ds using List.reverseRecOn with
  | nil => rw [List.append_nil]
  | append_singleton ds d ih =>
    rw [← ih fun x hx => h x (List.mem_append_left _ hx), ← List.append_assoc]
    have hd := h d (List.mem_append_right _ (List.mem_singleton_self d))
    cases d with
    | plus => rw [ofTokens_append_plus, List.append_nil]
    | arrow => exact ext ((chords_ofTokens_append_arrow _ []).trans (List.append_nil _))
    | name input => exact absurd hd nofun

/-- **Delimiters with an arrow among them part the chords of the two sides**, as one arrow does. -/
theorem chords_ofTokens_around_arrow (h : ∀ d ∈ ds, d.name? = none) (harrow : .arrow ∈ ds)
    (as bs : List Token) :
    (ofTokens (as ++ ds ++ bs)).chords = (ofTokens as).chords ++ (ofTokens bs).chords := by
  obtain ⟨front, back, rfl⟩ := List.append_of_mem harrow
  have hfront : ∀ d ∈ front, d.name? = none := fun d hd => h d (List.mem_append_left _ hd)
  have hback : ∀ d ∈ back, d.name? = none := fun d hd =>
    h d (List.mem_append_right _ (List.mem_cons_of_mem _ hd))
  have hassoc : as ++ (front ++ .arrow :: back) ++ bs =
      (as ++ front) ++ .arrow :: (back ++ bs) := by simp
  rw [hassoc, chords_ofTokens_append_arrow, ofTokens_append_delimiters hfront,
    ofTokens_delimiters_append hback]

/-- **Delimiters without an arrow say nothing**, wherever they stand. -/
theorem ofTokens_around_pluses (h : ∀ d ∈ ds, d.name? = none) (harrow : .arrow ∉ ds)
    (as bs : List Token) : ofTokens (as ++ ds ++ bs) = ofTokens (as ++ bs) := by
  induction ds with
  | nil => rw [List.append_nil]
  | cons d ds ih =>
    rw [List.mem_cons, not_or] at harrow
    rw [← ih (fun x hx => h x (List.mem_cons_of_mem d hx)) harrow.2, List.append_assoc,
      List.append_assoc, List.cons_append]
    cases d with
    | plus => exact ofTokens_append_plus as (ds ++ bs)
    | arrow => exact absurd rfl harrow.1
    | name input => exact absurd (h _ List.mem_cons_self) nofun

/-! ## 3. Runs of delimiters -/

/-- Blanks, plus signs and arrows, and not blanks alone. -/
structure DelimiterRun (run : String) : Prop where
  spacing : ∀ c ∈ run.toList, Text.isBlank c = true ∨ c = '+' ∨ c = '>'
  delimited : '+' ∈ run.toList ∨ '>' ∈ run.toList

-- `all` goes through the characters of the run, where a bare quantifier may go through all there are
instance (run : String) : Decidable (DelimiterRun run) :=
  decidable_of_iff
    ((run.toList.all fun c => Text.isBlank c || c == '+' || c == '>') = true ∧
      ('+' ∈ run.toList ∨ '>' ∈ run.toList))
    ⟨fun h => ⟨by simpa [or_assoc] using h.1, h.2⟩,
      fun h => ⟨by simpa [or_assoc] using h.spacing, h.delimited⟩⟩

namespace DelimiterRun

variable {run : String}

/-- The delimiters of a text, as tokens. -/
def delimiters (run : String) : List Token := run.toList.filterMap Token.ofDelimiter?

theorem name?_of_mem_delimiters {d : Token} (h : d ∈ delimiters run) : d.name? = none := by
  obtain ⟨c, -, hc⟩ := List.mem_filterMap.mp h
  exact Token.name?_of_ofDelimiter? hc

theorem arrow_mem_delimiters_iff : .arrow ∈ delimiters run ↔ '>' ∈ run.toList := by
  rw [delimiters, List.mem_filterMap]
  constructor
  · rintro ⟨c, hc, harrow⟩
    rcases Token.ofDelimiter?_eq_some_iff.mp harrow with ⟨-, h⟩ | ⟨rfl, -⟩
    · exact absurd h nofun
    · exact hc
  · exact fun h => ⟨'>', h, rfl⟩

/-- **Between two texts a run adds its delimiters to their tokens**, and nothing else. -/
theorem scan_append (h : DelimiterRun run) (u v : String) :
    Token.scan (u ++ run ++ v) = Token.scan u ++ delimiters run ++ Token.scan v := by
  have hspacing : Token.Spacing run.toList := Token.spacing_iff.mpr h.spacing
  rw [Token.scan, String.toList_append, String.toList_append]
  rcases h.delimited with hd | hd
  · exact Token.scanChars_around_spacing hspacing hd Token.ofDelimiter?_plus _ _
  · exact Token.scanChars_around_spacing hspacing hd Token.ofDelimiter?_arrow _ _

theorem arrow : DelimiterRun ">" := by decide

theorem plus : DelimiterRun "+" := by decide

end DelimiterRun

variable {run : String}

/-- A run with an arrow puts the chords of two texts one after the other. -/
theorem chords_ofText_around_arrow (h : DelimiterRun run) (harrow : '>' ∈ run.toList)
    (u v : String) : (ofText (u ++ run ++ v)).chords = (ofText u).chords ++ (ofText v).chords := by
  rw [ofText, h.scan_append]
  exact chords_ofTokens_around_arrow (fun _ => DelimiterRun.name?_of_mem_delimiters)
    (DelimiterRun.arrow_mem_delimiters_iff.mpr harrow) _ _

/-- A run without an arrow joins the chords at its sides. -/
theorem ofText_around_pluses (h : DelimiterRun run) (harrow : '>' ∉ run.toList) (u v : String) :
    ofText (u ++ run ++ v) = ofTokens (Token.scan u ++ Token.scan v) := by
  rw [ofText, h.scan_append]
  exact ofTokens_around_pluses (fun _ => DelimiterRun.name?_of_mem_delimiters)
    (harrow ∘ DelimiterRun.arrow_mem_delimiters_iff.mp) _ _

/-- **The laws of delimiters.** An arrow puts the chords of two texts one after the other. Any run
    of blanks and delimiters between two texts counts as an arrow if it has one and as a plus sign
    otherwise, and at either end of a text it has no effect. -/
theorem delimiter_runs_collapse :
    (∀ u v, (ofText (u ++ ">" ++ v)).chords = (ofText u).chords ++ (ofText v).chords) ∧
    ∀ run, DelimiterRun run →
      (∀ u v, ofText (u ++ run ++ v) =
        ofText (u ++ (if '>' ∈ run.toList then ">" else "+") ++ v)) ∧
      (∀ u, ofText (u ++ run) = ofText u) ∧ ∀ v, ofText (run ++ v) = ofText v := by
  have harrowChar : '>' ∈ ">".toList := by decide
  have hconcat := chords_ofText_around_arrow .arrow harrowChar
  refine ⟨hconcat, fun run h => ⟨fun u v => ?_, fun u => ?_, fun v => ?_⟩⟩
  · by_cases harrow : '>' ∈ run.toList
    · rw [if_pos harrow]
      exact ext ((chords_ofText_around_arrow h harrow u v).trans (hconcat u v).symm)
    · rw [if_neg harrow, ofText_around_pluses h harrow,
        ofText_around_pluses .plus (by decide)]
  · have hscan := h.scan_append u ""
    rw [String.append_empty] at hscan
    rw [ofText, hscan]
    exact (congrArg ofTokens (List.append_nil _)).trans
      (ofTokens_append_delimiters (fun _ => DelimiterRun.name?_of_mem_delimiters) _)
  · have hscan := h.scan_append "" v
    rw [String.empty_append] at hscan
    rw [ofText, hscan]
    exact ofTokens_delimiters_append (fun _ => DelimiterRun.name?_of_mem_delimiters) _

/-- Of a run of plus signs, blanks and an arrow only the arrow is left, and behind a text nothing
    is. -/
theorem mixed_run_counts_as_arrow :
    DelimiterRun " ++ >\t+ " ∧ '>' ∈ " ++ >\t+ ".toList ∧
      ofText ("KeyA+KeyB" ++ " ++ >\t+ " ++ "KeyA") = ofText ("KeyA+KeyB" ++ ">" ++ "KeyA") ∧
      (ofText ("KeyA+KeyB" ++ " ++ >\t+ ")).toLists = [["KeyA", "KeyB"]] := by
  have hrun : DelimiterRun " ++ >\t+ " := by decide
  have harrow : '>' ∈ " ++ >\t+ ".toList := by decide
  obtain ⟨hbetween, hbehind, -⟩ := delimiter_runs_collapse.2 _ hrun
  refine ⟨hrun, harrow, ?_, ?_⟩
  · rw [hbetween, if_pos harrow]
  · rw [hbehind]
    decide

end Pattern

end KeyBindings
