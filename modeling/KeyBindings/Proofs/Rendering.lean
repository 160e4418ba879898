import KeyBindings.Proofs.FlatNames

/-!
# Patterns shown and read back

A pattern is shown with `+` between the members of a chord and `>` between chords, a blank on either
side of each. Reading that text gives the pattern back exactly when each of its names is legible
among the delimiters:

* `Text.map_cut_intercalate` -- cutting what was joined gives the parts, for a reader who ignores
  the blanks at their ends. It is used for names in a chord and for chords in a pattern;
* `Pattern.partNames_text`, `Pattern.ofText_text` -- so legible names come back, each in its place;
* `Escaped.names_text` -- the text of a chord reads the same in both forms, as no plus sign in it is
  doubled;
* **`shown_pattern_reads_back`**: for both forms, and "only if" as well. A name that is not legible
  cannot come back by chance, since whatever is read is legible -- but in the flat form the plus key
  is read too, and there it is the blanks around each plus sign that keep it from coming back.
-/

namespace KeyBindings

/-! ## 1. Cutting what was joined -/

namespace Text

/-- The first piece is read alike with a blank in front of the text. -/
theorem map_cut_cons_blank {β : Type} {p : Char → Bool} {f : List Char → β}
    (hp : p ' ' = false) (hfront : ∀ cs, f (' ' :: cs) = f cs) (cs : List Char) :
    (cut p (' ' :: cs)).map f = (cut p cs).map f := by
  rw [cut_cons, hp]
  cases e : cut p cs with
  | nil => exact absurd e (cut_ne_nil p cs)
  | cons piece pieces => exact congrArg (· :: pieces.map f) (hfront piece)

/-- The last piece is read alike with a blank behind the text. -/
theorem map_cut_concat_blank {β : Type} {p : Char → Bool} {f : List Char → β}
    (hp : p ' ' = false) (hback : ∀ cs, f (cs ++ [' ']) = f cs) (cs : List Char) :
    (cut p (cs ++ [' '])).map f = (cut p cs).map f := by
  induction cs using separated_induction (p := p) with
  | piece cs hcs =>
    have hall : ∀ c ∈ cs ++ [' '], p c = false := by
      intro c hc
      rcases List.mem_append.mp hc with hc | hc
      · exact hcs c hc
      · exact List.mem_singleton.mp hc ▸ hp
    rw [cut_eq_singleton hall, cut_eq_singleton hcs]
    exact congrArg (fun x => [x]) (hback cs)
  | append as s bs hs iha ihb =>
    rw [List.append_assoc, List.cons_append, cut_append hs, cut_append hs, List.map_append, ihb,
      List.map_append]

/-- **Parts joined by a separator between blanks are read back**, by a reader to whom the blanks
    make no difference. -/
theorem map_cut_intercalate {β : Type} {p : Char → Bool} {s : Char} {f : List Char → β}
    (hs : p s = true) (hp : p ' ' = false) (hfront : ∀ cs, f (' ' :: cs) = f cs)
    (hback : ∀ cs, f (cs ++ [' ']) = f cs) {parts : List (List Char)} (hne : parts ≠ [])
    (hfree : ∀ part ∈ parts, ∀ c ∈ part, p c = false) :
    (cut p ([' ', s, ' '].intercalate parts)).map f = parts.map f := by
  induction parts with
  | nil => exact absurd rfl hne
  | cons part rest ih =>
    have hpart : cut p part = [part] := cut_eq_singleton (hfree part List.mem_cons_self)
    cases rest with
    | nil => rw [List.intercalate_singleton, hpart]
    | cons next rest =>
      have hrest := ih (List.cons_ne_nil _ _) fun q hq => hfree q (List.mem_cons_of_mem part hq)
      have hsplit : [' ', s, ' '].intercalate (part :: next :: rest) =
          (part ++ [' ']) ++ s :: ' ' :: [' ', s, ' '].intercalate (next :: rest) := by
        rw [List.intercalate_cons_cons]
        simp
      rw [hsplit, cut_append hs, List.map_append, map_cut_concat_blank hp hback,
        map_cut_cons_blank hp hfront, hrest, hpart]
      rfl

theorem mem_intercalate {sep : List Char} {parts : List (List Char)} {c : Char}
    (h : c ∈ sep.intercalate parts) : c ∈ sep ∨ ∃ part ∈ parts, c ∈ part := by
  induction parts with
  | nil =>
    rw [List.intercalate_nil] at h
    exact absurd h List.not_mem_nil
  | cons part rest ih =>
    cases rest with
    | nil =>
      rw [List.intercalate_singleton] at h
      exact Or.inr ⟨part, List.mem_cons_self, h⟩
    | cons next rest =>
      rw [List.intercalate_cons_cons, List.mem_append, List.mem_append] at h
      rcases h with (h | h) | h
      · exact Or.inr ⟨part, List.mem_cons_self, h⟩
      · exact Or.inl h
      · exact (ih h).imp_right fun ⟨q, hq, hc⟩ => ⟨q, List.mem_cons_of_mem part hq, hc⟩

end Text

/-! ## 2. The full form -/

/-- A chord is made of its own members. -/
theorem Chord.ofList_members (c : Chord) : ofList c.members = c :=
  Chord.ext (members_ofList_of_nodup c.nodup)

theorem Chord.toList_text (c : Chord) :
    c.text.toList = [' ', '+', ' '].intercalate (c.members.map String.toList) :=
  String.toList_intercalate

namespace Pattern

variable {p q : Pattern} {name : Input}

theorem toList_text (p : Pattern) :
    p.text.toList = [' ', '>', ' '].intercalate (p.chords.map fun c => c.text.toList) := by
  rw [text, String.toList_intercalate, List.map_map]
  rfl

/-- The names of a part are what its pieces are read as, one by one. -/
theorem partNames_eq_filterMap_id (part : List Char) :
    partNames part = ((Text.cut (· == '+') part).map nameIn).filterMap id := by
  rw [List.filterMap_map]
  rfl

/-- A blank in front of a part adds nothing to its names. -/
theorem partNames_cons_blank (part : List Char) : partNames (' ' :: part) = partNames part := by
  rw [partNames_eq_filterMap_id, Text.map_cut_cons_blank rfl (nameIn_cons_blank (by decide)),
    partNames_eq_filterMap_id]

/-- Nor does a blank behind it. -/
theorem partNames_concat_blank (part : List Char) :
    partNames (part ++ [' ']) = partNames part := by
  rw [partNames_eq_filterMap_id, Text.map_cut_concat_blank rfl (nameIn_concat_blank (by decide)),
    partNames_eq_filterMap_id]

/-- **Legible members come back from the text of their chord**, in their order. -/
theorem partNames_text {c : Chord} (hne : c.members ≠ [])
    (h : ∀ name ∈ c.members, Legible ['+'] name) : partNames c.text.toList = c.members := by
  have hfree : ∀ part ∈ c.members.map String.toList, ∀ x ∈ part, (x == '+') = false := by
    intro part hpart x hx
    obtain ⟨name, hname, rfl⟩ := List.mem_map.mp hpart
    exact beq_eq_false_iff_ne.mpr (Escaped.ne_plus_of_legible (h name hname) x hx)
  have hread : ((c.members.map String.toList).map nameIn).filterMap id = c.members := by
    rw [List.map_map, List.filterMap_map]
    refine (List.filterMap_congr fun name hname => ?_).trans List.filterMap_some
    exact (h name hname).nameIn
  rw [Chord.toList_text, partNames_eq_filterMap_id,
    Text.map_cut_intercalate rfl rfl (nameIn_cons_blank (by decide))
      (nameIn_concat_blank (by decide)) (by simpa using hne) hfree, hread]

/-- What is read from a part has no plus sign in it, nor anything that the part has not. -/
theorem legible_of_mem_partNames {part : List Char} {others : List Char}
    (hothers : ∀ d ∈ others, d ∉ part) (h : name ∈ partNames part) :
    Legible ('+' :: others) name := by
  obtain ⟨piece, hpiece, hname⟩ := List.mem_filterMap.mp h
  refine legible_of_nameIn hname fun d hd hmem => ?_
  rcases List.mem_cons.mp hd with rfl | hd
  · exact absurd (Text.not_of_mem_cut hpiece '+' hmem) (by decide)
  · exact hothers d hd (Text.subset_of_mem_cut hpiece hmem)

/-- **Every name that is read is legible.** -/
theorem legible_of_mem_ofText {binding : String} (h : name ∈ (ofText binding).flatten) :
    Legible ['+', '>'] name := by
  obtain ⟨c, hc, hname⟩ := List.mem_flatMap.mp h
  rw [chords_ofText] at hc
  obtain ⟨part, hpart, rfl⟩ := List.mem_map.mp (List.mem_of_mem_filter hc)
  refine legible_of_mem_partNames (fun d hd hmem => ?_) (Chord.mem_members_ofList.mp hname)
  rw [List.mem_singleton.mp hd] at hmem
  exact absurd (Text.not_of_mem_cut hpart '>' hmem) (by decide)

/-- No arrow stands in the text of a chord whose members have none. -/
theorem arrow_notMem_text {c : Chord} (h : ∀ name ∈ c.members, '>' ∉ name.toList) :
    '>' ∉ c.text.toList := by
  rw [Chord.toList_text]
  intro hmem
  rcases Text.mem_intercalate hmem with hmem | ⟨part, hpart, hmem⟩
  · exact absurd hmem (by decide)
  · obtain ⟨name, hname, rfl⟩ := List.mem_map.mp hpart
    exact h name hname hmem

/-- **A pattern of legible names comes back from its text**, chord by chord and in the order of the
    members. -/
theorem ofText_text (h : ∀ name ∈ p.flatten, Legible ['+', '>'] name) : ofText p.text = p := by
  have hmember : ∀ c ∈ p.chords, ∀ name ∈ c.members, Legible ['+', '>'] name :=
    fun c hc name hname => h name (List.mem_flatMap.mpr ⟨c, hc, hname⟩)
  have hchord : ∀ c ∈ p.chords, Chord.ofList (partNames c.text.toList) = c := by
    intro c hc
    have hplus : ∀ name ∈ c.members, Legible ['+'] name :=
      fun name hname => (hmember c hc name hname).of_subset (by simp)
    rw [partNames_text (p.members_ne_nil c hc) hplus, Chord.ofList_members]
  have hfree : ∀ part ∈ p.chords.map fun c => c.text.toList, ∀ x ∈ part, (x == '>') = false := by
    intro part hpart x hx
    obtain ⟨c, hc, rfl⟩ := List.mem_map.mp hpart
    refine beq_eq_false_iff_ne.mpr ?_
    rintro rfl
    exact arrow_notMem_text (fun name hname => (hmember c hc name hname).free '>' (by simp)) hx
  apply ext
  rw [chords_ofText, toList_text]
  by_cases hne : p.chords = []
  · rw [hne]
    rfl
  · have hcut := Text.map_cut_intercalate (p := (· == '>')) (s := '>')
      (f := fun part => Chord.ofList (partNames part)) rfl rfl
      (fun cs => congrArg Chord.ofList (partNames_cons_blank cs))
      (fun cs => congrArg Chord.ofList (partNames_concat_blank cs)) (by simpa using hne) hfree
    have hback : (p.chords.map fun c => c.text.toList).map
        (fun part => Chord.ofList (partNames part)) = p.chords := by
      rw [List.map_map]
      exact (List.map_congr_left hchord).trans (List.map_id' p.chords)
    rw [hcut, hback]
    exact List.filter_eq_self.mpr fun c hc => by
      simpa [Chord.isEmpty] using p.members_ne_nil c hc

theorem same_self (p : Pattern) : p.same p = true :=
  same_iff.mpr ⟨rfl, fun i c d hc hd x => by rw [Option.some.inj (hc.symm.trans hd)]⟩

/-- Patterns that are the same up to order name the same inputs. -/
theorem mem_flatten_of_same (h : p.same q = true) (hname : name ∈ q.flatten) :
    name ∈ p.flatten := by
  obtain ⟨hsize, hsame⟩ := same_iff.mp h
  obtain ⟨d, hd, hmem⟩ := List.mem_flatMap.mp hname
  obtain ⟨i, hi⟩ := List.mem_iff_getElem?.mp hd
  have hlt : i < p.chords.length := by
    have hq : i < q.chords.length := (List.getElem?_eq_some_iff.mp hi).1
    exact Nat.lt_of_lt_of_eq hq hsize.symm
  have hp : p.chords[i]? = some p.chords[i] := List.getElem?_eq_getElem hlt
  exact List.mem_flatMap.mpr ⟨p.chords[i], List.getElem_mem hlt, (hsame i _ d hp hi name).mpr hmem⟩

end Pattern

/-! ## 3. The flat form -/

namespace Escaped

variable {cs : List Char}

/-- No two plus signs stand side by side. -/
def Single (cs : List Char) : Prop := cs.IsChain fun a b => a = '+' → b ≠ '+'

theorem single_of_forall_ne (h : ∀ c ∈ cs, c ≠ '+') : Single cs :=
  (List.pairwise_of_forall_mem_list fun a ha _ _ e => absurd e (h a ha)).isChain

theorem single_of_writable {name : Input} (h : Writable name) : Single name.toList := by
  rcases h with rfl | h
  · exact List.isChain_singleton '+'
  · exact single_of_forall_ne (ne_plus_of_legible h)

/-- The blanks around a plus sign keep it from its neighbours. -/
theorem single_intercalate {parts : List (List Char)} (h : ∀ part ∈ parts, Single part) :
    Single ([' ', '+', ' '].intercalate parts) := by
  induction parts with
  | nil => exact List.isChain_nil
  | cons part rest ih =>
    have hpart := h part List.mem_cons_self
    cases rest with
    | nil =>
      rw [List.intercalate_singleton]
      exact hpart
    | cons next rest =>
      have hrest := ih fun q hq => h q (List.mem_cons_of_mem part hq)
      rw [List.intercalate_cons_cons, Single, List.append_assoc, List.isChain_append]
      refine ⟨hpart, List.isChain_append.mpr ⟨?_, hrest, ?_⟩, ?_⟩
      · simp
      · simp
      · simp

/-- **Without a doubled plus sign the flat form reads as a part of the full form does.** -/
theorem namesFrom_eq_partNames {word : List Char} (hword : ∀ c ∈ word, c ≠ '+') (h : Single cs) :
    namesFrom word cs = Pattern.partNames (word.reverse ++ cs) := by
  have hfree : ∀ c ∈ word.reverse, c ≠ '+' := fun c hc => hword c (List.mem_reverse.mp hc)
  induction cs generalizing word with
  | nil => rw [List.append_nil, Pattern.partNames_of_forall_ne hfree, namesFrom]
  | cons c cs ih =>
    by_cases hc : c = '+'
    · subst hc
      have hlone : ∀ d ∈ cs.head?, d ≠ '+' := fun d hd => (List.isChain_cons.mp h).1 d hd rfl
      rw [namesFrom_lone word hlone, Pattern.partNames_append,
        Pattern.partNames_of_forall_ne hfree, ih (by simp) h.tail (by simp)]
      rfl
    · have hone : ∀ d ∈ [c], d ≠ '+' := fun d hd => List.mem_singleton.mp hd ▸ hc
      have hnext : ∀ d ∈ c :: word, d ≠ '+' := List.forall_mem_cons.mpr ⟨hc, hword⟩
      have hread : namesFrom word (c :: cs) = namesFrom (c :: word) cs :=
        namesFrom_append hone word cs
      rw [hread, ih hnext h.tail fun d hd => hnext d (List.mem_reverse.mp hd), List.reverse_cons,
        List.append_assoc]
      rfl

/-- **The text of a chord reads the same in both forms** if the flat form can spell the members. -/
theorem names_text {c : Chord} (h : ∀ name ∈ c.members, Writable name) :
    names c.text = Pattern.partNames c.text.toList := by
  have hsingle : Single c.text.toList := by
    rw [Chord.toList_text]
    refine single_intercalate fun part hpart => ?_
    obtain ⟨name, hname, rfl⟩ := List.mem_map.mp hpart
    exact single_of_writable (h name hname)
  have hnil : ∀ d ∈ ([] : List Char), d ≠ '+' := List.forall_mem_nil _
  exact namesFrom_eq_partNames hnil hsingle

end Escaped

namespace Pattern

variable {p : Pattern}

theorem exists_chord_of_size (h : p.size = 1) :
    ∃ c, p = ofChords [c] ∧ p.flatten = c.members ∧ p.text = c.text ∧ c.members ≠ [] := by
  obtain ⟨c, hc⟩ := List.length_eq_one_iff.mp h
  have hne : c.members ≠ [] := p.members_ne_nil c (hc ▸ List.mem_singleton_self c)
  refine ⟨c, ext ?_, ?_, ?_, hne⟩
  · rw [chords_ofChords_of_forall (by simpa using hne), hc]
  · rw [flatten, hc, List.flatMap_singleton]
  · rw [text, hc, List.map_singleton, String.intercalate_singleton]

/-- A pattern of one chord comes back in the flat form if its names are legible. -/
theorem ofEscaped_text (hsize : p.size = 1) (h : ∀ name ∈ p.flatten, Legible ['+'] name) :
    ofEscaped p.text = p := by
  obtain ⟨c, hp, hflatten, htext, hne⟩ := exists_chord_of_size hsize
  rw [hflatten] at h
  rw [ofEscaped, htext, Escaped.names_text fun name hname => Or.inr (h name hname),
    partNames_text hne h, Chord.ofList_members, hp]

theorem mem_flatten_ofChords_iff {chords : List Chord} {name : Input} :
    name ∈ (ofChords chords).flatten ↔ ∃ c ∈ chords, name ∈ c.members := by
  rw [flatten, List.mem_flatMap]
  constructor
  · rintro ⟨c, hc, hname⟩
    exact ⟨c, (mem_chords_ofChords.mp hc).1, hname⟩
  · rintro ⟨c, hc, hname⟩
    exact ⟨c, mem_chords_ofChords.mpr ⟨hc, List.ne_nil_of_mem hname⟩, hname⟩

theorem mem_flatten_ofEscaped {binding : String} {name : Input} :
    name ∈ (ofEscaped binding).flatten ↔ name ∈ Escaped.names binding := by
  rw [ofEscaped, mem_flatten_ofChords_iff, ← Chord.mem_members_ofList]
  simp

/-- Nothing but legible names comes back in the flat form from the text of a chord: the plus key
    does not, although the flat form has a name for it. -/
theorem legible_of_same_ofEscaped (hsize : p.size = 1) (h : (ofEscaped p.text).same p = true) :
    ∀ name ∈ p.flatten, Legible ['+'] name := by
  obtain ⟨c, -, hflatten, htext, -⟩ := exists_chord_of_size hsize
  have hread : ∀ name ∈ p.flatten, name ∈ Escaped.names p.text := fun name hname =>
    mem_flatten_ofEscaped.mp (mem_flatten_of_same h hname)
  have hwritable : ∀ name ∈ c.members, Escaped.Writable name := fun name hname =>
    Escaped.writable_of_mem_names (hread name (hflatten ▸ hname))
  intro name hname
  have hpart := hread name hname
  rw [htext, Escaped.names_text hwritable] at hpart
  exact legible_of_mem_partNames (by simp) hpart

end Pattern

/-! ## 4. Both forms -/

/-- **A pattern comes back from its text exactly when its names are legible**, and then as it was,
    each member in its place. Whatever is read is legible, so what has been read once comes back.
    A single chord comes back in the flat form exactly when its names are legible among plus signs;
    an arrow in a name does no harm there. -/
theorem shown_pattern_reads_back :
    (∀ p : Pattern,
      ((Pattern.ofText p.text).same p = true ↔ ∀ name ∈ p.flatten, Legible ['+', '>'] name) ∧
      ((Pattern.ofText p.text).same p = true → Pattern.ofText p.text = p)) ∧
    (∀ binding,
      (∀ name ∈ (Pattern.ofText binding).flatten, Legible ['+', '>'] name) ∧
      Pattern.ofText (Pattern.ofText binding).text = Pattern.ofText binding) ∧
    (∀ p : Pattern, p.size = 1 →
      ((Pattern.ofEscaped p.text).same p = true ↔ ∀ name ∈ p.flatten, Legible ['+'] name)) := by
  have hlegible : ∀ binding, ∀ name ∈ (Pattern.ofText binding).flatten, Legible ['+', '>'] name :=
    fun _ _ => Pattern.legible_of_mem_ofText
  have hfull : ∀ p : Pattern, (Pattern.ofText p.text).same p = true →
      ∀ name ∈ p.flatten, Legible ['+', '>'] name :=
    fun p h name hname => hlegible p.text name (Pattern.mem_flatten_of_same h hname)
  refine ⟨fun p => ⟨⟨hfull p, fun h => ?_⟩, fun h => Pattern.ofText_text (hfull p h)⟩,
    fun binding => ⟨hlegible binding, Pattern.ofText_text (hlegible binding)⟩,
    fun p hsize => ⟨Pattern.legible_of_same_ofEscaped hsize, fun h => ?_⟩⟩
  · rw [Pattern.ofText_text h]
    exact Pattern.same_self p
  · rw [Pattern.ofEscaped_text hsize h]
    exact Pattern.same_self p

/-- A chord of the arrow key and a name with a blank inside comes back in the flat form. -/
theorem arrow_key_comes_back :
    let p := Pattern.ofLists [["Shift", ">", "Page Up"]]
    p.size = 1 ∧ (∀ name ∈ p.flatten, Legible ['+'] name) ∧
      (Pattern.ofEscaped p.text).same p = true := by
  intro p
  have hsize : p.size = 1 := by decide
  have hlegible : ∀ name ∈ p.flatten, Legible ['+'] name := by decide
  exact ⟨hsize, hlegible, (shown_pattern_reads_back.2.2 p hsize).mpr hlegible⟩

end KeyBindings
