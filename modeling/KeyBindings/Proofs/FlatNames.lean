import KeyBindings.Proofs.PatternText
import Mathlib.Data.List.SplitBy

/-!
# The flat form, read and written

In the flat form plus signs separate names, and two of them side by side name the plus key. What
that makes of a text is said here without a reader that goes from the left:

* `Escaped.blocks` -- the text cut into its runs of plus signs and the stretches between them, each
  as long as can be;
* **`Escaped.names_eq_flatMap_blocks`**: a run of `k` plus signs spells `k / 2` plus keys, any other
  stretch the name in it, if there is one;
* `Escaped.Writable`, `Escaped.write` -- the names that the flat form can spell, and a text for any
  list of them. Joining with plus signs would not do: a plus key between two names takes THREE;
* **`flat_form_of_blocks`**: reading by blocks, and writing undone by reading.

One lemma per kind of block carries the reading (`namesFrom_replicate`, `namesFrom_of_head`); the
block that follows begins with the other kind of character, so neither runs over its end.
-/

namespace KeyBindings

namespace Escaped

variable {cs : List Char} {name : Input}

/-! ## 1. Plus signs -/

/-- A doubled plus sign is read whatever follows. -/
theorem namesFrom_double (word cs : List Char) :
    namesFrom word ('+' :: '+' :: cs) =
      (nameIn word.reverse).toList ++ plusKey :: namesFrom [] cs := rfl

theorem namesFrom_lone (word : List Char) (h : ∀ c ∈ cs.head?, c ≠ '+') :
    namesFrom word ('+' :: cs) = (nameIn word.reverse).toList ++ namesFrom [] cs := by
  cases cs with
  | nil => rfl
  | cons c cs =>
    rw [namesFrom]
    exact fun _ e => h c rfl (List.cons.inj e).1

/-- **A run of plus signs spells one plus key for each two of them.** -/
theorem namesFrom_replicate (h : ∀ c ∈ cs.head?, c ≠ '+') :
    ∀ k, namesFrom [] (List.replicate k '+' ++ cs) =
      List.replicate (k / 2) plusKey ++ namesFrom [] cs
  | 0 => rfl
  | 1 => namesFrom_lone [] h
  | k + 2 => by
    have hhalf : (k + 2) / 2 = k / 2 + 1 := by omega
    rw [hhalf, List.replicate_succ (n := k / 2), List.cons_append, ← namesFrom_replicate h k]
    exact namesFrom_double [] _

/-- **What has been read of a name is the whole of it at the next plus sign and at the end.** -/
theorem namesFrom_of_head (word : List Char) (h : ∀ c ∈ cs.head?, c = '+') :
    namesFrom word cs = (nameIn word.reverse).toList ++ namesFrom [] cs := by
  cases cs with
  | nil => exact (List.append_nil _).symm
  | cons c cs =>
    obtain rfl : c = '+' := h c rfl
    by_cases hlone : ∀ c ∈ cs.head?, c ≠ '+'
    · rw [namesFrom_lone word hlone, namesFrom_lone [] hlone]
      rfl
    · obtain ⟨c, hc, hplus⟩ : ∃ c ∈ cs.head?, c = '+' := by simpa using hlone
      obtain ⟨rest, rfl⟩ := List.head?_eq_some_iff.mp hc
      rw [hplus]
      rfl

/-! ## 2. Blocks -/

/-- Whether both characters are plus signs, or neither is. -/
def samePlus (a b : Char) : Bool := decide (a = '+' ↔ b = '+')

/-- The runs of plus signs of a text and the stretches between them, in order and each as long as
    can be. -/
def blocks (cs : List Char) : List (List Char) := cs.splitBy samePlus

/-- What a block spells: a run of `k` plus signs `k / 2` plus keys, a stretch between runs the name
    in it. -/
def blockNames (block : List Char) : List Input :=
  if '+' ∈ block then List.replicate (block.length / 2) plusKey else (nameIn block).toList

variable {block : List Char}

/-- The characters of a block are all plus signs, or none is. -/
theorem eq_plus_iff_of_isChain (h : block.IsChain fun a b => samePlus a b = true) {c d : Char}
    (hc : c ∈ block) (hd : d ∈ block) : c = '+' ↔ d = '+' := by
  have hmap : (block.map fun c => decide (c = '+')).IsChain (· = ·) :=
    (List.isChain_map _).mpr (h.imp fun _ _ hab => decide_eq_decide.mpr (of_decide_eq_true hab))
  obtain ⟨first, rest, rfl⟩ := List.exists_cons_of_ne_nil (List.ne_nil_of_mem hc)
  have hrun := List.isChain_eq_iff_eq_replicate.mp hmap (decide (first = '+')) rfl
  have hfirst : ∀ e ∈ first :: rest, decide (e = '+') = decide (first = '+') := fun e he =>
    List.eq_of_mem_replicate (hrun ▸ List.mem_map_of_mem he)
  exact decide_eq_decide.mp ((hfirst c hc).trans (hfirst d hd).symm)

/-- A block is read by itself when what follows begins with the other kind of character. -/
theorem namesFrom_block (hrun : block.IsChain fun a b => samePlus a b = true)
    (hend : ∀ c ∈ cs.head?, ∀ b ∈ block, samePlus b c = false) :
    namesFrom [] (block ++ cs) = blockNames block ++ namesFrom [] cs := by
  rw [blockNames]
  split
  · next hplus =>
    have hall : block = List.replicate block.length '+' :=
      List.eq_replicate_of_mem fun c hc => (eq_plus_iff_of_isChain hrun hplus hc).mp rfl
    have hhead : ∀ c ∈ cs.head?, c ≠ '+' := by
      rintro c hc rfl
      exact absurd (hend _ hc _ hplus) (by decide)
    conv_lhs => rw [hall]
    exact namesFrom_replicate hhead _
  · next hplus =>
    have hfree : ∀ c ∈ block, c ≠ '+' := fun c hc e => hplus (e ▸ hc)
    rw [namesFrom_append hfree, List.append_nil]
    cases block with
    | nil => rfl
    | cons b block =>
      have hhead : ∀ c ∈ cs.head?, c = '+' := by
        intro c hc
        have hne := of_decide_eq_false (hend c hc b List.mem_cons_self)
        have hb : b ≠ '+' := hfree b List.mem_cons_self
        exact Decidable.byContradiction fun hcp => hne (iff_of_false hb hcp)
      rw [namesFrom_of_head _ hhead, List.reverse_reverse]

/-- The block after a block begins with the other kind of character. -/
theorem samePlus_head_flatten {rest : List (List Char)}
    (hrun : block.IsChain fun a b => samePlus a b = true)
    (hends : (block :: rest).IsChain fun a b =>
      ∃ ha hb, samePlus (a.getLast ha) (b.head hb) = false) :
    ∀ c ∈ rest.flatten.head?, ∀ b ∈ block, samePlus b c = false := by
  cases rest with
  | nil => exact nofun
  | cons next rest =>
    obtain ⟨ha, hb, hlast⟩ := (List.isChain_cons_cons.mp hends).1
    intro c hc b hmem
    rw [List.flatten_cons, List.head?_append_of_ne_nil _ hb, List.head?_eq_some_head hb] at hc
    obtain rfl := Option.some.inj hc
    have hiff := eq_plus_iff_of_isChain hrun hmem (List.getLast_mem ha)
    exact decide_eq_false fun hsame => of_decide_eq_false hlast (hiff.symm.trans hsame)

theorem namesFrom_flatten {parts : List (List Char)}
    (hruns : ∀ block ∈ parts, block.IsChain fun a b => samePlus a b = true)
    (hends : parts.IsChain fun a b => ∃ ha hb, samePlus (a.getLast ha) (b.head hb) = false) :
    namesFrom [] parts.flatten = parts.flatMap blockNames := by
  induction parts with
  | nil => rfl
  | cons block rest ih =>
    have hrun := hruns block List.mem_cons_self
    have hrest := ih (fun b hb => hruns b (List.mem_cons_of_mem block hb)) hends.tail
    rw [List.flatten_cons, List.flatMap_cons,
      namesFrom_block hrun (samePlus_head_flatten hrun hends), hrest]

/-- **The names of a text are those of its blocks.** -/
theorem names_eq_flatMap_blocks (binding : String) :
    names binding = (blocks binding.toList).flatMap blockNames := by
  have hruns : ∀ block ∈ blocks binding.toList, block.IsChain fun a b => samePlus a b = true :=
    fun _ => List.isChain_of_mem_splitBy
  rw [← namesFrom_flatten hruns (List.isChain_getLast_head_splitBy samePlus _), blocks,
    List.flatten_splitBy, names]

/-! ## 3. Names that can be spelled -/

/-- A name that the flat form can spell: the plus key, or one that is legible among plus signs. -/
def Writable (name : Input) : Prop := name = plusKey ∨ Legible ['+'] name

instance (name : Input) : Decidable (Writable name) := inferInstanceAs (Decidable (_ ∨ _))

theorem ne_plus_of_legible (h : Legible ['+'] name) : ∀ c ∈ name.toList, c ≠ '+' := by
  rintro c hc rfl
  exact h.free '+' (List.mem_singleton_self _) hc

theorem ne_plusKey_of_legible (h : Legible ['+'] name) : name ≠ plusKey := by
  rintro rfl
  exact h.free '+' (List.mem_singleton_self '+') (by decide)

/-- **Every name that is read can be spelled.** -/
theorem writable_of_mem_names {binding : String} (h : name ∈ names binding) : Writable name := by
  rw [names_eq_flatMap_blocks] at h
  obtain ⟨block, -, hname⟩ := List.mem_flatMap.mp h
  rw [blockNames] at hname
  split at hname
  · exact Or.inl (List.eq_of_mem_replicate hname)
  · next hplus =>
    refine Or.inr (legible_of_nameIn (Option.mem_toList.mp hname) fun d hd => ?_)
    rwa [List.mem_singleton.mp hd]

/-! ## 4. Writing -/

/-- Writes some names: the plus key as two plus signs, any other name as it is, with one more plus
    sign in front when `named`, that is when another such name stands before it. -/
def writeFrom (named : Bool) : List Input → List Char
  | [] => []
  | name :: names =>
    if name = plusKey then '+' :: '+' :: writeFrom named names
    else List.replicate named.toNat '+' ++ name.toList ++ writeFrom true names

/-- A text that spells some names. -/
def write (names : List Input) : String := String.ofList (writeFrom false names)

/-- So many plus signs. -/
def pluses (k : Nat) : String := String.ofList (List.replicate k '+')

theorem writeFrom_plusKey (named : Bool) (names : List Input) :
    writeFrom named (plusKey :: names) = '+' :: '+' :: writeFrom named names := if_pos rfl

theorem writeFrom_cons (named : Bool) (h : name ≠ plusKey) (names : List Input) :
    writeFrom named (name :: names) =
      List.replicate named.toNat '+' ++ name.toList ++ writeFrom true names := if_neg h

theorem writeFrom_append (named : Bool) (as bs : List Input) :
    writeFrom named (as ++ bs) =
      writeFrom named as ++ writeFrom (named || as.any (· ≠ plusKey)) bs := by
  induction as generalizing named with
  | nil => rw [List.nil_append, List.any_nil, Bool.or_false]; rfl
  | cons name as ih =>
    by_cases h : name = plusKey
    · rw [h, List.cons_append, writeFrom_plusKey, writeFrom_plusKey, ih]
      simp
    · rw [List.cons_append, writeFrom_cons named h, writeFrom_cons named h, ih]
      simp [h]

theorem writeFrom_replicate_append (named : Bool) (m : Nat) (tokens : List Input) :
    writeFrom named (List.replicate m plusKey ++ tokens) =
      List.replicate (2 * m) '+' ++ writeFrom named tokens := by
  induction m with
  | zero => rfl
  | succ m ih =>
    rw [List.replicate_succ, List.cons_append, writeFrom_plusKey, ih]
    rfl

/-- **Written names are read back**, behind whatever is being read: if a name stands before them,
    the plus sign in front of the next one ends it. -/
theorem namesFrom_writeFrom {tokens : List Input} (h : ∀ name ∈ tokens, Writable name)
    (named : Bool) (word : List Char) (hword : named = false → word = []) :
    namesFrom word (writeFrom named tokens) = (nameIn word.reverse).toList ++ tokens := by
  induction tokens generalizing named word with
  | nil => exact (List.append_nil _).symm
  | cons name tokens ih =>
    have ih := ih fun n hn => h n (List.mem_cons_of_mem name hn)
    rcases h name List.mem_cons_self with rfl | hname
    · rw [writeFrom_plusKey, namesFrom_double, ih named [] fun _ => rfl]
      rfl
    · have hread : namesFrom [] (name.toList ++ writeFrom true tokens) = name :: tokens := by
        rw [namesFrom_append (ne_plus_of_legible hname), List.append_nil,
          ih true _ nofun, List.reverse_reverse, hname.nameIn]
        rfl
      rw [writeFrom_cons named (ne_plusKey_of_legible hname), List.append_assoc]
      cases named with
      | false =>
        obtain rfl := hword rfl
        exact hread
      | true =>
        have hlone : ∀ c ∈ (name.toList ++ writeFrom true tokens).head?, c ≠ '+' := by
          intro c hc
          rw [List.head?_append_of_ne_nil _ hname.toList_ne_nil] at hc
          exact ne_plus_of_legible hname c (List.mem_of_mem_head? hc)
        exact (namesFrom_lone word hlone).trans (congrArg _ hread)

theorem names_write {tokens : List Input} (h : ∀ name ∈ tokens, Writable name) :
    names (write tokens) = tokens := by
  rw [names, write, String.toList_ofList, namesFrom_writeFrom h false [] fun _ => rfl]
  rfl

/-- A name that stands alone is written as it is. -/
theorem write_singleton {a : Input} (ha : a ≠ plusKey) : write [a] = a := by
  have hchars : writeFrom false [a] = a.toList := by
    rw [writeFrom_cons false ha, writeFrom, List.append_nil]
    rfl
  rw [write, hchars, String.ofList_toList]

/-- **Plus keys between two names take one plus sign more than twice their number.** -/
theorem write_between (m : Nat) {a b : Input} (ha : a ≠ plusKey) (hb : b ≠ plusKey)
    (before after : List Input) :
    write (before ++ [a] ++ List.replicate m plusKey ++ b :: after) =
      write (before ++ [a]) ++ pluses (2 * m + 1) ++ write (b :: after) := by
  have hnamed : (before ++ [a]).any (· ≠ plusKey) = true := by simp [ha]
  have hsign : writeFrom true (b :: after) = '+' :: writeFrom false (b :: after) := by
    rw [writeFrom_cons true hb, writeFrom_cons false hb]
    rfl
  have hchars : writeFrom false (before ++ [a] ++ List.replicate m plusKey ++ b :: after) =
      writeFrom false (before ++ [a]) ++ List.replicate (2 * m + 1) '+' ++
        writeFrom false (b :: after) := by
    rw [List.append_assoc, writeFrom_append false (before ++ [a]), hnamed, Bool.or_true,
      writeFrom_replicate_append, hsign, List.append_cons (List.replicate (2 * m) '+'),
      ← List.replicate_succ', List.append_assoc]
  rw [write, hchars, String.ofList_append, String.ofList_append]
  rfl

/-- **Plus keys at the ends take twice their number.** -/
theorem write_outside (m n : Nat) (tokens : List Input) :
    write (List.replicate m plusKey ++ tokens ++ List.replicate n plusKey) =
      pluses (2 * m) ++ write tokens ++ pluses (2 * n) := by
  have hend : ∀ named, writeFrom named (List.replicate n plusKey) = List.replicate (2 * n) '+' := by
    intro named
    have h := writeFrom_replicate_append named n []
    rwa [List.append_nil, writeFrom, List.append_nil] at h
  rw [write, List.append_assoc, writeFrom_replicate_append, writeFrom_append, hend,
    ← List.append_assoc, String.ofList_append, String.ofList_append]
  rfl

/-! ## 5. Reading and writing -/

/-- **The flat form by its blocks, and how to write it.** A text spells what its blocks spell, one
    after the other. Exactly the names that can be spelled are read back from what is written for
    them, and exactly their lists are what any text spells. What is written is a name as it is, and
    `m` plus keys as `2 * m + 1` plus signs between two names and as `2 * m` in front of all names
    or behind them. -/
theorem flat_form_of_blocks :
    (∀ binding, names binding = (blocks binding.toList).flatMap blockNames) ∧
    (∀ tokens,
      (names (write tokens) = tokens ↔ ∀ name ∈ tokens, Writable name) ∧
      ((∃ binding, names binding = tokens) ↔ ∀ name ∈ tokens, Writable name)) ∧
    (write [] = "" ∧ ∀ a, a ≠ plusKey → write [a] = a) ∧
    (∀ m before a b after, a ≠ plusKey → b ≠ plusKey →
      write (before ++ [a] ++ List.replicate m plusKey ++ b :: after) =
        write (before ++ [a]) ++ pluses (2 * m + 1) ++ write (b :: after)) ∧
    (∀ m n tokens, write (List.replicate m plusKey ++ tokens ++ List.replicate n plusKey) =
      pluses (2 * m) ++ write tokens ++ pluses (2 * n)) := by
  have hread : ∀ binding tokens, names binding = tokens → ∀ name ∈ tokens, Writable name :=
    fun _ _ h name hname => writable_of_mem_names (h ▸ hname)
  refine ⟨names_eq_flatMap_blocks, fun tokens => ⟨⟨hread _ _, names_write⟩, ?_⟩,
    ⟨rfl, fun _ ha => write_singleton ha⟩,
    fun m before a b after ha hb => write_between m ha hb before after, write_outside⟩
  exact ⟨fun ⟨binding, h⟩ => hread binding tokens h, fun h => ⟨write tokens, names_write h⟩⟩

/-- Two plus keys in front, one between two names and none behind: four plus signs, then three. The
    second name has an arrow and a blank inside. -/
theorem plus_keys_read_back :
    let tokens : List Input := ["+", "+", "Shift", "+", "a >"]
    (∀ name ∈ tokens, Writable name) ∧ names (write tokens) = tokens ∧
      write tokens = "++++Shift+++a >" := by
  intro tokens
  have h : ∀ name ∈ tokens, Writable name := by decide
  exact ⟨h, ((flat_form_of_blocks.2.1 tokens).1).mpr h, by decide⟩

end Escaped

end KeyBindings
