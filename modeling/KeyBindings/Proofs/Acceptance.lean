import KeyBindings.Proofs.Registration
import KeyBindings.Proofs.Rendering
import KeyBindings.Proofs.Simultaneous
import KeyBindings.Proofs.TextGrammar

/-!
# Texts that are accepted

A registration is refused exactly when its text names no input. Which texts these are can be seen
on their characters, without a reader:

* in the full form, a text names an input if it has a character that is neither blank nor a
  delimiter (`Pattern.chords_ofText_eq_nil_iff`);
* in the flat form it is enough that a character is neither blank nor a plus sign, or that two plus
  signs stand side by side, which name the plus key (`Escaped.namesFrom_eq_nil_iff`). An arrow is a
  name there.

Then what a registration leaves behind:

* `Pattern.sequential_of_ofBinding_iff`, `Pattern.size_of_ofBinding` -- which mode an accepted text
  has, and that a simultaneous binding is one chord;
* `Manager.handedOut` -- the ids that a run hands out, `0`, `1`, `2` and so on (`handedOut_run`);
* **`registers_iff_names_input`**: a text that is refused leaves no trace in any run, and one that
  is accepted adds one binding under an id that was never handed out.
-/

namespace KeyBindings

/-! ## 1. Texts without names -/

/-- Nothing is left by trimming only if there was nothing but blanks. -/
theorem Text.trim_eq_nil_iff {cs : List Char} : trim cs = [] ↔ ∀ c ∈ cs, isBlank c = true := by
  have hend : trim cs = [] ↔ ∀ c ∈ trimStart cs, isBlank c = true := by
    rw [trim, trimEnd, List.reverse_eq_nil_iff, List.dropWhile_eq_nil_iff]
    exact forall_congr' fun c => by rw [List.mem_reverse]
  rw [hend]
  constructor
  · intro h
    refine List.dropWhile_eq_nil_iff.mp ?_
    cases hs : cs.dropWhile isBlank with
    | nil => rfl
    | cons c rest =>
      -- the first character that is kept would be both blank and not
      have hblank : isBlank c = true := h c (by rw [trimStart, hs]; exact List.mem_cons_self)
      have hsolid := head?_dropWhile_isBlank cs c (by rw [hs]; rfl)
      exact absurd hblank (by rw [hsolid]; decide)
  · intro h c hc
    exact h c ((List.dropWhile_sublist _).subset hc)

theorem nameIn_eq_none_iff {stretch : List Char} :
    nameIn stretch = none ↔ ∀ c ∈ stretch, Text.isBlank c = true := by
  rw [nameIn, ← Text.trim_eq_nil_iff]
  split <;> simp_all

namespace Token

/-- **The tokens of a text are all delimiters exactly if it has blanks and delimiters only.** -/
theorem forall_name?_scanChars_iff {cs : List Char} :
    (∀ token ∈ scanChars cs, token.name? = none) ↔ Spacing cs := by
  induction cs using delimited_induction with
  | stretch cs hcs =>
    have hspacing : Spacing cs ↔ nameIn cs = none := by
      rw [nameIn_eq_none_iff]
      refine forall₂_congr fun c hc => or_iff_left ?_
      rintro ⟨delimiter, hd⟩
      exact Option.some_ne_none _ (hd.symm.trans (hcs c hc))
    rw [hspacing, scanChars_of_forall hcs]
    rcases named_cases cs with ⟨hnone, hnil⟩ | ⟨name, hname, hone⟩
    · rw [hnil]
      exact iff_of_true (List.forall_mem_nil _) hnone
    · rw [hone, List.forall_mem_singleton, hname]
      exact iff_of_false nofun nofun
  | append as d delimiter bs hd iha ihb =>
    rw [scanChars_append hd, List.forall_mem_append, List.forall_mem_cons, iha, ihb,
      and_iff_right (name?_of_ofDelimiter? hd), spacing_append_iff, spacing_cons_iff,
      and_iff_right (Or.inr ⟨delimiter, hd⟩)]

end Token

namespace Pattern

variable {naming : KeyNaming} {binding : String} {p : Pattern} {mode : Mode} {tokens : List Token}

/-- The members of the chords that tokens spell are those of the open chord and the names. -/
theorem exists_mem_chordsFrom_iff {chord : Chord} {name : Input} :
    (∃ c ∈ chordsFrom chord tokens, name ∈ c.members) ↔
      name ∈ chord.members ∨ .name name ∈ tokens := by
  induction tokens generalizing chord with
  | nil => simp [chordsFrom]
  | cons token tokens ih =>
    cases token with
    | plus => simp [chordsFrom, ih]
    | arrow => simp [chordsFrom, ih]
    | name input => simp [chordsFrom, ih, or_assoc]

/-- **The inputs of a pattern are the names among its tokens.** -/
theorem mem_flatten_ofTokens_iff {name : Input} :
    name ∈ (ofTokens tokens).flatten ↔ .name name ∈ tokens := by
  rw [ofTokens, mem_flatten_ofChords_iff, exists_mem_chordsFrom_iff]
  exact or_iff_right List.not_mem_nil

/-- A pattern has no chord exactly if it has no input. -/
theorem chords_eq_nil_iff : p.chords = [] ↔ ∀ name, name ∉ p.flatten := by
  rw [← List.eq_nil_iff_forall_not_mem]
  constructor
  · intro h
    rw [flatten, h, List.flatMap_nil]
  · exact fun h => Decidable.byContradiction fun hne => flatten_ne_nil hne h

/-- **A text in the full form names nothing exactly if it has blanks and delimiters only.** -/
theorem chords_ofText_eq_nil_iff :
    (ofText binding).chords = [] ↔ Token.Spacing binding.toList := by
  rw [chords_eq_nil_iff, ← Token.forall_name?_scanChars_iff, ofText]
  constructor
  · intro h token ht
    cases token with
    | plus => rfl
    | arrow => rfl
    | name name => exact absurd (mem_flatten_ofTokens_iff.mpr ht) (h name)
  · intro h name hname
    cases h _ (mem_flatten_ofTokens_iff.mp hname)

end Pattern

/-- What has been read of a name is none as long as it is blank. -/
theorem Escaped.toList_nameIn_reverse_eq_nil_iff {word : List Char} :
    (nameIn word.reverse).toList = [] ↔ ∀ c ∈ word, Text.isBlank c = true := by
  rw [Option.toList_eq_nil_iff, nameIn_eq_none_iff]
  exact forall_congr' fun c => by rw [List.mem_reverse]

/-- **A text in the flat form names nothing exactly if it has blanks and plus signs only, and no two
    plus signs side by side.** What has been read of a name must be blank, too. -/
theorem Escaped.namesFrom_eq_nil_iff {word cs : List Char} :
    namesFrom word cs = [] ↔ (∀ c ∈ word, Text.isBlank c = true) ∧
      (∀ c ∈ cs, Text.isBlank c = true ∨ c = '+') ∧ ¬ ['+', '+'] <:+: cs := by
  fun_induction namesFrom word cs with
  | case1 word =>
    rw [toList_nameIn_reverse_eq_nil_iff]
    simp
  | case2 word cs ih =>
    -- a doubled plus sign names the plus key
    have hinside : ['+', '+'] <:+: '+' :: '+' :: cs := ⟨[], cs, rfl⟩
    simp [hinside]
  | case3 word cs hlone ih =>
    have hstart : ¬ ['+', '+'] <+: '+' :: cs := by
      rintro ⟨rest, hrest⟩
      exact hlone rest (List.cons.inj hrest).2.symm
    rw [List.append_eq_nil_iff, toList_nameIn_reverse_eq_nil_iff, ih, List.forall_mem_cons,
      List.infix_cons_iff, not_or]
    simp [hstart]
  | case4 word c cs hdouble hne ih =>
    have hc : c ≠ '+' := hne
    have hstart : ¬ ['+', '+'] <+: c :: cs := fun h => hc (List.cons_prefix_cons.mp h).1.symm
    rw [ih, List.forall_mem_cons, List.forall_mem_cons, List.infix_cons_iff, not_or,
      or_iff_left hc, and_iff_right hstart]
    constructor
    · exact fun ⟨⟨hblank, hword⟩, hrest⟩ => ⟨hword, ⟨hblank, hrest.1⟩, hrest.2⟩
    · exact fun ⟨hword, ⟨hblank, hrest⟩, hinside⟩ => ⟨⟨hblank, hword⟩, hrest, hinside⟩

/-! ## 2. Texts that name an input -/

namespace Pattern

variable {naming : KeyNaming} {binding : String} {p : Pattern} {mode : Mode}

/-- Whether a text names an input. Two plus signs side by side name the plus key where names may
    have arrows. -/
def NamesInput (naming : KeyNaming) (binding : String) : Prop :=
  match naming with
  | .physical => ∃ c ∈ binding.toList, Text.isBlank c = false ∧ c ≠ '+' ∧ c ≠ '>'
  | .logical =>
    (∃ c ∈ binding.toList, Text.isBlank c = false ∧ c ≠ '+') ∨ ['+', '+'] <:+: binding.toList

instance (naming : KeyNaming) (binding : String) : Decidable (NamesInput naming binding) :=
  match naming with
  | .physical => decidable_of_iff
      (binding.toList.any fun c => !Text.isBlank c && c != '+' && c != '>') <| by
        simp [NamesInput, and_assoc]
  | .logical => decidable_of_iff
      ((binding.toList.any fun c => !Text.isBlank c && c != '+') ∨
        ['+', '+'] <:+: binding.toList) <| by
        simp [NamesInput]

theorem chords_ofEscaped_eq_nil_iff :
    (ofEscaped binding).chords = [] ↔ Escaped.names binding = [] := by
  rw [chords_eq_nil_iff, List.eq_nil_iff_forall_not_mem]
  exact forall_congr' fun name => not_congr mem_flatten_ofEscaped

theorem chords_ofText_ne_nil_iff :
    (ofText binding).chords ≠ [] ↔ NamesInput .physical binding := by
  rw [ne_eq, chords_ofText_eq_nil_iff, Token.spacing_iff, NamesInput]
  push Not
  simp only [ne_eq, Bool.not_eq_true]

theorem chords_ofEscaped_ne_nil_iff :
    (ofEscaped binding).chords ≠ [] ↔ NamesInput .logical binding := by
  rw [ne_eq, chords_ofEscaped_eq_nil_iff, Escaped.names, Escaped.namesFrom_eq_nil_iff, NamesInput,
    and_iff_right (List.forall_mem_nil _), not_and_or, not_not]
  refine or_congr_left ?_
  push Not
  simp only [ne_eq, Bool.not_eq_true]

/-- **The texts that stand for a binding are those that name an input.** -/
theorem accepted_iff_namesInput : Accepted naming binding ↔ NamesInput naming binding := by
  cases naming with
  | physical =>
    rw [← chords_ofText_ne_nil_iff]
    constructor
    · rintro ⟨⟨p, mode⟩, h⟩
      obtain ⟨rfl, hne, -⟩ := ofBinding_physical_eq_ok_iff.mp h
      exact hne
    · exact fun hne => ⟨(_, _), ofBinding_physical_eq_ok_iff.mpr ⟨rfl, hne, rfl⟩⟩
  | logical =>
    rw [← chords_ofEscaped_ne_nil_iff]
    constructor
    · rintro ⟨⟨p, mode⟩, h⟩
      obtain ⟨rfl, hne, -⟩ := ofBinding_logical_eq_ok_iff.mp h
      exact hne
    · exact fun hne => ⟨(_, _), ofBinding_logical_eq_ok_iff.mpr ⟨rfl, hne, rfl⟩⟩

/-- What is refused is refused for want of inputs. -/
theorem ofBinding_eq_error_iff :
    ofBinding naming binding = .error .noInputs ↔ ¬ NamesInput naming binding := by
  rw [← accepted_iff_namesInput, Accepted]
  cases ofBinding naming binding with
  | ok accepted => simp
  | error e => simp

/-- A text is sequential by an arrow in the full form. -/
theorem sequential_of_ofBinding_iff (h : ofBinding naming binding = .ok (p, mode)) :
    mode = .sequential ↔ naming = .physical ∧ '>' ∈ binding.toList := by
  have hmode := mode_of_ofBinding h
  rw [ReadsAsChord] at hmode
  cases mode with
  | simultaneous => exact iff_of_false nofun fun hboth => hmode.mp rfl hboth.1 hboth.2
  | sequential =>
    refine iff_of_true rfl ?_
    have hnot : ¬ (naming = .physical → '>' ∉ binding.toList) := fun h => nomatch hmode.mpr h
    push Not at hnot
    exact hnot

/-- **A simultaneous binding is one chord.** -/
theorem size_of_ofBinding (h : ofBinding naming binding = .ok (p, .simultaneous)) : p.size = 1 := by
  have hpos : 0 < p.chords.length := List.length_pos_of_ne_nil (chords_ne_nil_of_ofBinding h)
  have hle : p.chords.length ≤ 1 := by
    cases naming with
    | physical =>
      obtain ⟨rfl, -, -⟩ := ofBinding_physical_eq_ok_iff.mp h
      rw [chords_ofText_of_arrow_notMem ((mode_of_ofBinding h).mp rfl rfl)]
      exact List.length_filter_le _ _
    | logical =>
      obtain ⟨rfl, -, -⟩ := ofBinding_logical_eq_ok_iff.mp h
      exact length_chords_ofEscaped_le binding
  exact Nat.le_antisymm hle hpos

end Pattern

/-! ## 3. Ids handed out in a run -/

variable {α : Type}

namespace Manager

/-- The id that an operation hands out: that of a text that is accepted. -/
def handsOut? (m : Manager α) : ManagerOp α → Option BindingId
  | .register binding callback =>
    match (m.tryRegister binding callback).2 with
    | .ok id => some id
    | .error _ => none
  | _ => none

/-- The ids that a run hands out, in that order. -/
def handedOut (m : Manager α) : List (ManagerOp α) → List BindingId
  | [] => []
  | op :: ops => (m.handsOut? op).toList ++ (m.step op).handedOut ops

theorem handedOut_concat (m : Manager α) (ops : List (ManagerOp α)) (op : ManagerOp α) :
    m.handedOut (ops ++ [op]) = m.handedOut ops ++ ((m.run ops).handsOut? op).toList := by
  induction ops generalizing m with
  | nil => exact List.append_nil _
  | cons first ops ih =>
    rw [List.cons_append, handedOut, ih, handedOut, List.append_assoc]
    rfl

/-- **An operation that hands out an id hands out the next one**, and no other moves it. -/
theorem range_nextId_step (m : Manager α) (op : ManagerOp α) :
    List.range (m.step op).registry.nextId =
      List.range m.registry.nextId ++ (m.handsOut? op).toList := by
  cases op with
  | register binding callback =>
    rw [step, register, handsOut?]
    rcases h : m.tryRegister binding callback with ⟨registered, e | id⟩
    · have hleft := tryRegister_of_error (congrArg Prod.snd h)
      obtain rfl : m = registered := congrArg Prod.fst (hleft.symm.trans h)
      exact (List.append_nil _).symm
    · obtain ⟨pattern, mode, -, rfl, rfl⟩ := tryRegister_eq_ok_iff.mp h
      exact List.range_succ
  | unregister id => exact (List.append_nil _).symm
  | press input now => exact (List.append_nil _).symm
  | release input now => exact (List.append_nil _).symm
  | clear => exact (List.append_nil _).symm
  | handle event now =>
    rw [step, registry_handle]
    exact (List.append_nil _).symm

/-- **The ids that a run hands out are those below the next one, each once.** -/
theorem handedOut_run (settings : Settings) (ops : List (ManagerOp α)) :
    (new settings).handedOut ops = List.range ((new settings).run ops).registry.nextId := by
  induction ops using List.reverseRecOn with
  | nil => rfl
  | append_singleton ops op ih => rw [handedOut_concat, ih, run_concat, range_nextId_step]

/-- What a text that is refused leaves behind is the manager as it was. -/
theorem step_register_of_error {m : Manager α} {binding : String} {callback : α} {e : BindingError}
    (h : (m.tryRegister binding callback).2 = .error e) :
    m.step (.register binding callback) = m := by
  rw [step, register, tryRegister_of_error h]

end Manager

/-! ## 4. Registering a text -/

open Manager in
/-- **A text is registered exactly if it names an input.** After every run, a text that names none
    is refused, and a run with that registration in it is, from there on, the run without it. A text
    that names an input adds one binding behind the others, for this text and callback, under the
    next id, which was never handed out; nothing else changes. Its pattern is what the text stands
    for: it has a chord, and every chord has members, none of them twice. It is sequential exactly
    if the text is in the full form and has an arrow, and otherwise it is one chord. -/
theorem registers_iff_names_input (settings : Settings) (ops : List (ManagerOp α))
    (binding : String) (callback : α) :
    let m := (new settings).run ops
    ((∃ m' id, m.tryRegister binding callback = (m', .ok id)) ↔
        Pattern.NamesInput settings.naming binding) ∧
      (¬ Pattern.NamesInput settings.naming binding →
        m.tryRegister binding callback = (m, .error .noInputs) ∧
          m.register binding callback = (m, false) ∧
          ∀ later, (new settings).run (ops ++ .register binding callback :: later) =
            (new settings).run (ops ++ later)) ∧
      (Pattern.NamesInput settings.naming binding →
        ∃ b : Binding α,
          let after := { m with registry := ⟨m.registry.bindings ++ [b], b.id + 1⟩ }
          m.tryRegister binding callback = (after, .ok b.id) ∧
            m.register binding callback = (after, true) ∧
            b.id = m.registry.nextId ∧ b.id ∉ (new settings).handedOut ops ∧
            b.source = binding ∧ b.callback = callback ∧
            Pattern.ofBinding settings.naming binding = .ok (b.pattern, b.mode) ∧
            b.pattern.chords ≠ [] ∧
            (∀ c ∈ b.pattern.chords, c.members ≠ [] ∧ c.members.Nodup) ∧
            (b.mode = .sequential ↔ settings.naming = .physical ∧ '>' ∈ binding.toList) ∧
            (b.mode = .simultaneous → b.pattern.size = 1)) := by
  intro m
  have hnaming : m.settings.naming = settings.naming :=
    congrArg Settings.naming (settings_run (new settings) ops)
  refine ⟨?_, fun hnone => ?_, fun hnames => ?_⟩
  · rw [exists_tryRegister_iff, hnaming, Pattern.accepted_iff_namesInput]
  · have hrefused : m.tryRegister binding callback = (m, .error .noInputs) := by
      rw [tryRegister, hnaming, Pattern.ofBinding_eq_error_iff.mpr hnone]
    refine ⟨hrefused, by rw [register, hrefused]; rfl, fun later => ?_⟩
    rw [run_append, run_append]
    show (m.step (.register binding callback)).run later = m.run later
    rw [step_register_of_error (congrArg Prod.snd hrefused)]
  · obtain ⟨⟨p, mode⟩, haccepted⟩ := Pattern.accepted_iff_namesInput.mpr hnames
    have hregistered : m.tryRegister binding callback =
        ({ m with registry := (m.registry.insert binding p mode callback).1 },
          .ok m.registry.nextId) :=
      tryRegister_eq_ok_iff.mpr ⟨p, mode, hnaming ▸ haccepted, rfl, rfl⟩
    have hnew : m.registry.nextId ∉ (new settings).handedOut ops := by
      rw [handedOut_run, List.mem_range]
      exact Nat.lt_irrefl _
    refine ⟨⟨m.registry.nextId, binding, p, mode, callback⟩, hregistered, ?_, rfl, hnew, rfl, rfl,
      haccepted, Pattern.chords_ne_nil_of_ofBinding haccepted,
      fun c hc => ⟨p.members_ne_nil c hc, c.nodup⟩,
      Pattern.sequential_of_ofBinding_iff haccepted, ?_⟩
    · rw [register, hregistered]
      rfl
    · rintro rfl
      exact Pattern.size_of_ofBinding haccepted

/-- In the flat form two plus signs name the plus key if nothing stands between them. A binding that
    is gone again has taken the id `0`, so the plus key gets `1`. -/
theorem plus_key_registered_blank_refused :
    let settings := Settings.default.withNaming .logical
    let m := (Manager.new settings).run
      ([.register "A" 10, .unregister 0] : List (ManagerOp Nat))
    ¬ Pattern.NamesInput .logical "+ +" ∧ m.register "+ +" 20 = (m, false) ∧
      Pattern.NamesInput .logical "+ ++" ∧
      ∃ b, m.register "+ ++" 20 = ({ m with registry := ⟨[b], 2⟩ }, true) ∧ b.id = 1 ∧
        b.callback = 20 ∧ b.mode = .simultaneous ∧ b.pattern.size = 1 := by
  intro settings m
  have hnone : ¬ Pattern.NamesInput .logical "+ +" := by decide
  have hnames : Pattern.NamesInput .logical "+ ++" := by decide
  have hrefused := (registers_iff_names_input settings
    ([.register "A" 10, .unregister 0] : List (ManagerOp Nat)) "+ +" 20).2.1 hnone
  obtain ⟨b, -, hregistered, hid, -, -, hcallback, -, -, -, hmode, hsize⟩ :=
    (registers_iff_names_input settings
      ([.register "A" 10, .unregister 0] : List (ManagerOp Nat)) "+ ++" 20).2.2 hnames
  have hid : b.id = 1 := hid
  have hsimultaneous : b.mode = .simultaneous := by
    cases hb : b.mode with
    | simultaneous => rfl
    | sequential => exact absurd (hmode.mp hb).1 nofun
  rw [hid] at hregistered
  exact ⟨hnone, hrefused.2.1, hnames, b, hregistered, hid, hcallback, hsimultaneous,
    hsize hsimultaneous⟩

end KeyBindings
