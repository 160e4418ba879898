import KeyBindings.Proofs.Dispatch
import KeyBindings.Proofs.PatternText
import KeyBindings.Proofs.Standing

/-!
# Simultaneous bindings, from their text to the callback

A binding whose text reads as one chord asks for its names to be held together. The names are those
of the text, each at its first occurrence and in the order they are written; what is held stands in
the order in which the holds began. The binding fires when the first is a BLOCK of the second -- in
the same order and with nothing between.

* `Pattern.ReadsAsChord`, `Pattern.flatNames` -- which texts these are, and the names they list;
* `Pattern.mode_of_ofBinding`, `Pattern.flatten_of_ofBinding` -- what is registered for a text;
* **`fires_on_held_block`**: so it fires, once, after every transition of every run in which it is
  not taken out.
-/

namespace KeyBindings

/-- A text asks for the simultaneous mode by having no arrow. -/
theorem Mode.ofBinding_eq_simultaneous_iff {binding : String} :
    ofBinding binding = .simultaneous ↔ '>' ∉ binding.toList := by
  rw [ofBinding]
  split <;> simp_all

namespace Pattern

variable {naming : KeyNaming} {binding : String} {p : Pattern} {mode : Mode}

/-! ## 1. Texts that read as one chord -/

/-- A text reads as one chord unless it is in the full form and has an arrow. -/
def ReadsAsChord (naming : KeyNaming) (binding : String) : Prop :=
  naming = .physical → '>' ∉ binding.toList

instance (naming : KeyNaming) (binding : String) : Decidable (ReadsAsChord naming binding) :=
  inferInstanceAs (Decidable (_ → _))

/-- The names of such a text in the order they are written, repeated ones included. -/
def flatNames (naming : KeyNaming) (binding : String) : List Input :=
  match naming with
  | .physical => partNames binding.toList
  | .logical => Escaped.names binding

/-- The chords of a text without an arrow: its names are one chord, or there are none. -/
theorem chords_ofText_of_arrow_notMem (h : '>' ∉ binding.toList) :
    ofText binding = ofChords [Chord.ofList (partNames binding.toList)] := by
  have hpiece : Text.cut (· == '>') binding.toList = [binding.toList] :=
    Text.cut_eq_singleton fun c hc => beq_eq_false_iff_ne.mpr fun e => h (e ▸ hc)
  apply ext
  rw [chords_ofText, hpiece]
  rfl

/-- The inputs of one chord are those it was made from, each at its first occurrence. -/
theorem flatten_ofChords_singleton (names : List Input) :
    (ofChords [Chord.ofList names]).flatten = names.eraseDups := by
  have hchords : (ofChords [Chord.ofList names]).chords =
      if (Chord.ofList names).isEmpty then [] else [Chord.ofList names] := by
    cases he : (Chord.ofList names).isEmpty <;> simp [ofChords, he]
  rw [← Chord.members_ofList, flatten, hchords]
  split
  · next he => exact (Chord.isEmpty_iff.mp he).symm
  · exact List.append_nil _

/-- A pattern with a chord names an input. -/
theorem flatten_ne_nil (h : p.chords ≠ []) : p.flatten ≠ [] := by
  obtain ⟨chord, chords, hp⟩ := List.exists_cons_of_ne_nil h
  have hchord : chord.members ≠ [] := p.members_ne_nil chord (hp ▸ List.mem_cons_self)
  rw [flatten, hp, List.flatMap_cons]
  exact List.append_ne_nil_of_left_ne_nil hchord _

/-! ## 2. What is registered for a text -/

theorem ofBinding_physical_eq_ok_iff :
    ofBinding .physical binding = .ok (p, mode) ↔
      p = ofText binding ∧ p.chords ≠ [] ∧ mode = Mode.ofBinding binding := by
  rw [ofBinding, ← and_assoc, ← ofText?_eq_ok_iff]
  cases ofText? binding with
  | error e => exact ⟨nofun, nofun⟩
  | ok accepted =>
    show Except.ok (accepted, Mode.ofBinding binding) = Except.ok (p, mode) ↔ _
    rw [Except.ok.injEq, Prod.mk.injEq, Except.ok.injEq, eq_comm (b := mode)]

theorem ofBinding_logical_eq_ok_iff :
    ofBinding .logical binding = .ok (p, mode) ↔
      p = ofEscaped binding ∧ p.chords ≠ [] ∧ mode = .simultaneous := by
  rw [ofBinding]
  split
  · next h =>
    rw [isEmpty_iff] at h
    exact ⟨nofun, fun hp => absurd (hp.1 ▸ h) hp.2.1⟩
  · next h =>
    rw [isEmpty_iff] at h
    constructor
    · intro e
      cases e
      exact ⟨rfl, h, rfl⟩
    · rintro ⟨rfl, -, rfl⟩
      rfl

/-- What is accepted has a chord. -/
theorem chords_ne_nil_of_ofBinding (h : ofBinding naming binding = .ok (p, mode)) :
    p.chords ≠ [] := by
  cases naming with
  | physical => exact (ofBinding_physical_eq_ok_iff.mp h).2.1
  | logical => exact (ofBinding_logical_eq_ok_iff.mp h).2.1

/-- **What reads as one chord is registered as simultaneous, and nothing else is.** -/
theorem mode_of_ofBinding (h : ofBinding naming binding = .ok (p, mode)) :
    mode = .simultaneous ↔ ReadsAsChord naming binding := by
  cases naming with
  | physical =>
    rw [(ofBinding_physical_eq_ok_iff.mp h).2.2, Mode.ofBinding_eq_simultaneous_iff]
    exact ⟨fun hnot _ => hnot, fun hchord => hchord rfl⟩
  | logical =>
    rw [(ofBinding_logical_eq_ok_iff.mp h).2.2]
    exact iff_of_true rfl nofun

/-- **The inputs of a text that reads as one chord are its names**, and there is one. -/
theorem flatten_of_ofBinding (h : ofBinding naming binding = .ok (p, mode))
    (hchord : ReadsAsChord naming binding) :
    p.flatten = (flatNames naming binding).eraseDups ∧ p.flatten ≠ [] := by
  cases naming with
  | physical =>
    obtain ⟨rfl, hne, -⟩ := ofBinding_physical_eq_ok_iff.mp h
    refine ⟨?_, flatten_ne_nil hne⟩
    rw [chords_ofText_of_arrow_notMem (hchord rfl), flatten_ofChords_singleton]
    rfl
  | logical =>
    obtain ⟨rfl, hne, -⟩ := ofBinding_logical_eq_ok_iff.mp h
    exact ⟨flatten_ofChords_singleton _, flatten_ne_nil hne⟩

/-- A simultaneous binding names no input twice. -/
theorem nodup_flatten_of_ofBinding (h : ofBinding naming binding = .ok (p, .simultaneous)) :
    p.flatten.Nodup := by
  have hchord := (mode_of_ofBinding h).mp rfl
  rw [(flatten_of_ofBinding h hchord).1, ← Chord.members_ofList]
  exact (Chord.ofList _).nodup

end Pattern

/-! ## 3. From a text to the callback -/

variable {α : Type}

/-- **A simultaneous binding fires on the block of its names.** A text that is accepted is
    registered as simultaneous exactly when it reads as one chord. Then, whatever is done until it
    is taken out, every press and every release fires it -- once, its id noted beside its
    callback -- if its names are a block of what is held after the transition, and does not fire it
    otherwise. -/
theorem fires_on_held_block (settings : Settings) {before after : List (ManagerOp α)}
    {binding : String} {callback : α} {m : Manager α} {id : BindingId}
    (hreg : ((Manager.new settings).run before).tryRegister binding callback = (m, .ok id))
    (hkept : ∀ op ∈ after, op ≠ .unregister id) :
    let past := History.ofOps ((Manager.new settings).trackerOps before ++ m.trackerOps after)
    let names := (Pattern.flatNames settings.naming binding).eraseDups
    ((m.registry.find? id).map (·.mode) = some .simultaneous ↔
        Pattern.ReadsAsChord settings.naming binding) ∧
      (Pattern.ReadsAsChord settings.naming binding → ∀ entry : Transition,
        let fired := ((m.run after).feed entry).2
        fired.ids.length = fired.called.length ∧
          fired.callsOf id =
            if names <:+: (past ++ [entry]).holdOrder then [callback] else []) := by
  intro past names
  obtain ⟨p, mode, haccepted, htracker, honly⟩ := Manager.only_of_tryRegister hreg
  have hmode := Pattern.mode_of_ofBinding haccepted
  refine ⟨?_, fun hchord entry => ?_⟩
  · rw [honly.find?, Option.map_some, Option.some_inj]
    exact hmode
  obtain rfl := hmode.mpr hchord
  obtain ⟨hnames, hne⟩ := Pattern.flatten_of_ofBinding haccepted hchord
  have hheld : ((m.run after).tracker.step entry.op).held.members = (past ++ [entry]).holdOrder :=
    (Manager.follows_trackerOps settings before after htracker).members_held_step entry
  have hfires : p.fires .simultaneous ((m.run after).tracker.step entry.op) entry.time = true ↔
      names <:+: (past ++ [entry]).holdOrder := by
    rw [Pattern.fires_simultaneous_iff, and_iff_right hne, hnames, hheld]
  refine ⟨(m.run after).length_ids_feed entry, ?_⟩
  rw [Manager.callsOf_feed (Manager.only_run honly hkept) entry, Binding.fires]
  simp only [hfires]

/-- `ShiftLeft` and then `KeyD`, written with blanks and with one name twice. `KeyX` is held from
    before and pressed again in between, which does not move it; so the two are a block and the
    binding fires. A release of `KeyX` while `KeyD` is up fires nothing. -/
theorem written_order_fires :
    let before : List (ManagerOp Nat) := [.press "KeyX" 0, .register "KeyZ" 1]
    let after : List (ManagerOp Nat) := [.press "ShiftLeft" 10, .press "KeyX" 20]
    let binding := " ShiftLeft+ KeyD +ShiftLeft"
    ∃ m, ((Manager.new .default).run before).tryRegister binding 2 = (m, .ok 1) ∧
      (∀ op ∈ after, op ≠ .unregister 1) ∧ Pattern.ReadsAsChord .physical binding ∧
      ((m.run after).feed ⟨"KeyD", true, 30⟩).2.callsOf 1 = [2] ∧
      ((m.run after).feed ⟨"KeyX", false, 30⟩).2.callsOf 1 = [] := by
  intro before after binding
  obtain ⟨m, hreg⟩ :
      ∃ m, ((Manager.new .default).run before).tryRegister binding 2 = (m, .ok 1) := by
    unfold before binding
    exact ⟨_, Manager.tryRegister_eq_ok_iff.mpr ⟨_, _, rfl, rfl, rfl⟩⟩
  have hkept : ∀ op ∈ after, op ≠ .unregister 1 := by simp [after]
  have hchord : Pattern.ReadsAsChord .physical binding := by decide
  have hfires := (fires_on_held_block .default hreg hkept).2 hchord
  have hpast : History.ofOps ((Manager.new .default).trackerOps before ++ m.trackerOps after) =
      [⟨"KeyX", true, 0⟩, ⟨"ShiftLeft", true, 10⟩, ⟨"KeyX", true, 20⟩] := rfl
  rw [hpast] at hfires
  exact ⟨m, hreg, hkept, hchord, (hfires _).2.trans (if_pos (by decide)),
    (hfires _).2.trans (if_neg (by decide))⟩

end KeyBindings
