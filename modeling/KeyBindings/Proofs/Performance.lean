import KeyBindings.Proofs.Completion
import Mathlib.Data.List.Perm.Basic

/-!
# Carrying a pattern out

To carry a pattern out is to press the inputs of each chord and let them go again, chord by chord,
the last chord staying down (`Performs`). Matching counts one press for each chord, and a chord of
several inputs is several presses. So the last presses line up with the chords when every chord but
the first is a single input, and otherwise only by the accident of repeated inputs.

* `partials` -- what is down of its list at each press;
* **`Performs.forall₂_atPresses`**: just after each press exactly this is down;
* `Covers` -- such a part ends in an input of a chord and has all of the chord;
* **`fires_of_performs`**: from ANY earlier run, a chord and then single inputs, carried out within
  the limits and the window, fire the pattern;
* **`fires_iff_covers_of_performs`**: carried out literally and at one instant, a pattern fires
  exactly when the last of its parts cover its chords; always with single inputs after the first
  chord, and only so when no input stands in two chords.
-/

namespace KeyBindings

namespace History

/-! ## 1. Presses and releases in a row -/

/-- All transitions go one way and are of some inputs, in order. -/
def Strokes (entries : History) (pressed : Bool) (inputs : List Input) : Prop :=
  entries.map (·.input) = inputs ∧ ∀ entry ∈ entries, entry.pressed = pressed

/-- After presses alone, what was pressed is down. -/
theorem Strokes.isDown_iff {entries : History} {inputs : List Input}
    (h : entries.Strokes true inputs) {input : Input} :
    entries.isDown input = true ↔ input ∈ inputs := by
  obtain ⟨rfl, hp⟩ := h
  refine ⟨mem_inputs_of_isDown, fun hi => ?_⟩
  induction entries using List.reverseRecOn with
  | nil => exact absurd hi List.not_mem_nil
  | append_singleton entries entry ih =>
    rw [isDown_concat]
    split
    · exact hp entry (List.mem_append_right _ (List.mem_singleton_self _))
    · next hx =>
      refine ih (fun e he => hp e (List.mem_append_left _ he)) ?_
      rw [List.map_append, List.mem_append] at hi
      exact hi.resolve_right fun he => hx (List.mem_singleton.mp he).symm

/-- After releases alone, nothing is down. -/
theorem Strokes.isDown_eq_false {entries : History} {inputs : List Input}
    (h : entries.Strokes false inputs) (input : Input) : entries.isDown input = false := by
  obtain ⟨-, hp⟩ := h
  induction entries using List.reverseRecOn with
  | nil => rfl
  | append_singleton entries entry ih =>
    rw [isDown_concat]
    split
    · exact hp entry (List.mem_append_right _ (List.mem_singleton_self _))
    · exact ih fun e he => hp e (List.mem_append_left _ he)

theorem Strokes.atPresses_eq_nil {entries : History} {inputs : List Input}
    (h : entries.Strokes false inputs) : entries.atPresses = [] := by
  rw [← List.length_eq_zero_iff, length_atPresses, List.countP_eq_zero]
  exact fun entry he hp => Bool.noConfusion ((h.2 entry he).symm.trans hp)

/-- Inputs pressed and then all released, in any order, leave nothing down. -/
theorem isDown_strokes_append {downs ups : History} {inputs released : List Input}
    (hd : downs.Strokes true inputs) (hu : ups.Strokes false released)
    (hr : released.Perm inputs) (input : Input) : isDown (downs ++ ups) input = false := by
  by_cases hx : input ∈ ups.map (·.input)
  · rw [isDown_append_of_mem hx]
    exact hu.isDown_eq_false input
  · rw [isDown_append_of_notMem hx, Bool.eq_false_iff, ne_eq, hd.isDown_iff]
    rw [hu.1, hr.mem_iff] at hx
    exact hx

/-- Where nothing was down before, only the newest part says what is down. -/
theorem isDown_append_of_idle {before past : History} (h : ∀ input, before.isDown input = false)
    (input : Input) : isDown (before ++ past) input = isDown past input := by
  by_cases hx : input ∈ past.map (·.input)
  · exact isDown_append_of_mem hx
  · rw [isDown_append_of_notMem hx, h input]
    exact (Bool.eq_false_iff.mpr fun e => hx (mem_inputs_of_isDown e)).symm

end History

/-! ## 2. Carrying lists of inputs out -/

/-- Transitions that carry lists of inputs out: the inputs of each list are pressed in order and
    then all released in some order, but those of the last list stay down. -/
inductive Performs : List (List Input) → History → Prop
  | last {inputs : List Input} {downs : History} (hd : downs.Strokes true inputs) :
      Performs [inputs] downs
  | next {inputs released : List Input} {lists : List (List Input)} {downs ups later : History}
      (hd : downs.Strokes true inputs) (hu : ups.Strokes false released)
      (hr : released.Perm inputs) (hl : Performs lists later) :
      Performs (inputs :: lists) (downs ++ ups ++ later)

/-- The parts of lists that are down at each press: the beginnings of each list, shortest first. -/
def partials (lists : List (List Input)) : List (List Input) :=
  lists.flatMap fun inputs => inputs.inits.tail

@[simp] theorem partials_cons (inputs : List Input) (lists : List (List Input)) :
    partials (inputs :: lists) = inputs.inits.tail ++ partials lists := rfl

theorem inits_tail_concat (inputs : List Input) (input : Input) :
    (inputs ++ [input]).inits.tail = inputs.inits.tail ++ [inputs ++ [input]] := by
  rw [List.inits_append]
  cases inputs <;> simp

/-- A part stands for a history just after a press: it ends in the pressed input and is exactly
    what is down. -/
def StandsFor (part : List Input) (upTo : History) : Prop :=
  (∃ entry ∈ upTo.getLast?, part.getLast? = some entry.input) ∧
    ∀ input, upTo.isDown input = true ↔ input ∈ part

theorem StandsFor.append {part : List Input} {upTo before : History} (h : StandsFor part upTo)
    (hb : ∀ input, before.isDown input = false) : StandsFor part (before ++ upTo) := by
  obtain ⟨⟨entry, he, hl⟩, hdown⟩ := h
  refine ⟨⟨entry, ?_, hl⟩, fun input => ?_⟩
  · have he' : upTo.getLast? = some entry := he
    rw [Option.mem_def, List.getLast?_append, he', Option.some_or]
  · rw [History.isDown_append_of_idle hb, hdown]

theorem forall₂_inits_atPresses {downs : History} {inputs : List Input}
    (h : downs.Strokes true inputs) :
    List.Forall₂ StandsFor inputs.inits.tail downs.atPresses := by
  induction downs using List.reverseRecOn generalizing inputs with
  | nil =>
    obtain ⟨rfl, -⟩ := h
    exact .nil
  | append_singleton downs entry ih =>
    have hall := h
    obtain ⟨rfl, hp⟩ := h
    have hpe : entry.pressed = true :=
      hp entry (List.mem_append_right _ (List.mem_singleton_self _))
    rw [History.atPresses_concat, if_pos hpe, List.map_append, List.map_singleton,
      inits_tail_concat]
    refine List.rel_append (ih ⟨rfl, fun e he => hp e (List.mem_append_left _ he)⟩)
      (.cons ⟨⟨entry, ?_, ?_⟩, fun input => ?_⟩ .nil)
    · exact List.getLast?_concat
    · exact List.getLast?_concat
    · rw [hall.isDown_iff, List.map_append, List.map_singleton]

/-- **Just after each press exactly the part of its list is down.** -/
theorem Performs.forall₂_atPresses {lists : List (List Input)} {entries : History}
    (h : Performs lists entries) : List.Forall₂ StandsFor (partials lists) entries.atPresses := by
  induction h with
  | last hd =>
    rw [partials_cons, partials, List.flatMap_nil, List.append_nil]
    exact forall₂_inits_atPresses hd
  | next hd hu hr _ ih =>
    rw [partials_cons, History.atPresses_append, History.atPresses_append, hu.atPresses_eq_nil,
      List.map_nil, List.append_nil]
    refine List.rel_append (forall₂_inits_atPresses hd) ?_
    rw [List.forall₂_map_right_iff]
    exact List.Forall₂.imp (fun _ _ hs => hs.append (History.isDown_strokes_append hd hu hr)) ih

/-! ## 3. Parts that cover chords -/

/-- A part covers a chord: it ends in a member of the chord and has all members. -/
def Covers (part : List Input) (chord : Chord) : Prop :=
  (∃ input ∈ part.getLast?, input ∈ chord.members) ∧ chord.members ⊆ part

instance (part : List Input) (chord : Chord) : Decidable (Covers part chord) :=
  inferInstanceAs (Decidable (_ ∧ _))

theorem covers_iff_completes {part : List Input} {upTo : History} (h : StandsFor part upTo)
    (chord : Chord) : Covers part chord ↔ upTo.Completes chord := by
  obtain ⟨⟨entry, he, hl⟩, hdown⟩ := h
  have hlast : (∃ input ∈ part.getLast?, input ∈ chord.members) ↔
      ∃ e ∈ upTo.getLast?, e.input ∈ chord.members := by
    constructor
    · intro hex
      obtain ⟨input, hi, hm⟩ := hex
      exact ⟨entry, he, Option.mem_unique hi hl ▸ hm⟩
    · intro hex
      obtain ⟨e, he', hm⟩ := hex
      exact ⟨entry.input, hl, Option.mem_unique he' he ▸ hm⟩
  refine and_congr hlast ?_
  rw [List.subset_def]
  exact forall₂_congr fun input _ => (hdown input).symm

/-- **The last presses complete chords exactly when the last parts cover them.** -/
theorem Performs.completesEach_iff {lists : List (List Input)} {entries : History}
    (h : Performs lists entries) (chords : List Chord) :
    entries.CompletesEach chords ↔
      List.Forall₂ Covers (Sequence.keepLast chords.length (partials lists)) chords :=
  (Sequence.forall₂_congr_left (Sequence.forall₂_keepLast _ h.forall₂_atPresses)
    fun _ _ chord hs => covers_iff_completes hs chord).symm

theorem Covers.self {chord : Chord} (hne : chord.members ≠ []) : Covers chord.members chord :=
  ⟨⟨_, List.getLast?_eq_some_getLast hne, List.getLast_mem hne⟩, fun _ => id⟩

theorem ne_nil_of_size_eq_one {chord : Chord} (h : chord.size = 1) : chord.members ≠ [] := by
  intro e
  rw [Chord.size, e] at h
  exact absurd h nofun

/-- A single input is one press. -/
theorem partials_singles {chords : List Chord} (h : ∀ chord ∈ chords, chord.size = 1) :
    partials (chords.map Chord.members) = chords.map Chord.members := by
  induction chords with
  | nil => rfl
  | cons chord chords ih =>
    obtain ⟨input, hi⟩ := List.length_eq_one_iff.mp (h chord List.mem_cons_self)
    rw [List.map_cons, partials_cons, ih fun c hc => h c (List.mem_cons_of_mem _ hc), hi]
    rfl

/-- **A chord, in any order, and then single inputs: the last parts cover them.** -/
theorem covers_of_singles {chord : Chord} {chords : List Chord} {order : List Input}
    (hne : chord.members ≠ []) (ho : order.Perm chord.members)
    (hone : ∀ c ∈ chords, c.size = 1) :
    List.Forall₂ Covers (Sequence.keepLast (chords.length + 1)
      (partials (order :: chords.map Chord.members))) (chord :: chords) := by
  have horder : order ≠ [] := fun e => hne (List.nil_perm.mp (e ▸ ho))
  obtain ⟨first, last, rfl⟩ := (List.eq_nil_or_concat' order).resolve_left horder
  have hlen : ((first ++ [last]) :: chords.map Chord.members).length = chords.length + 1 := by
    rw [List.length_cons, List.length_map]
  rw [partials_cons, inits_tail_concat, partials_singles hone, List.append_assoc,
    List.singleton_append, Sequence.keepLast_append_of_le_length _ (Nat.le_of_eq hlen.symm),
    Sequence.keepLast_of_length_le (Nat.le_of_eq hlen)]
  refine .cons ⟨⟨last, List.getLast?_concat, ?_⟩, ho.symm.subset⟩ ?_
  · exact ho.subset (List.mem_append_right _ (List.mem_singleton_self _))
  · rw [List.forall₂_map_left_iff, List.forall₂_same]
    exact fun c hc => Covers.self (ne_nil_of_size_eq_one (hone c hc))

/-- There is a part for each input. -/
theorem length_partials (chords : List Chord) :
    (partials (chords.map Chord.members)).length = (chords.flatMap Chord.members).length := by
  induction chords with
  | nil => rfl
  | cons chord chords ih =>
    rw [List.map_cons, partials_cons, List.length_append, ih, List.length_tail, List.length_inits,
      List.flatMap_cons, List.length_append, Nat.add_sub_cancel]

theorem length_le_length_flatMap {chords : List Chord} (hne : ∀ c ∈ chords, c.members ≠ []) :
    chords.length ≤ (chords.flatMap Chord.members).length := by
  induction chords with
  | nil => exact Nat.le_refl _
  | cons chord chords ih =>
    have hpos : 1 ≤ chord.members.length := List.length_pos_iff.mpr (hne chord List.mem_cons_self)
    have hrest := ih fun c hc => hne c (List.mem_cons_of_mem _ hc)
    rw [List.flatMap_cons, List.length_append, List.length_cons]
    omega

/-- As few inputs as chords: each chord is a single input. -/
theorem size_eq_one_of_length_le {chords : List Chord} (hne : ∀ c ∈ chords, c.members ≠ [])
    (h : (chords.flatMap Chord.members).length ≤ chords.length) :
    ∀ c ∈ chords, c.size = 1 := by
  induction chords with
  | nil => exact fun c hc => absurd hc List.not_mem_nil
  | cons chord chords ih =>
    have hne' : ∀ c ∈ chords, c.members ≠ [] := fun c hc => hne c (List.mem_cons_of_mem _ hc)
    have hpos : 1 ≤ chord.members.length := List.length_pos_iff.mpr (hne chord List.mem_cons_self)
    have hrest := length_le_length_flatMap hne'
    rw [List.flatMap_cons, List.length_append, List.length_cons] at h
    intro c hc
    rcases List.mem_cons.mp hc with rfl | hc
    · show c.members.length = 1
      omega
    · exact ih hne' (by omega) c hc

/-- **Where a later chord has several inputs, the last parts all belong to later chords**, so they
    cannot cover a first chord with inputs of its own. -/
theorem singles_of_covers {chord : Chord} {chords : List Chord}
    (hne : ∀ c ∈ chords, c.members ≠ [])
    (hown : ∀ c ∈ chords, ∀ input ∈ chord.members, input ∉ c.members)
    (h : List.Forall₂ Covers (Sequence.keepLast (chords.length + 1)
      (partials ((chord :: chords).map Chord.members))) (chord :: chords)) :
    ∀ c ∈ chords, c.size = 1 := by
  refine size_eq_one_of_length_le hne (Nat.le_of_not_lt fun hlt => ?_)
  have hlen : chords.length + 1 ≤ (partials (chords.map Chord.members)).length := by
    rw [length_partials]
    exact hlt
  rw [List.map_cons, partials_cons, Sequence.keepLast_append_of_le_length _ hlen] at h
  obtain ⟨part, parts, ⟨⟨input, hi, hm⟩, -⟩, -, he⟩ := List.forall₂_cons_right_iff.mp h
  have hpart : part ∈ partials (chords.map Chord.members) :=
    (Sequence.keepLast_suffix _ _).subset (he ▸ List.mem_cons_self)
  obtain ⟨members, hmem, hpre⟩ := List.mem_flatMap.mp hpart
  obtain ⟨c, hc, rfl⟩ := List.mem_map.mp hmem
  have hbegin : part <+: c.members := (List.mem_inits _ _).mp (List.mem_of_mem_tail hpre)
  exact hown c hc input hm (hbegin.subset (List.mem_of_getLast? hi))

/-! ## 4. What carrying out leaves behind -/

theorem Performs.ne_nil {lists : List (List Input)} {entries : History}
    (h : Performs lists entries) : lists ≠ [] := by
  cases h <;> exact List.cons_ne_nil _ _

/-- The last list is still being pressed. -/
theorem Performs.endsInPress {lists : List (List Input)} {entries : History}
    (h : Performs lists entries) (hne : ∀ inputs ∈ lists, inputs ≠ []) :
    entries.endsInPress = true := by
  induction h with
  | @last inputs downs hd =>
    obtain ⟨rfl, hp⟩ := hd
    have hdowns : downs ≠ [] := fun e => hne _ (List.mem_singleton_self _) (by rw [e]; rfl)
    rw [History.endsInPress, List.getLast?_eq_some_getLast hdowns]
    exact hp _ (List.getLast_mem hdowns)
  | next _ _ _ _ ih =>
    exact History.endsInPress_append (ih fun inputs hi => hne inputs (List.mem_cons_of_mem _ hi))

/-- **Exactly the inputs of all lists but the last are released.** -/
theorem Performs.exists_release_iff {lists : List (List Input)} {entries : History}
    (h : Performs lists entries) {input : Input} :
    (∃ entry ∈ entries, entry.input = input ∧ entry.pressed = false) ↔
      input ∈ lists.dropLast.flatten := by
  have hnone : ∀ {downs : History} {inputs : List Input}, downs.Strokes true inputs →
      ¬ ∃ entry ∈ downs, entry.input = input ∧ entry.pressed = false :=
    fun hd ⟨entry, he, _, hp⟩ => Bool.noConfusion ((hd.2 entry he).symm.trans hp)
  induction h with
  | last hd => exact iff_of_false (hnone hd) List.not_mem_nil
  | next hd hu hr hl ih =>
    rw [List.dropLast_cons_of_ne_nil hl.ne_nil, List.flatten_cons, List.mem_append,
      ← hr.mem_iff, ← hu.1]
    constructor
    · intro hex
      obtain ⟨entry, he, hx, hp⟩ := hex
      rcases List.mem_append.mp he with he | he
      · rcases List.mem_append.mp he with he | he
        · exact absurd ⟨entry, he, hx, hp⟩ (hnone hd)
        · exact Or.inl (List.mem_map.mpr ⟨entry, he, hx⟩)
      · exact Or.inr (ih.mp ⟨entry, he, hx, hp⟩)
    · intro hin
      rcases hin with hi | hi
      · obtain ⟨entry, he, hx⟩ := List.mem_map.mp hi
        exact ⟨entry, List.mem_append_left _ (List.mem_append_right _ he), hx, hu.2 entry he⟩
      · obtain ⟨entry, he, hx, hp⟩ := ih.mpr hi
        exact ⟨entry, List.mem_append_right _ he, hx, hp⟩

/-- The inputs of the chords but the last, whatever the order inside the chords. -/
theorem mem_flatten_dropLast_iff {p : Pattern} {lists : List (List Input)}
    (h : List.Forall₂ List.Perm lists p.toLists) {input : Input} :
    input ∈ lists.dropLast.flatten ↔ input ∈ p.earlierInputs := by
  have hd : List.Forall₂ List.Perm lists.dropLast p.toLists.dropLast := by
    rw [List.dropLast_eq_take, List.dropLast_eq_take, h.length_eq]
    exact List.forall₂_take _ h
  have hp : lists.dropLast.flatten.Perm p.toLists.dropLast.flatten := List.Perm.flatten_congr hd
  rw [hp.mem_iff, Pattern.toLists, Pattern.earlierInputs,
    ← List.map_dropLast, List.flatMap]

/-- **A pattern carried out within the limits and the window fires** when the last parts cover its
    chords, from any earlier run. -/
theorem fires_of_covers {limits : Limits} (earlier : List TrackerOp) {p : Pattern}
    {lists : List (List Input)} {entries : History} {now : Instant} (h : Performs lists entries)
    (hlists : List.Forall₂ List.Perm lists p.toLists)
    (hf : Forward (entries.map Transition.op) now) (hlog : entries.length ≤ limits.log)
    (hroom : entries.released.length ≤ limits.releases)
    (hwindow : ∀ entry ∈ entries, entry.pressed = false → now ≤ entry.time + limits.window)
    (hcov : List.Forall₂ Covers (Sequence.keepLast p.size (partials lists)) p.chords) :
    p.fires .sequential ((Tracker.new limits).run (earlier ++ entries.map Transition.op)) now =
      true := by
  have hsize : 0 < p.size := by
    have hlen := hlists.length_eq
    rw [Pattern.toLists, List.length_map] at hlen
    exact Nat.lt_of_lt_of_eq (List.length_pos_iff.mpr h.ne_nil) hlen
  have hne : ∀ inputs ∈ lists, inputs ≠ [] := by
    intro inputs hi hnil
    subst hnil
    obtain ⟨members, hm, hperm⟩ := Sequence.exists_of_forall₂ hlists hi
    obtain ⟨chord, hc, rfl⟩ := List.mem_map.mp hm
    exact p.members_ne_nil chord hc (List.nil_perm.mp hperm)
  rw [← History.ofOps_map_op entries] at hlog hroom
  refine fires_of_completeIn earlier hf hlog hroom ?_
  rw [History.ofOps_map_op]
  refine ⟨h.endsInPress hne, hsize, (h.completesEach_iff p.chords).mpr hcov, fun input hi => ?_⟩
  obtain ⟨entry, he, hx, hp⟩ := h.exists_release_iff.mpr ((mem_flatten_dropLast_iff hlists).mpr hi)
  exact Or.inr ⟨entry, he, hx, hp, hwindow entry he hp⟩

/-! ## 5. Literal performances -/

/-- **A chord and then single inputs fire their pattern from any earlier run**: the chord in any
    order and released in any order, within the limits and within the window of each release, and
    nothing else in between. Whatever was held, logged or remembered before plays no part. -/
theorem fires_of_performs (limits : Limits) (earlier : List TrackerOp) {p : Pattern} {chord : Chord}
    {chords : List Chord} {order : List Input} {entries : History} {now : Instant}
    (hp : p.chords = chord :: chords) (hone : ∀ c ∈ chords, c.size = 1)
    (ho : order.Perm chord.members)
    (h : Performs (order :: chords.map Chord.members) entries)
    (hf : Forward (entries.map Transition.op) now) (hlog : entries.length ≤ limits.log)
    (hroom : p.earlierInputs.dedup.length ≤ limits.releases)
    (hwindow : ∀ entry ∈ entries, entry.pressed = false → now ≤ entry.time + limits.window) :
    p.fires .sequential ((Tracker.new limits).run (earlier ++ entries.map Transition.op)) now =
      true := by
  have hlists : List.Forall₂ List.Perm (order :: chords.map Chord.members) p.toLists := by
    rw [Pattern.toLists, hp]
    exact .cons ho (List.forall₂_same.mpr fun _ _ => .rfl)
  have hsub : entries.released ⊆ p.earlierInputs.dedup := by
    intro input hi
    rw [List.mem_dedup, ← mem_flatten_dropLast_iff hlists, ← h.exists_release_iff]
    exact History.mem_released_iff.mp hi
  have hreleased : entries.released.length ≤ limits.releases :=
    Nat.le_trans ((List.nodup_dedup _).length_le_of_subset hsub) hroom
  refine fires_of_covers earlier h hlists hf hlog hreleased hwindow ?_
  rw [Pattern.size, hp]
  exact covers_of_singles (p.members_ne_nil chord (hp ▸ List.mem_cons_self)) ho hone

/-- A chord and a key, each in part already held, in a log and a release history of just their
    size. -/
theorem fires_chord_then_key_while_held :
    let limits := Limits.ofNumbers 500 5 2
    let earlier : List TrackerOp :=
      [.release "KeyV" 8000, .press "ShiftLeft" 9000, .press "KeyD" 9000]
    let p := Pattern.ofLists [["KeyC", "KeyD"], ["ShiftLeft"]]
    let entries : History := [⟨"KeyD", true, 0⟩, ⟨"KeyC", true, 10⟩, ⟨"KeyC", false, 20⟩,
      ⟨"KeyD", false, 30⟩, ⟨"ShiftLeft", true, 400⟩]
    p.fires .sequential ((Tracker.new limits).run (earlier ++ entries.map Transition.op)) 400 =
      true := by
  intro limits earlier p entries
  have hperm : ["KeyC", "KeyD"].Perm ["KeyD", "KeyC"] := .swap _ _ _
  have hd : History.Strokes [⟨"KeyD", true, 0⟩, ⟨"KeyC", true, 10⟩] true ["KeyD", "KeyC"] :=
    ⟨rfl, by decide⟩
  have hu : History.Strokes [⟨"KeyC", false, 20⟩, ⟨"KeyD", false, 30⟩] false ["KeyC", "KeyD"] :=
    ⟨rfl, by decide⟩
  have hl : History.Strokes [⟨"ShiftLeft", true, 400⟩] true ["ShiftLeft"] := ⟨rfl, by decide⟩
  have hperf : Performs [["KeyD", "KeyC"], ["ShiftLeft"]] entries := .next hd hu hperm (.last hl)
  have hchords : p.chords = Chord.ofList ["KeyC", "KeyD"] :: [Chord.ofList ["ShiftLeft"]] := rfl
  exact fires_of_performs limits earlier hchords (by decide) hperm.symm hperf (by decide)
    (by decide) (by decide) (by decide)

/-- **When a literal performance fires.** Carried out chord by chord at one instant, from nothing
    and within the limits, a pattern fires exactly when the last of its parts cover its chords. They
    do if every chord but the first is a single input; and if no input of the first chord stands in
    a later one, only then. -/
theorem fires_iff_covers_of_performs {limits : Limits} {p : Pattern} {chord : Chord}
    {chords : List Chord} {entries : History} {now : Instant} (hp : p.chords = chord :: chords)
    (h : Performs p.toLists entries) (htime : ∀ entry ∈ entries, entry.time = now)
    (hlog : entries.length ≤ limits.log) (hroom : entries.length ≤ limits.releases) :
    (p.fires .sequential ((Tracker.new limits).run (entries.map Transition.op)) now = true ↔
      List.Forall₂ Covers (Sequence.keepLast p.size (partials p.toLists)) p.chords) ∧
    ((∀ c ∈ chords, c.size = 1) →
      p.fires .sequential ((Tracker.new limits).run (entries.map Transition.op)) now = true) ∧
    ((∀ c ∈ chords, ∀ input ∈ chord.members, input ∉ c.members) →
      p.fires .sequential ((Tracker.new limits).run (entries.map Transition.op)) now = true →
        ∀ c ∈ chords, c.size = 1) := by
  have hf : Forward (entries.map Transition.op) now := by
    refine forward_map_op_iff.mpr ⟨?_, fun entry he => Nat.le_of_eq (htime entry he)⟩
    rw [List.pairwise_map]
    exact List.pairwise_of_forall_mem_list fun a ha b hb =>
      Nat.le_of_eq ((htime a ha).trans (htime b hb).symm)
  have hreleased : entries.released.length ≤ limits.releases := by
    refine Nat.le_trans (List.dedup_sublist _).length_le (Nat.le_trans ?_ hroom)
    rw [List.length_map]
    exact List.length_filter_le _ _
  have hiff : p.fires .sequential ((Tracker.new limits).run (entries.map Transition.op)) now =
      true ↔ List.Forall₂ Covers (Sequence.keepLast p.size (partials p.toLists)) p.chords := by
    constructor
    · intro hfires
      have hc := completeIn_of_fires hfires
      rw [History.ofOps_map_op] at hc
      exact (h.completesEach_iff p.chords).mp hc.completesEach
    · refine fires_of_covers [] h (List.forall₂_same.mpr fun _ _ => .rfl) hf hlog hreleased ?_
      exact fun entry he _ => htime entry he ▸ Nat.le_add_right _ _
  refine ⟨hiff, fun hone => hiff.mpr ?_, fun hown hfires => ?_⟩
  · rw [Pattern.toLists, Pattern.size, hp]
    exact covers_of_singles (p.members_ne_nil chord (hp ▸ List.mem_cons_self)) (.refl _) hone
  · have hcov := hiff.mp hfires
    rw [Pattern.toLists, Pattern.size, hp] at hcov
    exact singles_of_covers
      (fun c hc => p.members_ne_nil c (hp ▸ List.mem_cons_of_mem _ hc)) hown hcov

/-- A chord that begins with the input before it fires: the input is pressed twice, and the first of
    its two presses is the one of the chord that is left out. -/
theorem fires_growing_chord :
    let limits := Limits.ofNumbers 0 4 4
    let p := Pattern.ofLists [["KeyA"], ["KeyA", "KeyB"]]
    let entries : History :=
      [⟨"KeyA", true, 7⟩, ⟨"KeyA", false, 7⟩, ⟨"KeyA", true, 7⟩, ⟨"KeyB", true, 7⟩]
    p.fires .sequential ((Tracker.new limits).run (entries.map Transition.op)) 7 = true := by
  intro limits p entries
  have hd : History.Strokes [⟨"KeyA", true, 7⟩] true ["KeyA"] := ⟨rfl, by decide⟩
  have hu : History.Strokes [⟨"KeyA", false, 7⟩] false ["KeyA"] := ⟨rfl, by decide⟩
  have hl : History.Strokes [⟨"KeyA", true, 7⟩, ⟨"KeyB", true, 7⟩] true ["KeyA", "KeyB"] :=
    ⟨rfl, by decide⟩
  have hperf : Performs p.toLists entries := .next hd hu (.refl _) (.last hl)
  have hchords : p.chords = Chord.ofList ["KeyA"] :: [Chord.ofList ["KeyA", "KeyB"]] := rfl
  have htime : ∀ entry ∈ entries, entry.time = 7 := by decide
  have hlog : entries.length ≤ limits.log := by decide
  have hroom : entries.length ≤ limits.releases := by decide
  have hfires := fires_iff_covers_of_performs hchords hperf htime hlog hroom
  exact hfires.1.mpr (by decide)

/-- **Not every literal performance fires**: a key and then a chord of two others does not. -/
theorem key_then_chord_not_fired :
    ¬ ∀ (limits : Limits) (p : Pattern) (entries : History) (now : Instant), 0 < p.size →
      Performs p.toLists entries → (∀ entry ∈ entries, entry.time = now) →
        entries.length ≤ limits.log → entries.length ≤ limits.releases →
          p.fires .sequential ((Tracker.new limits).run (entries.map Transition.op)) now =
            true := by
  intro hall
  have hd : History.Strokes [⟨"KeyA", true, 0⟩] true ["KeyA"] := ⟨rfl, by decide⟩
  have hu : History.Strokes [⟨"KeyA", false, 0⟩] false ["KeyA"] := ⟨rfl, by decide⟩
  have hl : History.Strokes [⟨"KeyB", true, 0⟩, ⟨"KeyC", true, 0⟩] true ["KeyB", "KeyC"] :=
    ⟨rfl, by decide⟩
  have hperf : Performs (Pattern.ofLists [["KeyA"], ["KeyB", "KeyC"]]).toLists
      [⟨"KeyA", true, 0⟩, ⟨"KeyA", false, 0⟩, ⟨"KeyB", true, 0⟩, ⟨"KeyC", true, 0⟩] :=
    .next hd hu (.refl _) (.last hl)
  have hfires := hall (Limits.ofNumbers 500 10 5) _ _ 0 (by decide) hperf (by decide) (by decide)
    (by decide)
  exact absurd hfires (by decide)

end KeyBindings
