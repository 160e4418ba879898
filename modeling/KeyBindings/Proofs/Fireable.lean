import KeyBindings.Proofs.Performance
import KeyBindings.Proofs.Simultaneous

/-!
# Every accepted binding can be fired

Carrying a pattern out chord by chord fires it only if the later chords are single inputs
(`KeyBindings.Proofs.Performance`). But there is a run that fires any pattern: press ALL its inputs,
then for each chord let one of its members go and press it again. The last presses line up with the
chords, everything is down at each of them, and nothing has to be remembered of the releases.

* `History.Alternating` -- from nothing down, each input goes down, up, down, and so on;
* `History.presses`, `History.represses` -- the two parts of such a run, which alternate
  (`alternating_presses`, `Alternating.append_represses`);
* `completesEach_represses` -- the second part completes the chords, where all their inputs are down;
* `exists_run_fires` -- from nothing, within the log, either mode can be fired at any instant;
* **`every_binding_fires_in_some_run`**: so no binding that was accepted is dead.
-/

namespace KeyBindings

namespace History

variable {past : History} {inputs : List Input} {chords : List Chord} {now : Instant}

/-! ## 1. Alternating transitions -/

/-- Which transitions of an input are presses, oldest first. -/
def turns (past : History) (input : Input) : List Bool :=
  (past.filter (·.input = input)).map (·.pressed)

/-- From nothing down, the transitions of each input are a press, a release, a press, and so on. -/
def Alternating (past : History) : Prop := ∀ input, (false :: past.turns input).IsChain (· ≠ ·)

theorem turns_concat (past : History) (entry : Transition) (input : Input) :
    turns (past ++ [entry]) input =
      if entry.input = input then past.turns input ++ [entry.pressed] else past.turns input := by
  rw [turns, List.filter_append, List.map_append]
  by_cases h : entry.input = input <;> simp [turns, h]

/-- The latest turn of an input says whether it is down. -/
theorem getLast?_turns (past : History) (input : Input) :
    (false :: past.turns input).getLast? = some (past.isDown input) := by
  induction past using List.reverseRecOn with
  | nil => rfl
  | append_singleton past entry ih =>
    rw [isDown_concat, turns_concat]
    split
    · rw [← List.cons_append, List.getLast?_concat]
    · exact ih

theorem alternating_nil : Alternating [] := fun _ => .singleton false

/-- A transition that changes whether its input is down goes on alternating. -/
theorem Alternating.concat (h : past.Alternating) {entry : Transition}
    (hne : past.isDown entry.input ≠ entry.pressed) : Alternating (past ++ [entry]) := by
  intro input
  rw [turns_concat]
  split
  · next hx =>
    subst hx
    rw [← List.cons_append, List.isChain_append]
    refine ⟨h entry.input, .singleton _, fun last hlast first hfirst => ?_⟩
    rw [Option.mem_unique hlast (getLast?_turns past entry.input),
      ← Option.mem_some_iff.mp hfirst]
    exact hne
  · exact h input

/-! ## 2. Pressing all, and pressing again -/

/-- Inputs pressed one after the other at an instant. -/
def presses (inputs : List Input) (now : Instant) : History := inputs.map (⟨·, true, now⟩)

/-- Inputs let go and pressed again, one after the other at an instant. -/
def represses (inputs : List Input) (now : Instant) : History :=
  inputs.flatMap fun input => [⟨input, false, now⟩, ⟨input, true, now⟩]

theorem strokes_presses (inputs : List Input) (now : Instant) :
    (presses inputs now).Strokes true inputs := by
  constructor
  · rw [presses, List.map_map]
    exact List.map_id inputs
  · intro entry he
    obtain ⟨input, -, rfl⟩ := List.mem_map.mp he
    rfl

theorem alternating_presses (h : inputs.Nodup) : (presses inputs now).Alternating := by
  induction inputs using List.reverseRecOn with
  | nil => exact alternating_nil
  | append_singleton inputs input ih =>
    obtain ⟨hinputs, -, hnew⟩ := List.nodup_append.mp h
    rw [presses, List.map_append]
    refine (ih hinputs).concat fun hdown => ?_
    have hmem : input ∈ inputs := (strokes_presses inputs now).isDown_iff.mp hdown
    exact hnew input hmem input (List.mem_singleton_self input) rfl

/-- What is down stays down when an input is let go and pressed again. -/
theorem isDown_represses {again input : Input} (h : past.isDown input = true) :
    isDown (past ++ [⟨again, false, now⟩, ⟨again, true, now⟩]) input = true := by
  show isDown (past ++ ([⟨again, false, now⟩] ++ [⟨again, true, now⟩])) input = true
  rw [← List.append_assoc, isDown_concat, isDown_concat]
  by_cases hx : again = input
  · simp [hx]
  · simp [hx, h]

theorem Alternating.append_represses (h : past.Alternating)
    (hdown : ∀ input ∈ inputs, past.isDown input = true) :
    Alternating (past ++ represses inputs now) := by
  induction inputs generalizing past with
  | nil => rwa [represses, List.flatMap_nil, List.append_nil]
  | cons input inputs ih =>
    have hreleased : Alternating (past ++ [⟨input, false, now⟩]) := by
      refine h.concat ?_
      rw [hdown input List.mem_cons_self]
      exact nofun
    have hpressed : Alternating (past ++ [⟨input, false, now⟩] ++ [⟨input, true, now⟩]) := by
      refine hreleased.concat ?_
      rw [isDown_concat, if_pos rfl]
      exact nofun
    rw [List.append_assoc] at hpressed
    rw [represses, List.flatMap_cons, ← List.append_assoc]
    exact ih hpressed fun other ho => isDown_represses (hdown other (List.mem_cons_of_mem _ ho))

/-- **Each press again completes its chord**, where all members are down. -/
theorem forall₂_completes_represses (now : Instant)
    (hleads : List.Forall₂ (fun input chord => input ∈ chord.members) inputs chords)
    (hdown : ∀ chord ∈ chords, ∀ input ∈ chord.members, past.isDown input = true) :
    List.Forall₂ Completes ((represses inputs now).atPresses.map (past ++ ·)) chords := by
  induction hleads generalizing past with
  | nil => exact .nil
  | @cons input chord inputs chords hlead _ ih =>
    have hfirst : atPresses [⟨input, false, now⟩, ⟨input, true, now⟩] =
        [[⟨input, false, now⟩, ⟨input, true, now⟩]] := rfl
    have hstay : ∀ c ∈ chord :: chords, ∀ other ∈ c.members,
        isDown (past ++ [⟨input, false, now⟩, ⟨input, true, now⟩]) other = true :=
      fun c hc other ho => isDown_represses (hdown c hc other ho)
    have hrest := ih fun c hc => hstay c (List.mem_cons_of_mem _ hc)
    rw [represses, List.flatMap_cons, atPresses_append, hfirst, List.map_append, List.map_map]
    refine .cons ⟨⟨⟨input, true, now⟩, ?_, hlead⟩, hstay chord List.mem_cons_self⟩ ?_
    · rw [Option.mem_def, List.getLast?_append]
      rfl
    · refine Eq.mp ?_ hrest
      simp [Function.comp_def, represses]

theorem completesEach_represses
    (hleads : List.Forall₂ (fun input chord => input ∈ chord.members) inputs chords)
    (hdown : ∀ chord ∈ chords, ∀ input ∈ chord.members, past.isDown input = true) :
    CompletesEach (past ++ represses inputs now) chords := by
  have heach := forall₂_completes_represses now hleads hdown
  have hlen := heach.length_eq
  rw [CompletesEach, atPresses_append, Sequence.keepLast_append_of_le_length _ hlen.ge,
    Sequence.keepLast_of_length_le hlen.le]
  exact heach

/-! ## 3. What such runs leave -/

theorem isDown_append_represses {input : Input} (h : past.isDown input = true) :
    isDown (past ++ represses inputs now) input = true := by
  induction inputs generalizing past with
  | nil => rwa [represses, List.flatMap_nil, List.append_nil]
  | cons again inputs ih =>
    rw [represses, List.flatMap_cons, ← List.append_assoc]
    exact ih (isDown_represses h)

theorem endsInPress_represses (h : inputs ≠ []) : (represses inputs now).endsInPress = true := by
  obtain ⟨inputs, input, rfl⟩ := (List.eq_nil_or_concat' inputs).resolve_left h
  rw [represses, List.flatMap_append]
  refine endsInPress_append ?_
  rw [List.flatMap_singleton]
  rfl

theorem length_represses (inputs : List Input) (now : Instant) :
    (represses inputs now).length = 2 * inputs.length := by
  rw [represses, List.length_flatMap]
  simp [Nat.mul_comm]

theorem time_of_mem_presses {entry : Transition} (h : entry ∈ presses inputs now) :
    entry.time = now := by
  obtain ⟨input, -, rfl⟩ := List.mem_map.mp h
  rfl

theorem time_of_mem_represses {entry : Transition} (h : entry ∈ represses inputs now) :
    entry.time = now := by
  obtain ⟨input, -, he⟩ := List.mem_flatMap.mp h
  rcases List.mem_pair.mp he with rfl | rfl <;> rfl

/-- Distinct inputs pressed are down in the order in which they were pressed. -/
theorem members_down_presses (h : inputs.Nodup) : (presses inputs now).down.members = inputs := by
  have hdown : (presses inputs now).down = Chord.ofList inputs := List.foldl_map
  rw [hdown, Chord.members_ofList_of_nodup h]

end History

/-! ## 4. Either mode can be fired -/

variable {limits : Limits} {p : Pattern} {now : Instant}

/-- A pattern fires whose chords were completed while its inputs are held, if nothing has left the
    log. Nothing is asked of the release history. -/
theorem fires_of_held {entries : History} (hsize : 0 < p.size)
    (hlog : entries.length ≤ limits.log) (hlast : entries.endsInPress = true)
    (heach : entries.CompletesEach p.chords)
    (hheld : ∀ input ∈ p.earlierInputs, entries.isDown input = true) :
    p.fires .sequential ((Tracker.new limits).run (entries.map Transition.op)) now = true := by
  have hfollows := Tracker.follows_run limits ([] ++ entries.map Transition.op)
  rw [← History.ofOps_map_op entries] at hlog hlast heach hheld
  exact fires_of_completesEach hlog hlast hsize heach fun input hi =>
    Or.inl (hfollows.isHeld_iff.mpr (hheld input hi))

/-- Each chord has a member that can be pressed for it. -/
theorem exists_leads {chords : List Chord} (h : ∀ chord ∈ chords, chord.members ≠ []) :
    ∃ inputs : List Input, List.Forall₂ (fun input chord => input ∈ chord.members) inputs chords := by
  induction chords with
  | nil => exact ⟨[], .nil⟩
  | cons chord chords ih =>
    obtain ⟨inputs, hinputs⟩ := ih fun c hc => h c (List.mem_cons_of_mem _ hc)
    obtain ⟨input, hinput⟩ := List.exists_mem_of_ne_nil _ (h chord List.mem_cons_self)
    exact ⟨input :: inputs, .cons hinput hinputs⟩

/-- **A sequence fires** when all its inputs are pressed and then, chord by chord, one is pressed
    again. -/
theorem fires_represses {leads : List Input} (hne : p.chords ≠ [])
    (hleads : List.Forall₂ (fun input chord => input ∈ chord.members) leads p.chords)
    (hlog : p.flatten.dedup.length + 2 * p.size ≤ limits.log) :
    p.fires .sequential ((Tracker.new limits).run
      ((History.presses p.flatten.dedup now ++ History.represses leads now).map Transition.op))
        now = true := by
  have hlen : leads.length = p.size := hleads.length_eq
  have hsize : 0 < p.size := List.length_pos_iff.mpr hne
  have hdown : ∀ input ∈ p.flatten, (History.presses p.flatten.dedup now).isDown input = true :=
    fun input hi => (History.strokes_presses _ now).isDown_iff.mpr (List.mem_dedup.mpr hi)
  refine fires_of_held hsize ?_ ?_ ?_ ?_
  · rw [List.length_append, History.presses, List.length_map, History.length_represses, hlen]
    exact hlog
  · refine History.endsInPress_append (History.endsInPress_represses ?_)
    exact List.length_pos_iff.mp (hlen ▸ hsize)
  · refine History.completesEach_represses hleads fun chord hc input hi => hdown input ?_
    exact List.mem_flatMap.mpr ⟨chord, hc, hi⟩
  · intro input hi
    obtain ⟨chord, hc, hmem⟩ := List.mem_flatMap.mp hi
    refine History.isDown_append_represses (hdown input ?_)
    exact List.mem_flatMap.mpr ⟨chord, List.mem_of_mem_dropLast hc, hmem⟩

/-- **Inputs held together fire** when they are pressed in order. -/
theorem fires_presses (hne : p.flatten ≠ []) (hnodup : p.flatten.Nodup) :
    p.fires .simultaneous
      ((Tracker.new limits).run ((History.presses p.flatten now).map Transition.op)) now = true := by
  have hheld := (Tracker.follows_run limits ((History.presses p.flatten now).map Transition.op)).held
  rw [History.ofOps_map_op] at hheld
  rw [Pattern.fires_simultaneous_iff, hheld, History.members_down_presses hnodup]
  exact ⟨hne, List.infix_rfl⟩

/-- **From nothing down, either mode is fired by an alternating run at one instant**, which ends in a
    press. The log has to keep a press of each input, and a release and a press for each chord. -/
theorem exists_run_fires {mode : Mode} (hne : p.chords ≠ [])
    (hnodup : mode = .simultaneous → p.flatten.Nodup)
    (hlog : p.flatten.dedup.length + 2 * p.size ≤ limits.log) (now : Instant) :
    ∃ entries : History, entries.Alternating ∧ (∀ entry ∈ entries, entry.time = now) ∧
      entries.endsInPress = true ∧
      p.fires mode ((Tracker.new limits).run (entries.map Transition.op)) now = true := by
  cases mode with
  | simultaneous =>
    have hflat : p.flatten ≠ [] := Pattern.flatten_ne_nil hne
    refine ⟨History.presses p.flatten now, History.alternating_presses (hnodup rfl),
      fun entry he => History.time_of_mem_presses he, ?_, fires_presses hflat (hnodup rfl)⟩
    rw [History.endsInPress, History.presses, List.getLast?_map,
      List.getLast?_eq_some_getLast hflat]
    rfl
  | sequential =>
    obtain ⟨leads, hleads⟩ := exists_leads p.members_ne_nil
    have hlen : leads.length = p.size := hleads.length_eq
    have hpressed : ∀ input ∈ leads,
        (History.presses p.flatten.dedup now).isDown input = true := by
      intro input hi
      obtain ⟨chord, hc, hmem⟩ := Sequence.exists_of_forall₂ hleads hi
      rw [(History.strokes_presses _ now).isDown_iff, List.mem_dedup]
      exact List.mem_flatMap.mpr ⟨chord, hc, hmem⟩
    refine ⟨_, (History.alternating_presses (List.nodup_dedup _)).append_represses hpressed, ?_, ?_,
      fires_represses hne hleads hlog⟩
    · intro entry he
      rcases List.mem_append.mp he with he | he
      · exact History.time_of_mem_presses he
      · exact History.time_of_mem_represses he
    · refine History.endsInPress_append (History.endsInPress_represses ?_)
      exact List.length_pos_iff.mp (hlen ▸ List.length_pos_iff.mpr hne)

/-! ## 5. Bindings of a manager -/

variable {α : Type}

/-- The call that makes a transition. -/
def Transition.call (entry : Transition) : ManagerOp α :=
  if entry.pressed then .press entry.input entry.time else .release entry.input entry.time

namespace Manager

/-- Calls tell the tracker their transitions. -/
theorem tracker_run_map_call (m : Manager α) (entries : History) :
    (m.run (entries.map Transition.call)).tracker = m.tracker.run (entries.map Transition.op) := by
  induction entries using List.reverseRecOn with
  | nil => rfl
  | append_singleton entries entry ih =>
    have hstep : ∀ m : Manager α, (m.step entry.call).tracker = m.tracker.step entry.op := by
      intro m
      rw [Transition.call, Transition.op]
      split <;> rfl
    rw [List.map_append, List.map_append, List.map_singleton, List.map_singleton, run_concat, hstep,
      ih, Tracker.run_append]
    rfl

/-- A call takes no binding out. -/
theorem call_ne_unregister (entry : Transition) (id : BindingId) :
    (entry.call : ManagerOp α) ≠ .unregister id := by
  rw [Transition.call]
  split <;> exact nofun

end Manager

/-- **No accepted binding is dead.** Once a text is accepted, and as long as the binding is not
    taken out, it can be fired from wherever live input has been forgotten: there are presses and
    releases, all at any one instant and alternating for each input, whose last press fires it,
    once, its id noted beside its callback. The log has to be long enough for a press of each input
    of the binding and two transitions for each of its chords; the release history may be as short
    as it can be. -/
theorem every_binding_fires_in_some_run (settings : Settings) {before after : List (ManagerOp α)}
    {binding : String} {callback : α} {m : Manager α} {id : BindingId} {b : Binding α}
    (hreg : ((Manager.new settings).run before).tryRegister binding callback = (m, .ok id))
    (hfound : m.registry.find? id = some b)
    (hlog : b.pattern.flatten.dedup.length + 2 * b.pattern.size ≤ settings.maxInputs)
    (hkept : ∀ op ∈ after, op ≠ .unregister id)
    (hidle : (m.run after).tracker = .new settings.limits) (now : Instant) :
    ∃ (entries : History) (input : Input),
      History.Alternating (entries ++ [⟨input, true, now⟩]) ∧
      (∀ entry ∈ entries, entry.time = now) ∧
      let fired := (((m.run after).run (entries.map Transition.call)).press input now).2
      fired.ids.length = fired.called.length ∧ fired.callsOf id = [callback] := by
  obtain ⟨p, mode, haccepted, -, honly⟩ := Manager.only_of_tryRegister hreg
  obtain rfl : ⟨id, binding, p, mode, callback⟩ = b := Option.some.inj (honly.find?.symm.trans hfound)
  have hnodup : mode = .simultaneous → p.flatten.Nodup := by
    rintro rfl
    exact Pattern.nodup_flatten_of_ofBinding haccepted
  have hroom : p.flatten.dedup.length + 2 * p.size ≤ settings.limits.log := hlog
  obtain ⟨whole, halternating, htime, hlast, hfires⟩ :=
    exists_run_fires (Pattern.chords_ne_nil_of_ofBinding haccepted) hnodup hroom now
  rcases List.eq_nil_or_concat' whole with rfl | ⟨entries, ⟨input, pressed, time⟩, rfl⟩
  · exact absurd hlast nofun
  have hpressed : pressed = true := by
    rwa [History.endsInPress, List.getLast?_concat, Option.any_some] at hlast
  have hnow : time = now := htime _ (List.mem_append_right _ (List.mem_singleton_self _))
  subst hpressed hnow
  refine ⟨entries, input, halternating, fun entry he => htime entry (List.mem_append_left _ he),
    Manager.length_ids_feed _ ⟨input, true, time⟩, ?_⟩
  have hcalls : ∀ op ∈ entries.map Transition.call, op ≠ (.unregister id : ManagerOp α) := by
    intro op hop
    obtain ⟨entry, -, rfl⟩ := List.mem_map.mp hop
    exact Manager.call_ne_unregister entry id
  have hstill := Manager.only_run (Manager.only_run honly hkept) hcalls
  have hfeed := Manager.callsOf_feed hstill ⟨input, true, time⟩
  rw [Manager.tracker_run_map_call, hidle] at hfeed
  rw [List.map_append, Tracker.run_append] at hfires
  exact hfeed.trans (if_pos hfires)

/-- A key and then a chord, which carried out chord by chord does not fire: in a log of just the
    seven transitions, with one release remembered, and after a key has been forgotten. -/
theorem key_then_chord_fires_in_some_run :
    let settings := (Settings.default.withMaxInputs 7).withMaxReleases 1
    let before : List (ManagerOp Nat) := [.register "KeyZ" 1]
    let after : List (ManagerOp Nat) := [.press "KeyB" 5, .clear]
    ∃ m b, ((Manager.new settings).run before).tryRegister "KeyA > KeyB + KeyC" 2 = (m, .ok 1) ∧
      m.registry.find? 1 = some b ∧
      b.pattern.flatten.dedup.length + 2 * b.pattern.size ≤ settings.maxInputs ∧
      (∀ op ∈ after, op ≠ .unregister 1) ∧
      (m.run after).tracker = .new settings.limits ∧
      ∃ (entries : History) (input : Input),
        History.Alternating (entries ++ [⟨input, true, 40⟩]) ∧
        (∀ entry ∈ entries, entry.time = 40) ∧
        let fired := (((m.run after).run (entries.map Transition.call)).press input 40).2
        fired.ids.length = fired.called.length ∧ fired.callsOf 1 = [2] := by
  intro settings before after
  let m := (((Manager.new settings).run before).register "KeyA > KeyB + KeyC" 2).1
  have hreg : ((Manager.new settings).run before).tryRegister "KeyA > KeyB + KeyC" 2 =
      (m, .ok 1) := rfl
  have hkept : ∀ op ∈ after, op ≠ .unregister 1 := by simp [after]
  refine ⟨m, _, hreg, rfl, by decide, hkept, rfl, ?_⟩
  exact every_binding_fires_in_some_run settings hreg rfl (by decide) hkept rfl 40

end KeyBindings
