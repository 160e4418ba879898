import KeyBindings.Proofs.Registration

/-!
# The clock of a replay

A replay keeps a clock that the waits alone move. What it shows can be read off the script without
that clock: each step happens when all waits BEFORE it are over, to the manager that the steps
before it leave.

* `Script.withPast`, `Script.waited` -- each step with the steps before it, and how long these wait;
* `Manager.perform`, `Manager.performAll` -- what one step does, and what all of them do;
* `Replay.firings`, `replayFrom_performAll` -- what fires and when; a replay shows just that;
* `replayFrom_append_congr` -- steps that replay alike may stand for each other in any script;
* `Manager.delayed`, `perform_delayed` -- with all instants moved, everything happens as before;
* **`follows_its_clock`**: a replay shows what fires and when, and of its clock only the differences
  between instants count.

A manager remembers instants, so one that has seen something would notice a wait in front; a new one
does not.
-/

namespace KeyBindings

variable {α : Type}

/-! ## 1. What a script does -/

namespace Script

/-- How far a step moves the clock. -/
def Step.duration : Step → Nat
  | .wait duration => duration
  | .input _ _ => 0

/-- How long some steps wait in all. -/
def waited : List Step → Nat
  | [] => 0
  | step :: steps => step.duration + waited steps

/-- Each step with the steps before it, where `past` is what comes before them all. -/
def withPast (past : List Step) : List Step → List (List Step × Step)
  | [] => []
  | step :: steps => (past, step) :: withPast (past ++ [step]) steps

theorem waited_concat (steps : List Step) (step : Step) :
    waited (steps ++ [step]) = waited steps + step.duration := by
  induction steps with
  | nil => exact Nat.add_comm _ _
  | cons first steps ih => rw [List.cons_append, waited, ih, waited, Nat.add_assoc]

/-- A wait in front is waited before all others. -/
theorem waited_wait (delay : Nat) (steps : List Step) :
    waited (.wait delay :: steps) = waited steps + delay := Nat.add_comm _ _

theorem withPast_append (past as bs : List Step) :
    withPast past (as ++ bs) = withPast past as ++ withPast (past ++ as) bs := by
  induction as generalizing past with
  | nil => rw [List.append_nil, List.nil_append, withPast, List.nil_append]
  | cons step as ih =>
    rw [List.cons_append, withPast, withPast, ih, List.append_assoc]
    rfl

/-- A step in front comes before all others. -/
theorem withPast_cons_past (first : Step) (past steps : List Step) :
    withPast (first :: past) steps =
      (withPast past steps).map fun placed => (first :: placed.1, placed.2) := by
  induction steps generalizing past with
  | nil => rfl
  | cons step steps ih => rw [withPast, withPast, List.map_cons, ← ih, List.cons_append]

end Script

open Script

namespace Manager

/-- What a step does at an instant, and what it fires. Waits and repeats do nothing. -/
def perform (m : Manager α) (now : Instant) : Step → Manager α × Fired α
  | .input .press input => m.press input now
  | .input .release input => m.release input now
  | .input .repeat _ | .wait _ => (m, .nothing)

/-- The manager after some steps, each of them performed when all waits before it are over. -/
def performAll (m : Manager α) (steps : List Step) : Manager α :=
  (withPast [] steps).foldl (fun m placed => (m.perform (waited placed.1) placed.2).1) m

theorem performAll_concat (m : Manager α) (steps : List Step) (step : Step) :
    m.performAll (steps ++ [step]) = ((m.performAll steps).perform (waited steps) step).1 := by
  rw [performAll, withPast_append, List.foldl_append]
  rfl

@[simp] theorem registry_perform (m : Manager α) (now : Instant) (step : Step) :
    (m.perform now step).1.registry = m.registry := by
  rcases step with ⟨action, input⟩ | duration
  · cases action <;> rfl
  · rfl

/-- Steps leave the bindings as they are. -/
@[simp] theorem registry_performAll (m : Manager α) (steps : List Step) :
    (m.performAll steps).registry = m.registry := by
  induction steps using List.reverseRecOn with
  | nil => rfl
  | append_singleton steps step ih => rw [performAll_concat, registry_perform, ih]

/-- What a step fires are bindings of the manager, in their order. -/
theorem ids_perform_sublist (m : Manager α) (now : Instant) (step : Step) :
    (m.perform now step).2.ids.Sublist m.registry.ids := by
  rcases step with ⟨action, input⟩ | duration
  · cases action with
    | press => exact m.ids_fired_sublist (.press input now)
    | release => exact m.ids_fired_sublist (.release input now)
    | «repeat» => exact List.nil_sublist _
  · exact List.nil_sublist _

end Manager

namespace Replay

/-- What a step fires behind the steps of its past. -/
def firedBy (m : Manager α) (past : List Step) (step : Step) : List BindingId :=
  ((m.performAll past).perform (waited past) step).2.ids

/-- What a step fires behind the steps of its past, each with the instant. -/
def firingsBy (m : Manager α) (placed : List Step × Step) : List (Instant × BindingId) :=
  (firedBy m placed.1 placed.2).map (waited placed.1, ·)

/-- **What a script fires, step by step**, each with the instant. -/
def firings (m : Manager α) (steps : List Step) : List (Instant × BindingId) :=
  (withPast [] steps).flatMap (firingsBy m)

/-! ## 2. What a replay shows -/

/-- A replay that shows just these firings. -/
def ofFirings (r : Registry α) (firings : List (Instant × BindingId)) : Replay :=
  ⟨firings.map fun firing => line r firing.1 firing.2, firings.length⟩

theorem after_ofFirings (r : Registry α) (now : Instant) (ids : List BindingId)
    (later : List (Instant × BindingId)) :
    after r now ids (ofFirings r later) = ofFirings r (ids.map (now, ·) ++ later) := by
  rw [after, ofFirings, ofFirings, List.map_append, List.map_map, List.length_append,
    List.length_map]
  rfl

/-- One step of a replay shows what the step fires, and goes on from what it does. -/
theorem replayFrom_cons (m : Manager α) (now : Instant) (step : Step) (steps : List Step) :
    replayFrom m now (step :: steps) =
      after m.registry now (m.perform now step).2.ids
        (replayFrom (m.perform now step).1 (now + step.duration) steps) := by
  have hnone : ∀ later : Replay, after m.registry now [] later = later := fun later => by
    rw [after, List.map_nil, List.nil_append, List.length_nil, Nat.zero_add]
  rcases step with ⟨action, input⟩ | duration
  · cases action with
    | press => rfl
    | release => rfl
    | «repeat» => exact (hnone _).symm
  · exact (hnone _).symm

/-- **A replay shows what its script fires and when**, whatever came before. -/
theorem replayFrom_performAll (m : Manager α) (past steps : List Step) :
    replayFrom (m.performAll past) (waited past) steps =
      ofFirings m.registry ((withPast past steps).flatMap (firingsBy m)) := by
  induction steps generalizing past with
  | nil => rfl
  | cons step steps ih =>
    rw [replayFrom_cons, ← Manager.performAll_concat, ← waited_concat, ih,
      Manager.registry_performAll, after_ofFirings, withPast, List.flatMap_cons]
    rfl

theorem replay_eq_ofFirings (m : Manager α) (steps : List Step) :
    replay m steps = ofFirings m.registry (firings m steps) :=
  replayFrom_performAll m [] steps

/-- **Steps that replay alike from anywhere replay alike** behind the same steps. -/
theorem replayFrom_append_congr {xs ys : List Step}
    (h : ∀ (m : Manager α) now, replayFrom m now xs = replayFrom m now ys) (before : List Step)
    (m : Manager α) (now : Instant) :
    replayFrom m now (before ++ xs) = replayFrom m now (before ++ ys) := by
  induction before generalizing m now with
  | nil => exact h m now
  | cons step before ih =>
    rw [List.cons_append, List.cons_append, replayFrom_cons, replayFrom_cons, ih]

/-- Two waits are one. -/
theorem replay_wait_wait (m : Manager α) (before after : List Step) (a b : Nat) :
    replay m (before ++ .wait a :: .wait b :: after) =
      replay m (before ++ .wait (a + b) :: after) := by
  refine replayFrom_append_congr (fun m now => ?_) before m 0
  rw [replayFrom, replayFrom, replayFrom, Nat.add_assoc]

/-- A wait that takes no time might as well be left out. -/
theorem replay_wait_zero (m : Manager α) (before after : List Step) :
    replay m (before ++ .wait 0 :: after) = replay m (before ++ after) := by
  refine replayFrom_append_congr (fun m now => ?_) before m 0
  rw [replayFrom, Nat.add_zero]

/-- And so might a repeat. -/
theorem replay_repeat (m : Manager α) (before after : List Step) (input : Input) :
    replay m (before ++ .input .repeat input :: after) = replay m (before ++ after) := by
  refine replayFrom_append_congr (fun m now => ?_) before m 0
  rw [replayFrom]

end Replay

/-! ## 3. All instants moved -/

/-- A transition that happens later. -/
def Transition.delayed (delay : Nat) (entry : Transition) : Transition :=
  { entry with time := entry.time + delay }

/-- A release that happens later and counts as long. -/
def Release.delayed (delay : Nat) (r : Release) : Release := { r with expiry := r.expiry + delay }

theorem Moment.ofLog_delayed (delay : Nat) (down : Chord) (log : List Transition) :
    ofLog down (log.map (·.delayed delay)) = ofLog down log := by
  induction log generalizing down with
  | nil => rfl
  | cons entry log ih => rw [List.map_cons, ofLog, ofLog, Transition.delayed, ih, ih]

namespace Tracker

variable {delay : Nat} {t : Tracker} {input : Input} {now : Instant}

/-- A tracker to which everything happened later. -/
def delayed (delay : Nat) (t : Tracker) : Tracker :=
  { t with
    log := t.log.map (·.delayed delay)
    releases := t.releases.map (·.delayed delay) }

theorem record_delayed (t : Tracker) (entry : Transition) :
    (t.delayed delay).record (entry.delayed delay) = (t.record entry).delayed delay := by
  have hlog : Sequence.dropOldest t.limits.log
        (t.log.map (·.delayed delay) ++ [entry.delayed delay]) =
      (Sequence.dropOldest t.limits.log (t.log ++ [entry])).map (·.delayed delay) := by
    rw [Sequence.map_dropOldest, List.map_append, List.map_singleton]
  simp only [record, delayed, hlog]

/-- Whether a release counts goes by the time since then. -/
theorem prune_delayed (t : Tracker) (now : Instant) :
    (t.delayed delay).prune (now + delay) = (t.prune now).delayed delay := by
  have hreleases : (t.releases.map (·.delayed delay)).filter (fun r => now + delay ≤ r.expiry) =
      (t.releases.filter fun r => now ≤ r.expiry).map (·.delayed delay) := by
    rw [List.filter_map]
    refine congrArg _ (List.filter_congr fun r _ => ?_)
    exact decide_eq_decide.mpr Nat.add_le_add_iff_right
  simp only [prune, delayed, hreleases]

theorem remember_delayed (t : Tracker) (input : Input) (now : Instant) :
    (t.delayed delay).remember input (now + delay) = (t.remember input now).delayed delay := by
  have hothers : (t.releases.map (·.delayed delay)).filter (·.input ≠ input) =
      (t.releases.filter (·.input ≠ input)).map (·.delayed delay) := List.filter_map
  have hlast : (⟨input, now + delay + t.limits.window⟩ : Release) =
      Release.delayed delay ⟨input, now + t.limits.window⟩ := by
    rw [Release.delayed, Nat.add_right_comm]
  simp only [remember, delayed, hothers, hlast, Sequence.map_dropOldest, List.map_append,
    List.map_singleton]

theorem press_delayed (t : Tracker) (input : Input) (now : Instant) :
    (t.delayed delay).press input (now + delay) = (t.press input now).delayed delay :=
  record_delayed { t with held := t.held.insert input } ⟨input, true, now⟩

theorem release_delayed (t : Tracker) (input : Input) (now : Instant) :
    (t.delayed delay).release input (now + delay) = (t.release input now).delayed delay := by
  let erased : Tracker := { t with held := t.held.erase input }
  let entry : Transition := ⟨input, false, now⟩
  calc
    (t.delayed delay).release input (now + delay) =
        (((erased.delayed delay).record (entry.delayed delay)).prune (now + delay)).remember
          input (now + delay) := rfl
    _ = (((erased.record entry).prune now).remember input now).delayed delay := by
      rw [record_delayed, prune_delayed, remember_delayed]

theorem moments_delayed : (t.delayed delay).moments = t.moments :=
  Moment.ofLog_delayed delay .empty t.log

theorem lastWasPress_delayed : (t.delayed delay).lastWasPress = t.lastWasPress := by
  show ((t.log.map _).getLast?).any _ = _
  rw [List.getLast?_map, Option.any_map]
  rfl

theorem releasedRecently_delayed :
    (t.delayed delay).releasedRecently input (now + delay) = t.releasedRecently input now := by
  show ((t.releases.map _).find? _).any _ = _
  rw [List.find?_map, Option.any_map]
  refine congrArg (Option.any · (t.releases.find? (·.input = input))) (funext fun r => ?_)
  exact decide_eq_decide.mpr Nat.add_le_add_iff_right

/-- **Whether a pattern is complete goes by the time since what happened.** -/
theorem fires_delayed (p : Pattern) (mode : Mode) :
    p.fires mode (t.delayed delay) (now + delay) = p.fires mode t now := by
  cases mode with
  | simultaneous => rfl
  | sequential =>
    simp only [Pattern.fires, lastWasPress_delayed, moments_delayed, releasedRecently_delayed]
    rfl

end Tracker

namespace Manager

variable {delay : Nat}

/-- A manager to which everything happened later. -/
def delayed (delay : Nat) (m : Manager α) : Manager α :=
  { m with tracker := m.tracker.delayed delay }

theorem dispatch_delayed (m : Manager α) (now : Instant) :
    (m.delayed delay).dispatch (now + delay) = m.dispatch now := by
  rw [dispatch, dispatch, Registry.dispatch_eq_ofBindings, Registry.dispatch_eq_ofBindings]
  exact congrArg _ (List.filter_congr fun b _ => Tracker.fires_delayed b.pattern b.mode)

/-- A manager to which everything happened later fires the same later. -/
theorem fires_of_eq_delayed {m later : Manager α} {now : Instant} (h : later = m.delayed delay) :
    (later, later.dispatch (now + delay)) = (m.delayed delay, m.dispatch now) := by
  rw [h, dispatch_delayed]

/-- **A later step does the same later, and fires the same.** -/
theorem perform_delayed (m : Manager α) (now : Instant) (step : Step) :
    (m.delayed delay).perform (now + delay) step =
      ((m.perform now step).1.delayed delay, (m.perform now step).2) := by
  rcases step with ⟨action, input⟩ | duration
  · cases action with
    | press =>
      have hafter : { m with tracker := (m.tracker.delayed delay).press input (now + delay) } =
          (m.press input now).1.delayed delay := by
        rw [Tracker.press_delayed]
        rfl
      exact fires_of_eq_delayed hafter
    | release =>
      have hafter : { m with tracker := (m.tracker.delayed delay).release input (now + delay) } =
          (m.release input now).1.delayed delay := by
        rw [Tracker.release_delayed]
        rfl
      exact fires_of_eq_delayed hafter
    | «repeat» => rfl
  · rfl

/-- Where nothing has happened, a wait in front makes everything happen later. -/
theorem performAll_wait {m : Manager α} (h : m.delayed delay = m) (steps : List Step) :
    m.performAll (.wait delay :: steps) = (m.performAll steps).delayed delay := by
  induction steps using List.reverseRecOn with
  | nil => exact h.symm
  | append_singleton steps step ih =>
    rw [← List.cons_append, performAll_concat, ih, waited_wait, perform_delayed, performAll_concat]

/-- Nothing has happened to a manager on which texts were only registered. -/
theorem delayed_of_registerAll {settings : Settings} {bindings : List String} {m : Manager Unit}
    (h : (new settings).registerAll bindings = .ok m) : m.delayed delay = m := by
  have htracker : m.tracker = .new settings.limits := tracker_of_registerAll h
  unfold delayed
  rw [htracker]
  cases m
  cases htracker
  rfl

end Manager

namespace Replay

/-! ## 4. The clock -/

/-- **A wait in front only adds to the instants.** -/
theorem firings_wait {m : Manager α} (delay : Nat) (h : m.delayed delay = m)
    (steps : List Step) :
    firings m (.wait delay :: steps) =
      (firings m steps).map fun firing => (firing.1 + delay, firing.2) := by
  have hstep : ∀ placed : List Step × Step,
      firingsBy m (.wait delay :: placed.1, placed.2) =
        (firingsBy m placed).map fun firing => (firing.1 + delay, firing.2) := by
    intro placed
    have hfired : firedBy m (.wait delay :: placed.1) placed.2 = firedBy m placed.1 placed.2 := by
      unfold firedBy
      rw [Manager.performAll_wait h, waited_wait, Manager.perform_delayed]
    unfold firingsBy
    rw [hfired, waited_wait, List.map_map]
    rfl
  calc
    firings m (.wait delay :: steps) = (withPast [.wait delay] steps).flatMap (firingsBy m) := by
      rfl
    _ = (withPast [] steps).flatMap
          fun placed => firingsBy m (.wait delay :: placed.1, placed.2) := by
      rw [withPast_cons_past, List.flatMap_map]
    _ = (firings m steps).map fun firing => (firing.1 + delay, firing.2) := by
      unfold firings
      rw [List.map_flatMap]
      exact congrArg (List.flatMap · _) (funext hstep)

/-- **A replay follows its clock, and only differences in time count.** The lines are one for each
    firing, with its instant, and they are counted. What a step fires, when all waits before it are
    over, are ids in their order, each of them that of a binding; its line has the text of that
    binding, which is the text at the place of the id. Waits next to each other count as one, waits
    of no time and repeats count for nothing, and a wait in front is added to each instant and
    changes nothing else. -/
theorem follows_its_clock {settings : Settings} {bindings : List String} {m : Manager Unit}
    (h : (Manager.new settings).registerAll bindings = .ok m) :
    (∀ steps, (replay m steps).total = (replay m steps).lines.length ∧
      (replay m steps).lines =
        (firings m steps).map fun firing => line m.registry firing.1 firing.2) ∧
    (∀ past step, (firedBy m past step).Pairwise (· < ·) ∧
      ∀ id ∈ firedBy m past step, ∃ b, m.registry.find? id = some b ∧
        bindings[id]? = some b.source ∧
        ∀ now, line m.registry now id =
          "[" ++ Failure.alignRight 6 (toString now) ++ "ms] fired " ++
            (BindingId.name id ++ " " ++ b.source)) ∧
    (∀ before after a b, replay m (before ++ .wait a :: .wait b :: after) =
      replay m (before ++ .wait (a + b) :: after)) ∧
    (∀ before after, replay m (before ++ .wait 0 :: after) = replay m (before ++ after)) ∧
    (∀ before after input, replay m (before ++ .input .repeat input :: after) =
      replay m (before ++ after)) ∧
    ∀ delay steps,
      (replay m (.wait delay :: steps)).total = (replay m steps).total ∧
        (replay m (.wait delay :: steps)).lines =
          (firings m steps).map fun firing =>
            line m.registry (firing.1 + delay) firing.2 := by
  refine ⟨fun steps => ?_, fun past step => ?_, replay_wait_wait m, replay_wait_zero m,
    replay_repeat m, fun delay steps => ?_⟩
  · rw [replay_eq_ofFirings]
    exact ⟨(List.length_map _).symm, rfl⟩
  · have hordered := Manager.ordered_of_registerAll h
    have hsub : (firedBy m past step).Sublist m.registry.ids := by
      have hfired := (m.performAll past).ids_perform_sublist (waited past) step
      rwa [Manager.registry_performAll] at hfired
    refine ⟨hordered.rising.sublist hsub, fun id hid => ?_⟩
    obtain ⟨b, hb, rfl⟩ := List.mem_map.mp (hsub.subset hid)
    have hfound : m.registry.find? b.id = some b := hordered.find?_id hb
    refine ⟨b, hfound, Manager.getElem?_id_of_mem h hb, fun now => ?_⟩
    rw [line, describe, hfound]
  · have hdelayed := firings_wait delay (Manager.delayed_of_registerAll h) steps
    rw [replay_eq_ofFirings, replay_eq_ofFirings, hdelayed]
    refine ⟨List.length_map _, ?_⟩
    show List.map _ (List.map _ _) = _
    rw [List.map_map]
    rfl

/-- A double tap at the last instant of the window. The pause may be cut in two, and a wait in front
    puts the one line off. -/
theorem double_tap_after_a_pause :
    ∃ m, (Manager.new .default).registerAll ["KeyA", "KeyD > KeyD"] = .ok m ∧
      replay m [.input .press "KeyD", .input .release "KeyD", .wait 200, .wait 300,
          .input .press "KeyD"] =
        replay m [.input .press "KeyD", .input .release "KeyD", .wait 500,
          .input .press "KeyD"] ∧
      (replay m [.wait 7, .input .press "KeyD", .input .release "KeyD", .wait 500,
          .input .press "KeyD"]).lines = ["[   507ms] fired #1 KeyD > KeyD"] := by
  have h : (Manager.new .default).registerAll ["KeyA", "KeyD > KeyD"] = .ok _ := rfl
  refine ⟨_, h, ?_, ?_⟩
  · exact (follows_its_clock h).2.2.1 [.input .press "KeyD", .input .release "KeyD"]
      [.input .press "KeyD"] 200 300
  · refine ((follows_its_clock h).2.2.2.2.2 7 [.input .press "KeyD", .input .release "KeyD",
      .wait 500, .input .press "KeyD"]).2.trans ?_
    decide

end Replay

end KeyBindings
