import KeyBindings.Proofs.Dispatch

/-!
# Host events and direct calls

Where keys are named by their place, a host may hand its events over or call for presses and
releases by name; it may mix both, and repeat, lose or invent events as it likes. Nothing depends on
which it does, although only the events use the code table.

* `ManagerOp.direct?` -- the call that stands for an operation, if one does;
* `Manager.CodesAreNames` -- the invariant of the code table: whatever it knows of a code is the
  code itself. So what it answers for a release is what the release says by itself
  (`CodesAreNames.target_eq`), and forgetting it changes nothing;
* `forgetCodes_step`, `forgetCodes_run` -- the calls lead to the same manager, less its code table;
* **`events_agree_with_direct_calls`**: the same tracker, the same bindings and the same that runs,
  step by step.

With logical names this is false, and meant to be: there a key may come up under another text than
it went down with, and the code table is what frees the right input.
-/

namespace KeyBindings

variable {α : Type}

/-! ## 1. Calls that stand for events -/

/-- The call for what happens to an input. A repeat calls for nothing. -/
def Action.call? (input : Input) (now : Instant) : Action → Option (ManagerOp α)
  | .press => some (.press input now)
  | .release => some (.release input now)
  | .repeat => none

/-- The operation that stands for an operation where events are not used: a key's event becomes a
    call by its code, a button's event one by its name, and everything else stays as it is. -/
def ManagerOp.direct? : ManagerOp α → Option (ManagerOp α)
  | .handle (.key code _ action) now => if code = "" then none else action.call? code now
  | .handle (.mouse button action) now => action.call? (mouseButtonName button) now
  | op => some op

/-- A call names the input that the event stands for. -/
theorem ManagerOp.direct?_handle (event : Event) (now : Instant) :
    (handle event now : ManagerOp α).direct? =
      (event.input? .physical).bind fun input => event.action.call? input now := by
  cases event with
  | key code text action =>
    rw [direct?, Event.input?, KeyNaming.pick]
    split <;> rfl
  | mouse button action => rfl

namespace Manager

variable {m : Manager α} {event : Event}

/-! ## 2. The code table knows nothing new -/

/-- What the code table knows of a code is the code itself, and it knows of no empty code. -/
def CodesAreNames (m : Manager α) : Prop :=
  ∀ code input, m.codes.get? code = some input → input = code ∧ code ≠ ""

theorem codesAreNames_of_empty (h : m.codes = .empty) : m.CodesAreNames := by
  intro code input hknown
  rw [h, CodeTable.get?_empty] at hknown
  exact absurd hknown nofun

theorem CodesAreNames.noteCode (h : m.CodesAreNames) {input : Input}
    (hi : event.input? .physical = some input) : (m.noteCode event input).CodesAreNames := by
  cases event with
  | mouse button action => exact h
  | key code text action =>
    rw [Manager.noteCode, Event.code?]
    dsimp only
    split
    · exact h
    · next hcode =>
      intro other known hknown
      rw [CodeTable.get?_put] at hknown
      split at hknown
      · next hother =>
        obtain rfl := Option.some.inj hknown
        exact ⟨hother ▸ Event.eq_code_of_input?_physical rfl hi, hother ▸ hcode⟩
      · exact h other known hknown

theorem CodesAreNames.dropCode (h : m.CodesAreNames) (event : Event) :
    (m.dropCode event).CodesAreNames := by
  intro code input hknown
  rw [get?_codes_dropCode, Option.ite_none_left_eq_some] at hknown
  exact h code input hknown.2

/-- **A release is applied to the input that it names itself**, known or not. -/
theorem CodesAreNames.target_eq (h : m.CodesAreNames) (event : Event) :
    (m.knownInput? event).or (event.input? .physical) = event.input? .physical := by
  cases hknown : m.knownInput? event with
  | none => exact Option.none_or
  | some input =>
    cases event with
    | mouse button action => exact absurd hknown nofun
    | key code text action =>
      obtain ⟨rfl, hcode⟩ := h code input hknown
      rw [Option.some_or, Event.input?, KeyNaming.pick, if_neg hcode]

/-- An operation keeps the code table to names. -/
theorem CodesAreNames.step (h : m.CodesAreNames) (hnaming : m.settings.naming = .physical)
    (op : ManagerOp α) : (m.step op).CodesAreNames := by
  cases op with
  | register binding callback =>
    obtain ⟨registry, hm⟩ := exists_registry_register m binding callback
    rw [Manager.step, hm]
    exact h
  | unregister id => exact h
  | press input now => exact h
  | release input now => exact h
  | clear => exact codesAreNames_of_empty rfl
  | handle event now =>
    rw [Manager.step, handle, hnaming]
    cases event.action with
    | «repeat» => exact h
    | press =>
      cases hi : event.input? .physical with
      | none => exact h
      | some input => exact h.noteCode hi
    | release =>
      cases (m.knownInput? event).or (event.input? .physical) with
      | none => exact h.dropCode event
      | some input => exact h.dropCode event

/-- No run changes how keys are named. -/
theorem naming_run (settings : Settings) (ops : List (ManagerOp α)) :
    ((new settings).run ops).settings.naming = settings.naming := by
  rw [settings_run]
  rfl

/-- **The code table holds names only, after every run.** -/
theorem codesAreNames_run {settings : Settings} (hnaming : settings.naming = .physical)
    (ops : List (ManagerOp α)) : ((new settings).run ops).CodesAreNames := by
  induction ops using List.reverseRecOn with
  | nil => exact codesAreNames_of_empty rfl
  | append_singleton ops op ih =>
    rw [run_concat]
    exact ih.step ((naming_run settings ops).trans hnaming) op

/-! ## 3. A manager without its code table -/

/-- A manager that knows of no code. -/
def forgetCodes (m : Manager α) : Manager α := { m with codes := .empty }

theorem forgetCodes_noteCode (m : Manager α) (event : Event) (input : Input) :
    (m.noteCode event input).forgetCodes = m.forgetCodes := by
  unfold noteCode
  split
  · rfl
  · split <;> rfl

theorem forgetCodes_dropCode (m : Manager α) (event : Event) :
    (m.dropCode event).forgetCodes = m.forgetCodes := by
  unfold dropCode
  split <;> rfl

/-- The call that stands for an event does what the event does. -/
theorem forgetCodes_handle (h : m.CodesAreNames) (hnaming : m.settings.naming = .physical)
    (event : Event) (now : Instant) :
    m.forgetCodes.run (ManagerOp.handle event now).direct?.toList =
      (m.handle event now).1.forgetCodes := by
  rw [ManagerOp.direct?_handle, handle, hnaming]
  cases event.action with
  | «repeat» => cases event.input? .physical <;> rfl
  | press =>
    cases event.input? .physical with
    | none => rfl
    | some input =>
      show (m.forgetCodes.press input now).1 =
        ((m.noteCode event input).forgetCodes.press input now).1
      rw [forgetCodes_noteCode]
  | release =>
    rw [h.target_eq event]
    cases event.input? .physical with
    | none => exact (forgetCodes_dropCode m event).symm
    | some input =>
      show (m.forgetCodes.release input now).1 =
        ((m.dropCode event).forgetCodes.release input now).1
      rw [forgetCodes_dropCode]

/-- **The call that stands for an operation does what the operation does**, the code table apart. -/
theorem forgetCodes_step (h : m.CodesAreNames) (hnaming : m.settings.naming = .physical)
    (op : ManagerOp α) :
    m.forgetCodes.run op.direct?.toList = (m.step op).forgetCodes := by
  cases op with
  | register binding callback =>
    have hnames : m.forgetCodes.settings = m.settings := rfl
    show (m.forgetCodes.register binding callback).1 = (m.register binding callback).1.forgetCodes
    rw [register, register, tryRegister, tryRegister, hnames]
    cases Pattern.ofBinding m.settings.naming binding <;> rfl
  | unregister id => rfl
  | press input now => rfl
  | release input now => rfl
  | clear => rfl
  | handle event now => exact forgetCodes_handle h hnaming event now

/-- **The calls lead where the events lead**, the code table apart. -/
theorem forgetCodes_run {settings : Settings} (hnaming : settings.naming = .physical)
    (ops : List (ManagerOp α)) :
    (new settings).run (ops.filterMap ManagerOp.direct?) =
      ((new settings).run ops).forgetCodes := by
  induction ops using List.reverseRecOn with
  | nil => rfl
  | append_singleton ops op ih =>
    have hlast : [op].filterMap ManagerOp.direct? = op.direct?.toList := by
      cases h : op.direct? <;> simp [h]
    rw [List.filterMap_append, run_append, ih, hlast, run_concat]
    exact forgetCodes_step (codesAreNames_run hnaming ops)
      ((naming_run settings ops).trans hnaming) op

/-- What the tracker is told is what the call tells it. -/
theorem trackerOp?_direct? (h : m.CodesAreNames) (hnaming : m.settings.naming = .physical)
    (op : ManagerOp α) : op.direct?.bind m.forgetCodes.trackerOp? = m.trackerOp? op := by
  cases op with
  | register binding callback => rfl
  | unregister id => rfl
  | press input now => rfl
  | release input now => rfl
  | clear => rfl
  | handle event now =>
    rw [ManagerOp.direct?_handle, trackerOp?, hnaming, h.target_eq event]
    cases event.action <;> cases event.input? .physical <;> rfl

/-- **The call runs what the event runs**, and an event without a call runs nothing. -/
theorem fired_direct? (h : m.CodesAreNames) (hnaming : m.settings.naming = .physical)
    (op : ManagerOp α) : op.direct?.elim .nothing m.forgetCodes.fired = m.fired op := by
  have hstep := forgetCodes_step h hnaming op
  have htold := trackerOp?_direct? h hnaming op
  rw [fired_eq m op, firing, firesAt?, ← htold]
  cases hcall : op.direct? with
  | none => rfl
  | some call =>
    have htracker : (m.forgetCodes.step call).tracker = (m.step op).tracker := by
      rw [hcall] at hstep
      show (m.forgetCodes.run [call]).tracker = (m.step op).forgetCodes.tracker
      exact congrArg Manager.tracker hstep
    show m.forgetCodes.fired call = _
    rw [fired_eq, firing, htracker]
    rfl

end Manager

/-! ## 4. Events and calls agree -/

open Manager in
/-- **Host events and direct calls agree.** Where keys are named by their place, take any run and
    put in for each event the call that stands for it, if one does. After the same steps the tracker
    is the same and so are the bindings; each call runs what its event ran, and an event for which
    no call stands ran nothing. -/
theorem events_agree_with_direct_calls {settings : Settings} (hnaming : settings.naming = .physical)
    (ops : List (ManagerOp α)) (op : ManagerOp α) :
    let m := (new settings).run ops
    let direct := (new settings).run (ops.filterMap ManagerOp.direct?)
    direct.tracker = m.tracker ∧ direct.registry = m.registry ∧
      (direct.run op.direct?.toList).tracker = (m.step op).tracker ∧
      op.direct?.elim .nothing direct.fired = m.fired op := by
  intro m direct
  have hdirect : direct = m.forgetCodes := forgetCodes_run hnaming ops
  have hcodes : m.CodesAreNames := codesAreNames_run hnaming ops
  have hnaming' : m.settings.naming = .physical := (naming_run settings ops).trans hnaming
  rw [hdirect, forgetCodes_step hcodes hnaming' op]
  exact ⟨rfl, rfl, rfl, fired_direct? hcodes hnaming' op⟩

/-- `KeyB` comes up without having gone down, `KeyA` is pressed by a call and then again by an
    event, and a repeat and a key without a code come after that. The calls leave both out; then a
    mouse button runs the binding either way. -/
theorem mixed_run_agrees :
    let ops : List (ManagerOp Nat) := [.register "KeyA + Mouse2" 7,
      .handle (.key "KeyB" "b" .release) 0, .press "KeyA" 10, .handle (.key "KeyA" "a" .press) 20,
      .handle (.key "KeyA" "a" .repeat) 30, .handle (.key "" "x" .press) 30]
    let calls : List (ManagerOp Nat) := [.register "KeyA + Mouse2" 7,
      .release "KeyB" 0, .press "KeyA" 10, .press "KeyA" 20]
    Settings.default.naming = .physical ∧ ops.filterMap ManagerOp.direct? = calls ∧
      ((Manager.new .default).run ops).fired (.handle (.mouse 2 .press) 40) = ⟨[7], [0]⟩ ∧
      ((Manager.new .default).run calls).fired (.press "Mouse2" 40) = ⟨[7], [0]⟩ := by
  intro ops calls
  have hnaming : Settings.default.naming = .physical := rfl
  have hcalls : ops.filterMap ManagerOp.direct? = calls := rfl
  have hran : ((Manager.new .default).run (ops.filterMap ManagerOp.direct?)).fired
      (.press "Mouse2" 40) = _ :=
    (events_agree_with_direct_calls hnaming ops (.handle (.mouse 2 .press) 40)).2.2.2
  rw [← hcalls, hran]
  exact ⟨hnaming, rfl, rfl, rfl⟩

end KeyBindings
