import KeyBindings.Manager.Basic
import KeyBindings.Proofs.HostEvents

/-!
# Runs of a manager fed by a host

A host registers and takes out bindings, hands its events over, and may have all live input
forgotten. Beside the manager, which keeps an id for each code and a set of held inputs, stands the
list of the host's transitions (`Events.ofOps`), and the part of it since live input was last
forgotten (`Events.sinceClear`).

* `Manager.Follows` -- the code table knows for each code what the key was last pressed as since its
  latest release; and held is exactly what has been pressed and not let go since;
* `Follows.press`, `Follows.release` -- each transition keeps that;
* **`follows_run`** (of a manager): so it is after every run of a host whose key events carry codes.

Which inputs the transitions SHARE plays no part here; `KeyBindings.Proofs.HeldKeys` says what
follows when they do.
-/

namespace KeyBindings

/-! ## 1. Operations and runs -/

/-- An operation on a manager. -/
inductive ManagerOp (α : Type) where
  | register (binding : String) (callback : α)
  | unregister (id : BindingId)
  | press (input : Input) (now : Instant)
  | release (input : Input) (now : Instant)
  | handle (event : Event) (now : Instant)
  | clear

variable {α : Type}

namespace ManagerOp

/-- The transition that an operation hands over. A repeat is none. -/
def transition? : ManagerOp α → Option Event
  | .handle event _ => if event.action.isTransition then some event else none
  | _ => none

def isClear : ManagerOp α → Bool
  | .clear => true
  | _ => false

/-- Whether an operation is one of a host that reports events: it presses and releases nothing by
    name, and its key events carry codes. -/
def fromHost : ManagerOp α → Bool
  | .press _ _ | .release _ _ => false
  | .handle event _ => event.source ≠ .key ""
  | _ => true

end ManagerOp

namespace Manager

def step (m : Manager α) : ManagerOp α → Manager α
  | .register binding callback => (m.register binding callback).1
  | .unregister id => (m.unregister id).1
  | .press input now => (m.press input now).1
  | .release input now => (m.release input now).1
  | .handle event now => (m.handle event now).1
  | .clear => m.clear

def run (m : Manager α) (ops : List (ManagerOp α)) : Manager α := ops.foldl step m

theorem run_append (m : Manager α) (before after : List (ManagerOp α)) :
    m.run (before ++ after) = (m.run before).run after := List.foldl_append

theorem run_concat (m : Manager α) (ops : List (ManagerOp α)) (op : ManagerOp α) :
    m.run (ops ++ [op]) = (m.run ops).step op := List.foldl_append

end Manager

/-! ## 2. The transitions of a run -/

namespace Events

/-- Every transition of a run. -/
def ofOps (ops : List (ManagerOp α)) : Events := ops.filterMap ManagerOp.transition?

/-- The transitions of a run since live input was last forgotten. -/
def sinceClear (ops : List (ManagerOp α)) : Events := ofOps (ops.rtakeWhile (!·.isClear))

theorem ofOps_concat (ops : List (ManagerOp α)) (op : ManagerOp α) :
    ofOps (ops ++ [op]) = ofOps ops ++ op.transition?.toList := by
  rw [ofOps, List.filterMap_append]
  cases h : op.transition? <;> simp [ofOps, h]

theorem sinceClear_concat (ops : List (ManagerOp α)) (op : ManagerOp α) :
    sinceClear (ops ++ [op]) =
      if op.isClear then [] else sinceClear ops ++ op.transition?.toList := by
  rw [sinceClear, List.rtakeWhile_concat]
  cases op.isClear
  · exact ofOps_concat _ op
  · rfl

theorem sinceClear_suffix (ops : List (ManagerOp α)) : sinceClear ops <:+ ofOps ops :=
  (List.rtakeWhile_suffix _ _).filterMap _

end Events

/-! ## 3. What the operations do to the code table -/

namespace Manager

variable {m : Manager α} {event : Event}

@[simp] theorem settings_noteCode (m : Manager α) (event : Event) (input : Input) :
    (m.noteCode event input).settings = m.settings := by
  unfold noteCode
  split
  · rfl
  · split <;> rfl

@[simp] theorem settings_dropCode (m : Manager α) (event : Event) :
    (m.dropCode event).settings = m.settings := by
  unfold dropCode
  split <;> rfl

/-- A key with a code is noted, and no other key's note changes. -/
theorem get?_codes_noteCode (m : Manager α) (event : Event) (input : Input) {code : String}
    (hc : code ≠ "") :
    (m.noteCode event input).codes.get? code =
      if event.source = .key code then some input else m.codes.get? code := by
  cases event with
  | mouse number action => rfl
  | key code' text action =>
    simp only [noteCode, Event.code?, Event.source_key_eq_iff]
    by_cases he : code' = ""
    · rw [if_pos he, if_neg (he ▸ hc)]
    · rw [if_neg he, CodeTable.get?_put]

/-- A key's note goes with its release, and no other key's does. -/
theorem get?_codes_dropCode (m : Manager α) (event : Event) (code : String) :
    (m.dropCode event).codes.get? code =
      if event.source = .key code then none else m.codes.get? code := by
  cases event with
  | mouse number action => rfl
  | key code' text action =>
    simp only [dropCode, Event.code?, Event.source_key_eq_iff]
    exact CodeTable.get?_drop _ _ _

/-- Registering a binding leaves everything but the bindings as it is, accepted or not. -/
theorem exists_registry_register (m : Manager α) (binding : String) (callback : α) :
    ∃ registry, (m.register binding callback).1 = { m with registry } := by
  rw [register, tryRegister]
  cases Pattern.ofBinding m.settings.naming binding with
  | error e => exact ⟨m.registry, rfl⟩
  | ok accepted => exact ⟨_, rfl⟩

theorem settings_step (m : Manager α) (op : ManagerOp α) : (m.step op).settings = m.settings := by
  cases op with
  | register binding callback =>
    obtain ⟨registry, hm⟩ := exists_registry_register m binding callback
    rw [step, hm]
  | handle event now =>
    rw [step]
    unfold handle
    split
    · rfl
    · split <;> simp
    · split <;> simp
  | _ => rfl

/-- No run changes the settings. -/
theorem settings_run (m : Manager α) (ops : List (ManagerOp α)) :
    (m.run ops).settings = m.settings := by
  induction ops using List.reverseRecOn with
  | nil => rfl
  | append_singleton ops op ih => rw [run_concat, settings_step, ih]

/-! ## 4. The manager follows its host -/

/-- What a manager says about the transitions since live input was last forgotten. -/
structure Follows (m : Manager α) (past : Events) : Prop where
  codes : ∀ code, code ≠ "" →
    m.codes.get? code = (past.pressedAs m.settings.naming (.key code)).getLast?
  held : ∀ input, input ∈ m.tracker.held.members ↔ past.Stays m.settings.naming input

variable {past : Events}

/-- Where nothing is held and no code is known, there is nothing to say. -/
theorem follows_nil (hheld : m.tracker.held = .empty) (hcodes : m.codes = .empty) :
    m.Follows [] where
  codes code _ := by
    rw [hcodes]
    rfl
  held input := by
    rw [hheld]
    exact iff_of_false List.not_mem_nil (Events.not_stays_nil _ _)

/-- **A press keeps the manager along its host**, with a name or without. -/
theorem Follows.press (h : m.Follows past) (hp : event.action = .press) (now : Instant) :
    (m.handle event now).1.Follows (past ++ [event]) := by
  have hgo : past.letsGo? m.settings.naming event = none := Events.letsGo?_of_press hp
  cases hi : event.input? m.settings.naming with
  | none =>
    -- a press without a name changes neither side
    simp only [handle, hp, hi]
    refine ⟨fun code hc => ?_, fun input => ?_⟩
    · rw [Events.pressedAs_concat, if_pos hp, hi, Option.toList_none, List.append_nil, ite_self,
        h.codes code hc]
    · have hnot : ¬ event.Presses m.settings.naming input := fun hpr =>
        Option.some_ne_none _ (hpr.2.symm.trans hi)
      rw [h.held input, Events.stays_concat, hgo, or_iff_right hnot]
      exact (and_iff_left nofun).symm
  | some pressed =>
    simp only [handle, hp, hi]
    have hpr : ∀ input, event.Presses m.settings.naming input ↔ input = pressed := fun input => by
      rw [Event.Presses, hi, and_iff_right hp, Option.some_inj, eq_comm]
    refine ⟨fun code hc => ?_, fun input => ?_⟩
    · show (m.noteCode event pressed).codes.get? code = _
      rw [settings_press, settings_noteCode, Events.pressedAs_concat, if_pos hp, hi,
        Option.toList_some, get?_codes_noteCode m event pressed hc, h.codes code hc]
      split
      · rw [List.getLast?_concat]
      · rfl
    · rw [settings_press, settings_noteCode, tracker_press, tracker_noteCode, Tracker.held_press,
        Chord.mem_members_insert, h.held input, Events.stays_concat, hgo, hpr, or_comm]
      exact or_congr_right (and_iff_left nofun).symm

/-- A release is applied to the input that its source lets go. -/
theorem Follows.target_eq (h : m.Follows past) (hcode : event.source ≠ .key "")
    (hr : event.action ≠ .press) :
    (m.knownInput? event).or (event.input? m.settings.naming) =
      past.letsGo? m.settings.naming event := by
  cases event with
  | key code text action =>
    have hc : code ≠ "" := fun e => hcode (e ▸ rfl)
    rw [Events.letsGo?, if_neg hr, knownInput?, Event.code?, Option.bind_some, h.codes code hc]
    rfl
  | mouse number action =>
    rw [Events.letsGo?_of_source_button rfl hr, knownInput?, Event.code?, Option.bind_none,
      Option.none_or]

/-- **A release keeps the manager along its host.** -/
theorem Follows.release (h : m.Follows past) (hcode : event.source ≠ .key "")
    (hr : event.action = .release) (now : Instant) :
    (m.handle event now).1.Follows (past ++ [event]) := by
  have hnpress : event.action ≠ .press := by
    rw [hr]
    exact nofun
  have hcodes : ∀ code, code ≠ "" → (m.dropCode event).codes.get? code =
      (Events.pressedAs (past ++ [event]) m.settings.naming (.key code)).getLast? := by
    intro code hc
    rw [Events.pressedAs_concat, if_neg hnpress, get?_codes_dropCode, h.codes code hc]
    split <;> rfl
  have hnot : ∀ input, ¬ event.Presses m.settings.naming input := fun input hp => hnpress hp.1
  have htarget := h.target_eq hcode hnpress
  cases hgo : past.letsGo? m.settings.naming event with
  | none =>
    simp only [handle, hr, htarget, hgo]
    refine ⟨fun code hc => ?_, fun input => ?_⟩
    · rw [settings_dropCode]
      exact hcodes code hc
    · rw [settings_dropCode, tracker_dropCode, h.held input, Events.stays_concat, hgo,
        or_iff_right (hnot input)]
      exact (and_iff_left nofun).symm
  | some released =>
    simp only [handle, hr, htarget, hgo]
    refine ⟨fun code hc => ?_, fun input => ?_⟩
    · rw [settings_release, settings_dropCode]
      exact hcodes code hc
    · rw [settings_release, settings_dropCode, tracker_release, tracker_dropCode,
        Tracker.held_release, Chord.mem_members_erase, h.held input, Events.stays_concat, hgo,
        or_iff_right (hnot input), ne_eq, ne_eq, Option.some_inj, and_comm, eq_comm (a := input)]

/-- What a manager says about live input does not depend on the bindings. -/
theorem Follows.withRegistry (h : m.Follows past) (registry : Registry α) :
    Follows { m with registry } past :=
  ⟨h.codes, h.held⟩

/-- An operation of a host keeps the manager along it. -/
theorem Follows.step {ops : List (ManagerOp α)} (h : m.Follows (Events.sinceClear ops))
    {op : ManagerOp α} (hop : op.fromHost = true) :
    (m.step op).Follows (Events.sinceClear (ops ++ [op])) := by
  rw [Events.sinceClear_concat]
  cases op with
  | register binding callback =>
    obtain ⟨registry, hm⟩ := exists_registry_register m binding callback
    rw [Manager.step, hm]
    exact (List.append_nil _).symm ▸ h.withRegistry registry
  | unregister id => exact (List.append_nil _).symm ▸ h.withRegistry _
  | press input now => exact absurd hop nofun
  | release input now => exact absurd hop nofun
  | clear => exact follows_nil rfl rfl
  | handle event now =>
    have hcode : event.source ≠ .key "" := of_decide_eq_true hop
    show (m.handle event now).1.Follows (Events.sinceClear ops ++
      Option.toList (if event.action.isTransition then some event else none))
    cases ha : event.action with
    | press => exact h.press ha now
    | release => exact h.release hcode ha now
    | «repeat» =>
      simp only [handle, ha]
      exact (List.append_nil _).symm ▸ h

/-- **A manager follows its host through every run.** -/
theorem follows_run (settings : Settings) {ops : List (ManagerOp α)}
    (hops : ∀ op ∈ ops, op.fromHost = true) :
    ((new settings).run ops).Follows (Events.sinceClear ops) := by
  induction ops using List.reverseRecOn with
  | nil => exact follows_nil rfl rfl
  | append_singleton ops op ih =>
    rw [run_concat]
    exact (ih fun o ho => hops o (List.mem_append_left _ ho)).step
      (hops op (List.mem_append_right _ (List.mem_singleton_self _)))

/-- **Held is what has been pressed and not let go since**, after every run of a host. -/
theorem mem_held_run_iff (settings : Settings) {ops : List (ManagerOp α)}
    (hops : ∀ op ∈ ops, op.fromHost = true) {input : Input} :
    input ∈ ((new settings).run ops).tracker.held.members ↔
      (Events.sinceClear ops).Stays settings.naming input := by
  have h := (follows_run settings hops).held input
  rw [settings_run] at h
  exact h

end Manager

end KeyBindings
