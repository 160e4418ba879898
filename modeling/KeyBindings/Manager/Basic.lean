import KeyBindings.Input.Event
import KeyBindings.Manager.CodeTable
import KeyBindings.Pattern.Read
import KeyBindings.Registry
import KeyBindings.Settings.Basic

/-!
# The manager: bindings registered, transitions fed, bindings fired

A manager joins a tracker, a registry and settings. A host registers bindings by their text and
feeds transitions, either as inputs (`press`, `release`) or as its own events (`handle`); each
transition runs the bindings that are complete after it, in the order of registration.

* `tryRegister` -- refuses a text that names no input, and then NOTHING has changed
  (**`tryRegister_of_error`**);
* `handle` -- a repeat and an event without a name are no transitions. A key's release is applied
  to the input the key went down as (`CodeTable`), and only if that is unknown to the name the
  release itself carries;
* `clear` -- forgets live input; the bindings stay.
-/

namespace KeyBindings

/-- A tracker, a registry and settings, and the inputs that keys went down as. -/
structure Manager (α : Type) where
  settings : Settings
  tracker : Tracker
  registry : Registry α
  codes : CodeTable

namespace Manager

variable {α : Type}

/-- A manager without bindings that has seen nothing. -/
def new (settings : Settings) : Manager α :=
  ⟨settings, .new settings.limits, .empty, .empty⟩

/-! ## 1. Bindings -/

/-- Registers a binding by its text, if it names an input, and answers its id. -/
def tryRegister (m : Manager α) (binding : String) (callback : α) :
    Manager α × Except BindingError BindingId :=
  match Pattern.ofBinding m.settings.naming binding with
  | .error e => (m, .error e)
  | .ok (pattern, mode) =>
    let inserted := m.registry.insert binding pattern mode callback
    ({ m with registry := inserted.1 }, .ok inserted.2)

/-- Registers a binding by its text, and says whether it could be. -/
def register (m : Manager α) (binding : String) (callback : α) : Manager α × Bool :=
  let tried := m.tryRegister binding callback
  (tried.1, tried.2.toBool)

/-- Takes a binding out, and says whether there was one. -/
def unregister (m : Manager α) (id : BindingId) : Manager α × Bool :=
  let removed := m.registry.remove id
  ({ m with registry := removed.1 }, removed.2)

/-! ## 2. Transitions -/

/-- Runs the bindings that are complete now. -/
def dispatch (m : Manager α) (now : Instant) : Fired α := m.registry.dispatch m.tracker now

/-- A press of an input, and what it fires. -/
def press (m : Manager α) (input : Input) (now : Instant) : Manager α × Fired α :=
  let after := { m with tracker := m.tracker.press input now }
  (after, after.dispatch now)

/-- A release of an input, and what it fires. -/
def release (m : Manager α) (input : Input) (now : Instant) : Manager α × Fired α :=
  let after := { m with tracker := m.tracker.release input now }
  (after, after.dispatch now)

/-- Forgets all live input. -/
def clear (m : Manager α) : Manager α :=
  { m with tracker := m.tracker.clear, codes := .empty }

/-! ## 3. Host events -/

/-- Notes the input that an event's key goes down as. A key without a code is not noted. -/
def noteCode (m : Manager α) (event : Event) (input : Input) : Manager α :=
  match event.code? with
  | none => m
  | some code => if code = "" then m else { m with codes := m.codes.put code input }

/-- The input that an event's key went down as. -/
def knownInput? (m : Manager α) (event : Event) : Option Input :=
  event.code?.bind m.codes.get?

/-- Forgets the input that an event's key went down as. -/
def dropCode (m : Manager α) (event : Event) : Manager α :=
  match event.code? with
  | none => m
  | some code => { m with codes := m.codes.drop code }

/-- Applies a host event, and answers what it fires. -/
def handle (m : Manager α) (event : Event) (now : Instant) : Manager α × Fired α :=
  match event.action with
  | .repeat => (m, .nothing)
  | .press =>
    match event.input? m.settings.naming with
    | none => (m, .nothing)
    | some input => (m.noteCode event input).press input now
  | .release =>
    match (m.knownInput? event).or (event.input? m.settings.naming) with
    | none => (m.dropCode event, .nothing)
    | some input => (m.dropCode event).release input now

/-- Whether the host should suppress what an event would do otherwise. -/
def preventsDefault (m : Manager α) : Bool := m.settings.preventsDefault

/-! ## 4. What stays the same -/

/-- **A text that is refused leaves the manager as it is.** -/
theorem tryRegister_of_error {m : Manager α} {binding : String} {callback : α} {e : BindingError}
    (h : (m.tryRegister binding callback).2 = .error e) :
    m.tryRegister binding callback = (m, .error e) := by
  unfold tryRegister at h ⊢
  split at h
  · exact congrArg (Prod.mk m) h
  · exact absurd h nofun

@[simp] theorem settings_press (m : Manager α) (input : Input) (now : Instant) :
    (m.press input now).1.settings = m.settings := rfl

@[simp] theorem settings_release (m : Manager α) (input : Input) (now : Instant) :
    (m.release input now).1.settings = m.settings := rfl

@[simp] theorem registry_press (m : Manager α) (input : Input) (now : Instant) :
    (m.press input now).1.registry = m.registry := rfl

@[simp] theorem registry_release (m : Manager α) (input : Input) (now : Instant) :
    (m.release input now).1.registry = m.registry := rfl

@[simp] theorem tracker_press (m : Manager α) (input : Input) (now : Instant) :
    (m.press input now).1.tracker = m.tracker.press input now := rfl

@[simp] theorem tracker_release (m : Manager α) (input : Input) (now : Instant) :
    (m.release input now).1.tracker = m.tracker.release input now := rfl

@[simp] theorem tracker_noteCode (m : Manager α) (event : Event) (input : Input) :
    (m.noteCode event input).tracker = m.tracker := by
  unfold noteCode
  split
  · rfl
  · split <;> rfl

@[simp] theorem tracker_dropCode (m : Manager α) (event : Event) :
    (m.dropCode event).tracker = m.tracker := by
  unfold dropCode
  split <;> rfl

@[simp] theorem registry_noteCode (m : Manager α) (event : Event) (input : Input) :
    (m.noteCode event input).registry = m.registry := by
  unfold noteCode
  split
  · rfl
  · split <;> rfl

@[simp] theorem registry_dropCode (m : Manager α) (event : Event) :
    (m.dropCode event).registry = m.registry := by
  unfold dropCode
  split <;> rfl

/-- **No host event changes which bindings are registered.** -/
theorem registry_handle (m : Manager α) (event : Event) (now : Instant) :
    (m.handle event now).1.registry = m.registry := by
  unfold handle
  split
  · rfl
  · split <;> simp
  · split <;> simp

end Manager

end KeyBindings
