import KeyBindings.Manager.Basic
import KeyBindings.Script.Basic

/-!
# Replaying a script

A script is replayed on a clock of its own that starts at zero and moves by the waits alone. Each
press and release is fed to a manager at the clock's instant, and each binding it fires gives one
line, in the order of registration. Repeats do nothing.
-/

namespace KeyBindings

/-- What a replay showed: its lines, and how many bindings fired. -/
structure Replay where
  lines : List String
  total : Nat
  deriving DecidableEq, Repr

namespace Replay

variable {α : Type}

/-- How a binding is reported: its name, and its text if it is registered still. -/
def describe (r : Registry α) (id : BindingId) : String :=
  match r.find? id with
  | some b => BindingId.name id ++ " " ++ b.source
  | none => BindingId.name id

/-- The line on a binding that fired: when it did, right-aligned to six places, and which it is. -/
def line (r : Registry α) (now : Instant) (id : BindingId) : String :=
  "[" ++ Failure.alignRight 6 (toString now) ++ "ms] fired " ++ describe r id

/-- Puts what fired at an instant in front of what comes later. -/
def after (r : Registry α) (now : Instant) (ids : List BindingId) (later : Replay) : Replay :=
  ⟨ids.map (line r now) ++ later.lines, ids.length + later.total⟩

/-- Replays steps from an instant on. -/
def replayFrom (m : Manager α) (now : Instant) : List Script.Step → Replay
  | [] => ⟨[], 0⟩
  | .wait duration :: steps => replayFrom m (now + duration) steps
  | .input .press input :: steps =>
    let next := m.press input now
    after next.1.registry now next.2.ids (replayFrom next.1 now steps)
  | .input .release input :: steps =>
    let next := m.release input now
    after next.1.registry now next.2.ids (replayFrom next.1 now steps)
  | .input .repeat _ :: steps => replayFrom m now steps

/-- Replays a script. -/
def replay (m : Manager α) (steps : List Script.Step) : Replay := replayFrom m 0 steps

end Replay

/-! ## Registering the bindings of a replay -/

/-- Registers bindings by their texts in order; the first that names no input ends it. -/
def Manager.registerAll (m : Manager Unit) : List String → Except Failure (Manager Unit)
  | [] => .ok m
  | binding :: bindings =>
    match m.tryRegister binding () with
    | (_, .error e) => .error ((Failure.of e.message).under ("invalid binding '" ++ binding ++ "'"))
    | (registered, .ok _) => registered.registerAll bindings

end KeyBindings
