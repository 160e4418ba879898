import KeyBindings.Input.Basic
import KeyBindings.Input.Action

/-!
# Host events and the inputs they stand for

A host reports keys with a code and a text, and mouse buttons with a number. `Event.input?` picks
the name an event counts under: the code or the text of a key, by the naming in force, and a fixed
name for each mouse button. A key event whose name is empty stands for no input.
-/

namespace KeyBindings

/-! ## 1. Mouse buttons -/

/-- The name of a mouse button. Hosts number the middle button before the right one, so `1` is the
    third button and `2` the second. -/
def mouseButtonName : Nat → Input
  | 0 => "Mouse1"
  | 1 => "Mouse3"
  | 2 => "Mouse2"
  | 3 => "Mouse4"
  | 4 => "Mouse5"
  | _ => "MouseInvalid"

theorem mouseButtonName_ne_empty (button : Nat) : mouseButtonName button ≠ "" := by
  unfold mouseButtonName
  split <;> decide

/-! ## 2. Events -/

/-- Which of a key's two names counts. -/
def KeyNaming.pick (naming : KeyNaming) (code text : String) : Input :=
  match naming with
  | .physical => code
  | .logical => text

/-- An event as the host reports it. -/
inductive Event where
  | key (code text : String) (action : Action)
  | mouse (button : Nat) (action : Action)
  deriving DecidableEq, Repr

namespace Event

def action : Event → Action
  | .key _ _ action => action
  | .mouse _ action => action

/-- The input an event stands for under a naming, if it has a name. -/
def input? (naming : KeyNaming) : Event → Option Input
  | .key code text _ =>
    if naming.pick code text = "" then none else some (naming.pick code text)
  | .mouse button _ => some (mouseButtonName button)

/-- The code by which a host tells one key from another; a mouse button has none. -/
def code? : Event → Option String
  | .key code _ _ => some code
  | .mouse _ _ => none

/-- **An input taken from an event has a name.** -/
theorem ne_empty_of_input? {naming : KeyNaming} {event : Event} {input : Input}
    (h : event.input? naming = some input) : input ≠ "" := by
  cases event with
  | key code text action =>
    rw [input?] at h
    split at h
    · simp at h
    · next hne =>
      obtain rfl := Option.some.inj h
      exact hne
  | mouse button action =>
    obtain rfl := Option.some.inj h
    exact mouseButtonName_ne_empty button

end Event

end KeyBindings
