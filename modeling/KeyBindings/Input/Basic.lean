/-!
# Inputs and instants

An input is known by its name alone: a key (`KeyD`, `ShiftLeft`, `+`) or a mouse button (`Mouse1`).
Names are compared character by character. An instant is a number of milliseconds since a start
that the host chooses; nothing here asks that instants only go forward.
-/

namespace KeyBindings

/-- The name of a key or a mouse button. -/
abbrev Input := String

/-- A point in time, in milliseconds. -/
abbrev Instant := Nat

end KeyBindings
