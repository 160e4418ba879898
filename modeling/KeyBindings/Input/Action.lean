import KeyBindings.Text.Caseless

/-!
# What happens to an input, and under which name

* `Action` -- a press, a release, or the auto-repeat a host sends while a key stays down;
* `KeyNaming` -- whether keys are named by their place on the keyboard or by what they write.

Both are read from texts without regard to ASCII case. A repeat is NOT a transition: it changes
nothing and fires nothing.
-/

namespace KeyBindings

/-- The text of an unknown spelling, shared by every choice that is read from a text. -/
def unknownSpelling : String := "Matching variant not found"

/-! ## 1. Actions -/

/-- What a host reports about an input. -/
inductive Action where
  | press
  | release
  | repeat
  deriving DecidableEq, Repr

namespace Action

/-- The accepted spellings, in any ASCII case. -/
def spellings : List (String × Action) :=
  [("press", .press), ("down", .press), ("release", .release), ("up", .release),
   ("repeat", .repeat)]

def ofText? (s : String) : Option Action := Text.readSpelling spellings s

/-- The name under which an action is reported. -/
def name : Action → String
  | .press => "press"
  | .release => "release"
  | .repeat => "repeat"

/-- Whether the action changes what is down. -/
def isTransition : Action → Bool
  | .press | .release => true
  | .repeat => false

theorem ofText?_name (a : Action) : ofText? a.name = some a := by
  cases a <;> decide

end Action

/-! ## 2. Naming -/

/-- How a host's key events are named. -/
inductive KeyNaming where
  /-- By the key's place: the code of the key. -/
  | physical
  /-- By the key's meaning: the text it gives under the current layout. -/
  | logical
  deriving DecidableEq, Repr

namespace KeyNaming

def spellings : List (String × KeyNaming) := [("physical", .physical), ("logical", .logical)]

def ofText? (s : String) : Option KeyNaming := Text.readSpelling spellings s

def name : KeyNaming → String
  | .physical => "physical"
  | .logical => "logical"

theorem ofText?_name (n : KeyNaming) : ofText? n.name = some n := by
  cases n <;> decide

end KeyNaming

end KeyBindings
