import KeyBindings.Association
import KeyBindings.Input.Basic

/-!
# Which input each key went down as

With logical names a key may come up under another text than it went down with: `+` goes down with
Shift, `=` comes up without. The table keeps, by the CODE of each key that is down, the input it
was pressed as, so that its release frees that input. A key pressed again takes its new input.

**`get?_put`** and **`get?_drop`** are all there is to know about it.
-/

namespace KeyBindings

/-- The inputs of keys that are down, by their codes. -/
structure CodeTable where
  entries : List (String × Input)
  deriving DecidableEq, Repr

namespace CodeTable

def empty : CodeTable := ⟨[]⟩

def get? (t : CodeTable) (code : String) : Option Input := Association.value? t.entries code

/-- Forgets a code. -/
def drop (t : CodeTable) (code : String) : CodeTable := ⟨Association.without t.entries code⟩

/-- Notes the input of a code, in place of an older one. -/
def put (t : CodeTable) (code : String) (input : Input) : CodeTable :=
  ⟨Association.replace t.entries code input⟩

@[simp] theorem get?_empty (code : String) : empty.get? code = none := rfl

/-- **A dropped code is unknown, and no other is touched.** -/
theorem get?_drop (t : CodeTable) (code other : String) :
    (t.drop code).get? other = if other = code then none else t.get? other :=
  Association.value?_without t.entries code other

/-- **A noted code has its newest input, and no other is touched.** -/
theorem get?_put (t : CodeTable) (code other : String) (input : Input) :
    (t.put code input).get? other = if other = code then some input else t.get? other :=
  Association.value?_replace t.entries code other input

end CodeTable

end KeyBindings
