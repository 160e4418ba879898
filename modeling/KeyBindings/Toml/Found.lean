/-!
# TOML: what a reader finds at the front of a text

A reader of TOML takes something off the front of a text. `Found` is its answer: the value, the
text that is left, and the FACT that less is left than there was. The fact is what the loops that
read one thing after another end by.
-/

namespace KeyBindings.Toml

/-- Something read off the front of a text. -/
structure Found (α : Type) (text : List Char) where
  value : α
  rest : List Char
  shorter : rest.length < text.length

namespace Found

variable {α β : Type}

/-- The same reading with another value, seen from a text that is not shorter. -/
def widen {text whole : List Char} (found : Found α text) (f : α → β)
    (h : text.length ≤ whole.length) : Found β whole :=
  ⟨f found.value, found.rest, Nat.lt_of_lt_of_le found.shorter h⟩

end Found

theorem length_le_length_cons (c : Char) (text : List Char) :
    text.length ≤ (c :: text).length :=
  Nat.le_succ _

theorem length_dropWhile_le (p : Char → Bool) (text : List Char) :
    (text.dropWhile p).length ≤ text.length :=
  (List.dropWhile_suffix p).length_le

/-- The longest stretch of characters with a property, if there is one at the front. -/
def readWhile (p : Char → Bool) : (text : List Char) → Option (Found (List Char) text)
  | [] => none
  | c :: cs =>
    if p c then
      some ⟨c :: cs.takeWhile p, cs.dropWhile p, Nat.lt_succ_of_le (length_dropWhile_le p cs)⟩
    else none

end KeyBindings.Toml
