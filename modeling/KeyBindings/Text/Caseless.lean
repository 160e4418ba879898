/-!
# Text: equality that ignores ASCII case

`caseless a b` compares two texts letter by letter with the 26 Latin letters of ASCII folded
together; every other character equals itself alone. `readSpelling` looks a text up in a table of
spellings that way.
-/

namespace KeyBindings.Text

/-- A text with its capital ASCII letters made small. -/
def foldCase (s : String) : List Char := s.toList.map Char.toLower

/-- Whether two texts are equal up to the case of ASCII letters. -/
def caseless (a b : String) : Bool := foldCase a == foldCase b

theorem caseless_iff {a b : String} : caseless a b = true ↔ foldCase a = foldCase b := by
  simp [caseless]

/-- The value of the first spelling that a text equals up to ASCII case. -/
def readSpelling {α : Type} (table : List (String × α)) (s : String) : Option α :=
  (table.find? fun entry => caseless entry.1 s).map (·.2)

end KeyBindings.Text
