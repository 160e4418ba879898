import KeyBindings.Input.Basic
import KeyBindings.Text.Blank

/-!
# The tokens of a binding's text

A binding is written as names joined by `+` into chords and chords joined by `>`. `scan` cuts such
a text into tokens: each delimiter is a token of its own, and what stands between two delimiters is
a name once its blanks are trimmed, or nothing when it is blank throughout.

**`scanChars_append_cons`** is the reading rule as one equation: the name in front of the first delimiter, the
delimiter, and the tokens of what follows.
-/

namespace KeyBindings

/-- The name that a stretch of text holds: the stretch without outer blanks, if anything is left. -/
def nameIn (stretch : List Char) : Option Input :=
  if Text.trim stretch = [] then none else some (String.ofList (Text.trim stretch))

/-- **A name found in a stretch is trimmed and not empty.** -/
theorem toList_of_nameIn {stretch : List Char} {name : Input} (h : nameIn stretch = some name) :
    name.toList ≠ [] ∧ Text.trim name.toList = name.toList := by
  rw [nameIn] at h
  split at h
  · simp at h
  · next hne =>
    obtain rfl := Option.some.inj h
    rw [String.toList_ofList]
    exact ⟨hne, Text.trim_trim stretch⟩

/-- A token of a binding's text. -/
inductive Token where
  /-- `+`, between members of a chord. -/
  | plus
  /-- `>`, between chords. -/
  | arrow
  | name (input : Input)
  deriving DecidableEq, Repr

namespace Token

/-- The token of a delimiter; other characters belong to names. -/
def ofDelimiter? (c : Char) : Option Token :=
  if c = '+' then some .plus else if c = '>' then some .arrow else none

/-- The text of a token. -/
def text : Token → String
  | .plus => "+"
  | .arrow => ">"
  | .name input => input

/-- The name in a stretch of text as a token. -/
def named (stretch : List Char) : List Token := (nameIn stretch).toList.map .name

/-- Reads one character in front of a text whose leading stretch without delimiters and whose
    tokens after it are known. -/
def scanStep (c : Char) (found : List Char × List Token) : List Char × List Token :=
  match ofDelimiter? c with
  | some delimiter => ([], delimiter :: (named found.1 ++ found.2))
  | none => (c :: found.1, found.2)

/-- The leading stretch without delimiters, and the tokens after it. -/
def scanParts (cs : List Char) : List Char × List Token := cs.foldr scanStep ([], [])

/-- The tokens of a text. -/
def scanChars (cs : List Char) : List Token :=
  named (scanParts cs).1 ++ (scanParts cs).2

/-- The tokens of a binding. -/
def scan (binding : String) : List Token := scanChars binding.toList

/-! ## Reading from the front -/

@[simp] theorem named_nil : named [] = [] := rfl

theorem scanParts_cons (c : Char) (cs : List Char) :
    scanParts (c :: cs) = scanStep c (scanParts cs) := rfl

/-- A stretch without delimiters is one name at most. -/
theorem scanParts_append_of_forall {stretch : List Char}
    (h : ∀ c ∈ stretch, ofDelimiter? c = none) (cs : List Char) :
    scanParts (stretch ++ cs) = (stretch ++ (scanParts cs).1, (scanParts cs).2) := by
  induction stretch with
  | nil => rfl
  | cons c stretch ih =>
    rw [List.cons_append, scanParts_cons, ih fun x hx => h x (List.mem_cons_of_mem c hx), scanStep,
      h c List.mem_cons_self]
    rfl

theorem scanChars_of_forall {stretch : List Char}
    (h : ∀ c ∈ stretch, ofDelimiter? c = none) : scanChars stretch = named stretch := by
  have := scanParts_append_of_forall h []
  rw [List.append_nil] at this
  rw [scanChars, this]
  simp [scanParts]

/-- **A text reads as the name in front of its first delimiter, the delimiter, and the tokens of
    the rest.** -/
theorem scanChars_append_cons {stretch : List Char} {d : Char} {delimiter : Token}
    (h : ∀ c ∈ stretch, ofDelimiter? c = none) (hd : ofDelimiter? d = some delimiter)
    (cs : List Char) :
    scanChars (stretch ++ d :: cs) = named stretch ++ delimiter :: scanChars cs := by
  rw [scanChars, scanParts_append_of_forall h, scanParts_cons, scanStep, hd]
  simp [scanChars]

end Token

end KeyBindings
