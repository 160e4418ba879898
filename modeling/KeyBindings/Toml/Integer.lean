import KeyBindings.Text.Split
import KeyBindings.Toml.Quoted

/-!
# TOML: integers

An integer is decimal with an optional sign and no leading zeros, or hexadecimal, octal or binary
behind `0x`, `0o` or `0b` without a sign. Underscores may stand BETWEEN digits, one at a time. The
value has to fit into 64 bits with a sign.
-/

namespace KeyBindings.Toml

/-- The largest integer. -/
def maxInteger : Nat := 9223372036854775807

/-- The value of digits of a base, with single underscores between them. -/
def readDigits (base : Nat) (text : List Char) : Option Nat := do
  let groups := Text.cut (· == '_') text
  if groups.any (·.isEmpty) then none
  let digits ← groups.flatten.mapM hexValue?
  if digits.all fun d => decide (d < base) then
    some (digits.foldl (fun n d => base * n + d) 0)
  else none

/-- The value of decimal digits, which start with a zero only if the zero stands alone. -/
def readDecimal (text : List Char) : Option Nat :=
  if text.head? = some '0' ∧ text ≠ ['0'] then none else readDigits 10 text

/-- The value of an integer that is within the limits. -/
def bounded (n : Int) : Option Int :=
  if -(maxInteger : Int) - 1 ≤ n ∧ n ≤ maxInteger then some n else none

/-- Reads a whole text as an integer. -/
def readInteger : List Char → Option Int
  | '0' :: 'x' :: cs => (readDigits 16 cs).bind fun n => bounded n
  | '0' :: 'o' :: cs => (readDigits 8 cs).bind fun n => bounded n
  | '0' :: 'b' :: cs => (readDigits 2 cs).bind fun n => bounded n
  | '+' :: cs => (readDecimal cs).bind fun n => bounded n
  | '-' :: cs => (readDecimal cs).bind fun n => bounded (-n)
  | cs => (readDecimal cs).bind fun n => bounded n

end KeyBindings.Toml
