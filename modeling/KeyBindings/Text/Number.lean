/-!
# Text: decimal numbers of 64 bits

`readNumber` reads an unsigned decimal number. One leading `+` may stand before the digits, leading
zeros are allowed, and a value above `maxNumber` is refused. Of two faults the one further left is
reported; a character that is no digit is reported before the overflow it would stand in.
-/

namespace KeyBindings.Text

/-- The largest unsigned number of 64 bits. -/
def maxNumber : Nat := 18446744073709551615

/-- Why a text is no number. -/
inductive NumberError where
  /-- A character that is no decimal digit, or no digit at all. -/
  | invalidDigit
  /-- The value exceeds `maxNumber`. -/
  | tooLarge
  deriving DecidableEq, Repr

def NumberError.message : NumberError → String
  | .invalidDigit => "invalid digit found in string"
  | .tooLarge => "number too large to fit in target type"

/-- The value of a decimal digit. -/
def digitValue (c : Char) : Nat := c.toNat - '0'.toNat

/-- Reads on from a value `n` already read. -/
def readDigits (n : Nat) : List Char → Except NumberError Nat
  | [] => .ok n
  | c :: cs =>
    if c.isDigit then
      if 10 * n + digitValue c ≤ maxNumber then readDigits (10 * n + digitValue c) cs
      else .error .tooLarge
    else .error .invalidDigit

/-- Reads an unsigned number with an optional leading plus sign. -/
def readNumber : List Char → Except NumberError Nat
  | [] => .error .invalidDigit
  | '+' :: c :: cs => readDigits 0 (c :: cs)
  | cs => readDigits 0 cs

end KeyBindings.Text
