import KeyBindings.Toml.Found

/-!
# TOML: quoted strings

A string stands between quotation marks, where a backslash escapes, or between apostrophes, where
nothing does; a tripled mark opens a string of several lines. A quoted string is read in two steps:
first its END is found (`closeLine`, `closeBlock`), then what stands before the end is decoded
(`unescape`, or a check for plain characters).

Line breaks are single line feeds here; a document brings them into that form first.
-/

namespace KeyBindings.Toml

/-! ## 1. Characters -/

/-- The quotation mark of strings with escapes. -/
def quotationMark : Char := '\x22'

/-- The mark of strings without escapes. -/
def apostrophe : Char := '\x27'

def backslash : Char := '\x5c'

/-- A space or a tab. -/
def isSpace (c : Char) : Bool := c == ' ' || c == '\t'

/-- A character that a comment or a string may hold as it is: anything but control characters, of
    which the tab alone is allowed. -/
def isPlain (c : Char) : Bool :=
  c == '\t' || (decide (0x20 ≤ c.toNat) && c.toNat != 0x7F)

/-! ## 2. Where a string ends -/

/-- What stands before the mark that closes a string of one line. With escapes, the character after
    a backslash closes nothing. -/
def closeLine (mark : Char) (escapes : Bool) : (text : List Char) → Option (Found (List Char) text)
  | [] => none
  | c :: cs =>
    if c = mark then some ⟨[], cs, Nat.lt_succ_self _⟩
    else if c = '\n' then none
    else if escapes && c == backslash then
      match cs with
      | [] => none
      | d :: ds => (closeLine mark escapes ds).map fun found =>
          found.widen (fun body => c :: d :: body) (by simp only [List.length_cons]; omega)
    else (closeLine mark escapes cs).map fun found =>
      found.widen (c :: ·) (length_le_length_cons c cs)

/-- What stands before the three marks that close a string of several lines. One or two marks more
    than three belong to the string. -/
def closeBlock (mark : Char) (escapes : Bool) : (text : List Char) → Option (Found (List Char) text)
  | [] => none
  | c :: cs =>
    if c = mark ∧ cs.take 2 = [mark, mark] then
      let more := (cs.drop 2).takeWhile (· == mark)
      if more.length ≤ 2 then
        some ⟨more, (cs.drop 2).dropWhile (· == mark),
          Nat.lt_succ_of_le (Nat.le_trans (length_dropWhile_le _ _) (by simp))⟩
      else none
    else if escapes && c == backslash then
      match cs with
      | [] => none
      | d :: ds => (closeBlock mark escapes ds).map fun found =>
          found.widen (fun body => c :: d :: body) (by simp only [List.length_cons]; omega)
    else (closeBlock mark escapes cs).map fun found =>
      found.widen (c :: ·) (length_le_length_cons c cs)

/-! ## 3. Escapes -/

/-- The escapes of one letter. -/
def letterEscapes : List (Char × Char) :=
  [('b', '\x08'), ('t', '\t'), ('n', '\n'), ('f', '\x0c'), ('r', '\r'),
   (quotationMark, quotationMark), (backslash, backslash)]

/-- The value of a hexadecimal digit in either case. -/
def hexValue? (c : Char) : Option Nat :=
  if '0' ≤ c ∧ c ≤ '9' then some (c.toNat - '0'.toNat)
  else if 'a' ≤ c ∧ c ≤ 'f' then some (c.toNat - 'a'.toNat + 10)
  else if 'A' ≤ c ∧ c ≤ 'F' then some (c.toNat - 'A'.toNat + 10)
  else none

/-- The character whose code point is written by `n` hexadecimal digits at the front of a text. -/
def readCodePoint (n : Nat) (text : List Char) : Option Char := do
  let digits ← (text.take n).mapM hexValue?
  if digits.length = n then
    let code := digits.foldl (fun m d => 16 * m + d) 0
    if code.isValidChar then some (Char.ofNat code) else none
  else none

/-- What follows a line break that a backslash hides: the break, with spaces before it and blank
    space of any kind after it, is skipped. -/
def skipLineBreak (text : List Char) : Option (List Char) :=
  match text.dropWhile isSpace with
  | '\n' :: cs => some (cs.dropWhile fun c => isSpace c || c == '\n')
  | _ => none

theorem length_skipLineBreak_le {text rest : List Char} (h : skipLineBreak text = some rest) :
    rest.length ≤ text.length := by
  have hd := length_dropWhile_le isSpace text
  unfold skipLineBreak at h
  split at h
  · next cs e =>
    obtain rfl := Option.some.inj h
    rw [e, List.length_cons] at hd
    exact Nat.le_trans (length_dropWhile_le _ cs) (by omega)
  · simp at h

/-- The text that a string with escapes stands for. Line breaks may stand in a string of several
    lines alone, and so may the backslash that hides one. -/
def unescape (block : Bool) : List Char → Option (List Char)
  | [] => some []
  | c :: cs =>
    if c = backslash then
      match cs with
      | [] => none
      | d :: ds =>
        match letterEscapes.lookup d with
        | some e => (unescape block ds).map (e :: ·)
        | none =>
          if d = 'u' then do
            let e ← readCodePoint 4 ds
            (unescape block (ds.drop 4)).map (e :: ·)
          else if d = 'U' then do
            let e ← readCodePoint 8 ds
            (unescape block (ds.drop 8)).map (e :: ·)
          else if block then
            match h : skipLineBreak (d :: ds) with
            | none => none
            | some rest =>
              have : rest.length < (c :: d :: ds).length :=
                Nat.lt_succ_of_le (length_skipLineBreak_le h)
              unescape block rest
          else none
    else if isPlain c || (block && c == '\n') then (unescape block cs).map (c :: ·)
    else none
termination_by text => text.length
decreasing_by
  · simp only [List.length_cons]
    omega
  · simp only [List.length_cons, List.length_drop]
    omega
  · simp only [List.length_cons, List.length_drop]
    omega
  · exact this
  · exact Nat.lt_succ_self _

/-- The text that a string without escapes stands for: the characters as they are. -/
def unchanged (block : Bool) (body : List Char) : Option (List Char) :=
  if body.all fun c => isPlain c || (block && c == '\n') then some body else none

/-! ## 4. Whole strings -/

/-- Decodes what stands between the marks, once their end is found. -/
def decodeBody (mark : Char) (block : Bool) (body : List Char) : Option (List Char) :=
  if mark = quotationMark then unescape block body else unchanged block body

/-- A line break right after the opening marks is no part of a string. -/
def skipFirstBreak : List Char → List Char
  | '\n' :: cs => cs
  | cs => cs

theorem length_skipFirstBreak_le (text : List Char) :
    (skipFirstBreak text).length ≤ text.length := by
  unfold skipFirstBreak
  split <;> simp

/-- A string of one line, behind its opening mark. -/
def readLine (mark : Char) (text : List Char) : Option (Found (List Char) text) := do
  let found ← closeLine mark (mark == quotationMark) text
  let body ← decodeBody mark false found.value
  some ⟨body, found.rest, found.shorter⟩

/-- A string of several lines, behind its opening marks. -/
def readBlock (mark : Char) (text : List Char) : Option (Found (List Char) text) := do
  let found ← closeBlock mark (mark == quotationMark) (skipFirstBreak text)
  let body ← decodeBody mark true found.value
  some ⟨body, found.rest, Nat.lt_of_lt_of_le found.shorter (length_skipFirstBreak_le text)⟩

end KeyBindings.Toml
