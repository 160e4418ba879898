import KeyBindings.Toml.Integer

/-!
# TOML: flat documents

A flat document is a list of entries `key = value`, one to a line, with blank lines and comments
between them; the values are integers, truth values and strings. Tables, arrays and the like have
no place in one and are refused like any other malformed text, with the number of the line.

* `unifyBreaks` -- a line break is a line feed, alone or after a carriage return; a carriage return
  elsewhere is malformed;
* `readEntry` -- a key, an equals sign and a value;
* `readDocument` -- the entries of a whole text, in order. Whether a key stands twice is for the
  reader of the entries to say.
-/

namespace KeyBindings.Toml

/-! ## 1. Values and faults -/

inductive Value where
  | integer (n : Int)
  | boolean (b : Bool)
  | string (s : String)
  deriving DecidableEq, Repr

/-- An entry of a document. -/
structure Entry where
  key : String
  value : Value
  deriving DecidableEq, Repr

/-! ## 2. Keys and values -/

/-- A character of a bare key. -/
def isBareKey (c : Char) : Bool := c.isAlphanum || c == '_' || c == '-'

/-- A key: bare, or a quoted string of one line. -/
def readKey (text : List Char) : Option (Found String text) :=
  match text with
  | [] => none
  | c :: cs =>
    if c = quotationMark ∨ c = apostrophe then
      (readLine c cs).map fun found => found.widen String.ofList (length_le_length_cons c cs)
    else (readWhile isBareKey (c :: cs)).map fun found =>
      found.widen String.ofList (Nat.le_refl _)

theorem length_drop_le_length_cons (n : Nat) (c : Char) (text : List Char) :
    (text.drop n).length ≤ (c :: text).length :=
  Nat.le_succ_of_le (List.drop_suffix n text).length_le

/-- The value of a bare word: a truth value or an integer. -/
def Value.ofWord? (word : List Char) : Option Value :=
  if word = "true".toList then some (.boolean true)
  else if word = "false".toList then some (.boolean false)
  else (readInteger word).map .integer

/-- A value of an entry. -/
def readValue (text : List Char) : Option (Found Value text) :=
  match text with
  | [] => none
  | c :: cs =>
    if c = quotationMark ∨ c = apostrophe then
      if cs.take 2 = [c, c] then
        (readBlock c (cs.drop 2)).map fun found =>
          found.widen (.string ∘ String.ofList) (length_drop_le_length_cons 2 c cs)
      else (readLine c cs).map fun found =>
        found.widen (.string ∘ String.ofList) (length_le_length_cons c cs)
    else do
      let word ← readWhile (fun c => isBareKey c || c == '+') (c :: cs)
      let value ← Value.ofWord? word.value
      some (word.widen (fun _ => value) (Nat.le_refl _))

/-! ## 3. Entries and documents -/

/-- A text without the spaces and tabs at its front. -/
def skipSpaces (text : List Char) : List Char := text.dropWhile isSpace

theorem length_skipSpaces_le (text : List Char) : (skipSpaces text).length ≤ text.length :=
  length_dropWhile_le isSpace text

/-- A text without the comment at its front, if it starts with one. -/
def skipComment : List Char → List Char
  | '#' :: cs => cs.dropWhile isPlain
  | cs => cs

theorem length_skipComment_le (text : List Char) : (skipComment text).length ≤ text.length := by
  unfold skipComment
  split
  · exact Nat.le_succ_of_le (length_dropWhile_le isPlain _)
  · exact Nat.le_refl _

/-- A key, an equals sign and a value. -/
def readEntry (text : List Char) : Option (Found Entry text) := do
  let key ← readKey text
  match h : skipSpaces key.rest with
  | '=' :: cs =>
    let value ← readValue (skipSpaces cs)
    some (value.widen (fun v => ⟨key.value, v⟩) (by
      have h1 := length_skipSpaces_le key.rest
      have h2 := length_skipSpaces_le cs
      have h3 := key.shorter
      rw [h, List.length_cons] at h1
      omega))
  | _ => none

theorem length_lt_of_skipSpaces {text cs : List Char} {c : Char}
    (h : skipSpaces text = c :: cs) : cs.length < text.length := by
  have := length_skipSpaces_le text
  rw [h, List.length_cons] at this
  exact this

/-- The entries of a text, or the text that is left where it is malformed. -/
def readEntries (text : List Char) : Except (List Char) (List Entry) :=
  match h : skipSpaces text with
  | [] => .ok []
  | '\n' :: cs =>
    have := length_lt_of_skipSpaces h
    readEntries cs
  | '#' :: comment =>
    match hc : comment.dropWhile isPlain with
    | [] => .ok []
    | '\n' :: cs =>
      have : cs.length < text.length := by
        have h1 := length_lt_of_skipSpaces h
        have h2 := length_dropWhile_le isPlain comment
        rw [hc, List.length_cons] at h2
        omega
      readEntries cs
    | rest => .error rest
  | c :: cs =>
    match readEntry (c :: cs) with
    | none => .error (c :: cs)
    | some found =>
      match hr : skipComment (skipSpaces found.rest) with
      | [] => .ok [found.value]
      | '\n' :: rest =>
        have : rest.length < text.length := by
          have h1 := length_lt_of_skipSpaces h
          have h2 := length_skipComment_le (skipSpaces found.rest)
          have h3 := length_skipSpaces_le found.rest
          have h4 := found.shorter
          rw [List.length_cons] at h4
          rw [hr, List.length_cons] at h2
          omega
        (readEntries rest).map (found.value :: ·)
      | rest => .error rest
termination_by text.length

/-- A text with all line breaks made single line feeds, or what follows a stray carriage return. -/
def unifyBreaks : List Char → Except (List Char) (List Char)
  | [] => .ok []
  | '\r' :: '\n' :: cs => (unifyBreaks cs).map ('\n' :: ·)
  | '\r' :: cs => .error cs
  | c :: cs => (unifyBreaks cs).map (c :: ·)

/-- A text without the byte order mark at its front. -/
def skipMark : List Char → List Char
  | '\uFEFF' :: cs => cs
  | cs => cs

/-- The number of the line in which the unread end of a text begins. -/
def lineNumber (text rest : List Char) : Nat :=
  text.countP (· == '\n') - rest.countP (· == '\n') + 1

/-- The entries of a document, or the number of the first line that is malformed. -/
def readDocument (document : String) : Except Nat (List Entry) :=
  let text := skipMark document.toList
  match unifyBreaks text with
  | .error rest => .error (lineNumber text rest)
  | .ok unified => (readEntries unified).mapError (lineNumber unified)

end KeyBindings.Toml
