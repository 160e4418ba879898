import KeyBindings.Failure

/-!
# Reading files

Reading a file gives its content: its bytes, or the reason why there are none. `Reader` is what the
rest of the library asks files from: a function from a path's text, in whatever monad the files
live. Text has to be UTF-8 (`FileContent.text`).
-/

namespace KeyBindings

/-- Why a file could not be read. -/
inductive ReadError where
  /-- Nothing has that name. -/
  | notFound
  /-- A file stands where the path needs a directory. -/
  | notDirectory
  /-- The path leads to a directory. -/
  | isDirectory
  /-- A name in the path is longer than a file system takes. -/
  | nameTooLong
  /-- The path holds a NUL character, which no name may. -/
  | nulInPath
  /-- The bytes are no UTF-8. -/
  | notText
  /-- Something else, in the words of the system. -/
  | other (message : String)
  deriving DecidableEq, Repr

namespace ReadError

def message : ReadError → String
  | .notFound => "No such file or directory (os error 2)"
  | .notDirectory => "Not a directory (os error 20)"
  | .isDirectory => "Is a directory (os error 21)"
  | .nameTooLong => "File name too long (os error 36)"
  | .nulInPath => "file name contained an unexpected NUL byte"
  | .notText => "stream did not contain valid UTF-8"
  | .other message => message

end ReadError

/-- What reading a file gives. -/
abbrev FileContent : Type := Except ReadError ByteArray

/-- Reads the file at a path. -/
abbrev Reader (m : Type → Type) : Type := String → m FileContent

/-- The text that bytes hold. -/
def decodeText (bytes : ByteArray) : Except ReadError String :=
  match String.fromUTF8? bytes with
  | some text => .ok text
  | none => .error .notText

/-- The text of a file. -/
def FileContent.text (content : FileContent) : Except ReadError String :=
  content.bind decodeText

/-- A text is read where there are bytes that hold one. -/
theorem FileContent.text_eq_ok_iff {content : FileContent} {text : String} :
    content.text = .ok text ↔
      ∃ bytes, content = .ok bytes ∧ String.fromUTF8? bytes = some text := by
  rw [FileContent.text, bind_eq_ok_iff]
  refine exists_congr fun bytes => and_congr_right fun _ => ?_
  rw [decodeText]
  cases String.fromUTF8? bytes with
  | none => exact iff_of_false nofun nofun
  | some read => simp

end KeyBindings
