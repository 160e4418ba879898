import KeyBindings.Association
import KeyBindings.Files.Reading
import KeyBindings.Text.Split

/-!
# A file system in memory

Files and directories by their place: the names from the root down. A path is followed the way a
system does it, name by name: every name but the last has to be that of a directory, `..` goes up
from the directory REACHED, and a path that does not start at the root starts at a given directory.
So `d/../f` leads somewhere only where `d` is a directory.

* `locate` -- the place a path leads to; its last name may be free;
* `read` -- the bytes of the file at that place;
* `isThere` -- whether anything stands there, a file or a directory;
* `write` -- makes the directories that the path passes, then puts the file at its end;
* `remove` -- takes away the file a path leads to.

**`node?_put`** and **`node?_delete`** say what each change does to each place,
**`node?_makeDirectories`** that making directories replaces nothing, and **`read_write`** that what
is written is read.
-/

namespace KeyBindings

/-- A place: the names from the root down. -/
abbrev Place := List String

/-- What stands at a place. -/
inductive Node where
  | directory
  | file (content : ByteArray)

/-- What stands at which place. The root is a directory and needs no entry. -/
structure FileSystem where
  nodes : List (Place × Node)

namespace FileSystem

/-! ## 1. Places -/

/-- The file system with nothing but its root. -/
def empty : FileSystem := ⟨[]⟩

/-- What stands at a place. -/
def node? (files : FileSystem) (place : Place) : Option Node :=
  if place = [] then some .directory else Association.value? files.nodes place

/-- Takes away what stands at a place. -/
def delete (files : FileSystem) (place : Place) : FileSystem :=
  ⟨Association.without files.nodes place⟩

/-- Puts something at a place. -/
def put (files : FileSystem) (place : Place) (node : Node) : FileSystem :=
  ⟨Association.replace files.nodes place node⟩

/-- **What stands where after a deletion.** -/
theorem node?_delete {files : FileSystem} {place other : Place} (hr : place ≠ []) :
    (files.delete other).node? place = if place = other then none else files.node? place := by
  simp only [node?, hr, if_false, delete, Association.value?_without]

/-- **What stands where after something is put.** -/
theorem node?_put {files : FileSystem} {place other : Place} {node : Node} (hr : place ≠ []) :
    (files.put other node).node? place =
      if place = other then some node else files.node? place := by
  simp only [node?, hr, if_false, put, Association.value?_replace]

/-- Nothing changes but the place where something is put. -/
theorem node?_put_of_ne {files : FileSystem} {place other : Place} {node : Node}
    (h : place ≠ other) : (files.put other node).node? place = files.node? place := by
  by_cases hr : place = []
  · simp only [node?, hr, if_true]
  · rw [node?_put hr, if_neg h]

/-- Something put below the root stands there. -/
theorem node?_put_self {files : FileSystem} {place : Place} {node : Node} (hr : place ≠ []) :
    (files.put place node).node? place = some node := by
  rw [node?_put hr, if_pos rfl]

/-! ## 2. Paths -/

/-- The names of a path's text. A slash in front, behind or doubled makes an empty name. -/
def names (path : String) : List String :=
  (Text.cut (· == '/') path.toList).map String.ofList

/-- Whether a name stays where it is followed. -/
def isIdle (name : String) : Bool := name == "" || name == "."

/-- The names on the way to what a path names: all but the last one that leads anywhere. -/
def namesAbove (path : String) : List String :=
  ((names path).filter (!isIdle ·)).dropLast

/-- Whether a path starts at the root. -/
def isAbsolute (path : String) : Bool := path.toList.head? == some '/'

/-- Where a path starts, for one who stands in a directory. -/
def origin (start : Place) (path : String) : Place := if isAbsolute path then [] else start

/-- The longest name that a directory takes, in bytes. -/
def maxNameLength : Nat := 255

/-- The longest path that is followed, in bytes. -/
def maxPathLength : Nat := 4095

/-- Why a path is not followed at all, whatever stands where: it holds a NUL, is empty or is too
    long. -/
def refusal? (path : String) : Option ReadError :=
  if path.toList.contains '\x00' then some .nulInPath
  else if path = "" then some .notFound
  else if maxPathLength < path.utf8ByteSize then some .nameTooLong
  else none

/-- The place that one name leads to from a directory. Nothing is above the root. -/
def step (here : Place) (name : String) : Place :=
  if isIdle name then here
  else if name = ".." then here.dropLast
  else here ++ [name]

/-- Follows names from a place. Each has to be followed from a directory; what the last one leads
    to is not asked. -/
def follow (files : FileSystem) (here : Place) : List String → Except ReadError Place
  | [] => .ok here
  | name :: rest =>
    match files.node? here with
    | none => .error .notFound
    | some (.file _) => .error .notDirectory
    | some .directory =>
      if maxNameLength < name.utf8ByteSize then .error .nameTooLong
      else files.follow (step here name) rest

/-- The place that a path leads to, from a directory. -/
def locate (files : FileSystem) (start : Place) (path : String) : Except ReadError Place :=
  match refusal? path with
  | some reason => .error reason
  | none => files.follow (origin start path) (names path)

/-- The bytes of the file that a path leads to. -/
def read (files : FileSystem) (start : Place) (path : String) : FileContent :=
  match files.locate start path with
  | .error reason => .error reason
  | .ok place =>
    match files.node? place with
    | none => .error .notFound
    | some .directory => .error .isDirectory
    | some (.file content) => .ok content

/-- Whether something stands where a path leads. A path that cannot be followed leads to nothing. -/
def isThere (files : FileSystem) (start : Place) (path : String) : Bool :=
  match files.locate start path with
  | .error _ => false
  | .ok place => (files.node? place).isSome

/-! ## 3. Changes by path -/

/-- Puts a directory at a place where nothing stands. -/
def ensureDirectory (files : FileSystem) (place : Place) : FileSystem :=
  if (files.node? place).isNone then files.put place .directory else files

/-- Follows names from a place and puts a directory wherever nothing stands on the way. A file on
    the way, or a name that is too long, ends it. -/
def makeDirectories (files : FileSystem) (here : Place) : List String → FileSystem
  | [] => files.ensureDirectory here
  | name :: rest =>
    match files.node? here with
    | some (.file _) => files
    | _ =>
      if maxNameLength < name.utf8ByteSize then files.ensureDirectory here
      else (files.ensureDirectory here).makeDirectories (step here name) rest

/-- Makes the directories on the way to what a path names. -/
def makeAbove (files : FileSystem) (start : Place) (path : String) : FileSystem :=
  match refusal? path with
  | some _ => files
  | none => files.makeDirectories (origin start path) (namesAbove path)

/-- Puts a file at a place, unless a directory stands there. -/
def putFile (files : FileSystem) (place : Place) (content : ByteArray) : FileSystem :=
  match files.node? place with
  | some .directory => files
  | _ => files.put place (.file content)

/-- Writes a file, with the directories on the way to it. A path at whose end no file can stand
    gets no file. -/
def write (files : FileSystem) (start : Place) (path : String) (content : ByteArray) :
    FileSystem :=
  match (files.makeAbove start path).locate start path with
  | .error _ => files.makeAbove start path
  | .ok place => (files.makeAbove start path).putFile place content

/-- Removes the file that a path leads to; anything else stays. -/
def remove (files : FileSystem) (start : Place) (path : String) : FileSystem :=
  match files.locate start path with
  | .error _ => files
  | .ok place =>
    match files.node? place with
    | some (.file _) => files.delete place
    | _ => files

/-! ## 4. What the changes keep -/

/-- What stands somewhere still stands there after a directory is ensured anywhere. -/
theorem node?_ensureDirectory {files : FileSystem} {here place : Place} {node : Node}
    (h : files.node? place = some node) : (files.ensureDirectory here).node? place = some node := by
  unfold ensureDirectory
  split
  · next hn =>
    have hne : place ≠ here := by
      rintro rfl
      simp [h] at hn
    rw [node?_put_of_ne hne, h]
  · exact h

/-- **Making directories replaces nothing.** -/
theorem node?_makeDirectories {files : FileSystem} {here place : Place} {path : List String}
    {node : Node} (h : files.node? place = some node) :
    (files.makeDirectories here path).node? place = some node := by
  induction path generalizing files here with
  | nil => exact node?_ensureDirectory h
  | cons name rest ih =>
    unfold makeDirectories
    split
    · exact h
    · split
      · exact node?_ensureDirectory h
      · exact ih (node?_ensureDirectory h)

/-- A file put where no directory stands is in nobody's way. -/
theorem follow_put {files : FileSystem} {here place reached : Place} {path : List String}
    {content : ByteArray} (hd : files.node? place ≠ some .directory)
    (h : files.follow here path = .ok reached) :
    (files.put place (.file content)).follow here path = .ok reached := by
  induction path generalizing here with
  | nil => exact h
  | cons name rest ih =>
    unfold follow at h ⊢
    cases hn : files.node? here with
    | none => simp [hn] at h
    | some node =>
      cases node with
      | file _ => simp [hn] at h
      | directory =>
        have hne : here ≠ place := by
          rintro rfl
          exact hd hn
        rw [node?_put_of_ne hne]
        simp only [hn] at h ⊢
        split at h
        · simp at h
        · next hl => simpa [hl] using ih h

/-- **What is written is read**, where the path leads to a place and no directory stands there. -/
theorem read_write {files : FileSystem} {start place : Place} {path : String}
    {content : ByteArray} (h : (files.makeAbove start path).locate start path = .ok place)
    (hd : (files.makeAbove start path).node? place ≠ some .directory) :
    (files.write start path content).read start path = .ok content := by
  have hr : place ≠ [] := by
    rintro rfl
    exact hd rfl
  have hw : files.write start path content =
      (files.makeAbove start path).put place (.file content) := by
    simp only [write, h]
    unfold putFile
    split
    · next hp => exact absurd hp hd
    · rfl
  have hl : ((files.makeAbove start path).put place (.file content)).locate start path =
      .ok place := by
    unfold locate at h ⊢
    split at h
    · simp at h
    · exact follow_put hd h
  rw [hw]
  simp only [read, hl, node?_put_self hr]

end FileSystem

end KeyBindings
