import RangeFetch.Path

/-!
# File trees

An unchanging tree of directories and files, and what a system answers when a file of it is opened
by a path text. The path is walked name by name from the root of all files.

The engine reads files in one place only, `read_range` of `LocalBlobStore`.

Headlines:
* **`FileTree.openPath`** answers with the entry a path leads to, or with the first trouble on the
  way.
* `walk_append`: a walk is the walk of its first part, continued.
-/

namespace RangeFetch

/-- Why a file operation is refused. -/
inductive FileError where
  | notFound
  | invalidInput
  | isADirectory
  | notADirectory
  | nameTooLong
  deriving DecidableEq, Repr

/-- The name of an entry of a directory. -/
abbrev FileName := List Char

/-- What a name stands for. -/
inductive FileEntry where
  | directory
  | file (content : Array UInt8)
  deriving DecidableEq, Repr

/-- Directories and files by their names from the root of all files on, which is always there. -/
structure FileTree where
  entries : List (List FileName × FileEntry) := []
  deriving Repr

namespace FileTree

/-- The longest name of an entry, in bytes. -/
def maxName : Nat := 255

/-- The longest path text, in bytes. -/
def maxPath : Nat := 4095

/-- The entry at a place. -/
def entry? (tree : FileTree) (place : List FileName) : Option FileEntry :=
  if place = [] then some .directory
  else (tree.entries.find? (·.1 == place)).map (·.2)

/-- Makes a directory, and the directories on the way to it. -/
def addDirectory (tree : FileTree) (place : List FileName) : FileTree :=
  let ancestors := (List.range place.length).map fun n => (place.take (n + 1), .directory)
  { tree with entries := ancestors ++ tree.entries }

/-- Makes a file, and the directories on the way to it. -/
def addFile (tree : FileTree) (place : List FileName) (content : Array UInt8) : FileTree :=
  let tree := tree.addDirectory place.dropLast
  { tree with entries := (place, .file content) :: tree.entries }

/-- The bytes of a text in UTF-8. -/
def byteLength (cs : List Char) : Nat :=
  cs.foldr (fun c n => c.utf8Size + n) 0

/-- Where a segment of a path leads from a place that is reached. The place has to be a directory,
also for a segment that stays there. -/
def step (tree : FileTree) (place : List FileName) (segment : List Char) :
    Except FileError (List FileName) :=
  match tree.entry? place with
  | none => .error .notFound
  | some (.file _) => .error .notADirectory
  | some .directory =>
    if segment = [] ∨ segment = ['.'] then .ok place
    else if segment = ['.', '.'] then .ok place.dropLast
    else if maxName < byteLength segment then .error .nameTooLong
    else if (tree.entry? (place ++ [segment])).isSome then .ok (place ++ [segment])
    else .error .notFound

/-- Where segments lead. -/
def walk (tree : FileTree) : List FileName → List (List Char) → Except FileError (List FileName)
  | place, [] => .ok place
  | place, s :: ss =>
    match tree.step place s with
    | .error e => .error e
    | .ok place' => tree.walk place' ss

/-- Opens what an absolute path leads to. -/
def openPath (tree : FileTree) (path : List Char) : Except FileError FileEntry :=
  if '\x00' ∈ path then .error .invalidInput
  else if maxPath < byteLength path then .error .nameTooLong
  else
    match tree.walk [] (Path.segments path) with
    | .error e => .error e
    | .ok place => (tree.entry? place).elim (.error .notFound) .ok

theorem walk_append (tree : FileTree) (place : List FileName) (as bs : List (List Char)) :
    tree.walk place (as ++ bs) =
      match tree.walk place as with
      | .error e => .error e
      | .ok place' => tree.walk place' bs := by
  induction as generalizing place with
  | nil => rfl
  | cons a as ih =>
    simp only [List.cons_append, walk]
    split
    · rfl
    · exact ih _

end FileTree

end RangeFetch
