/-!
# Paths

Path texts, read as a Unix system reads them: names between slashes, of which an empty one and a
single dot say nothing except at the front of a text, and two dots lead back.

This is what `LocalBlobStore` uses of the paths of its system: the components that `blob_path` looks
at, and its joins.

Headlines:
* **`components`** is what a path text says; **`join`** puts a path behind another one, unless it
  starts at the root of all files by itself.
-/

namespace RangeFetch.Path

/-- What a part of a path text says. -/
inductive Component where
  /-- Start at the root of all files. -/
  | root
  /-- Stay here; said by a dot at the front of a text. -/
  | here
  /-- Lead back to the parent. -/
  | parent
  /-- Go to an entry of the directory. -/
  | name (cs : List Char)
  deriving DecidableEq, Repr

/-- Whether a component is a name. -/
def Component.isName : Component → Bool
  | name _ => true
  | _ => false

/-- The text between the slashes. -/
def segments : List Char → List (List Char)
  | [] => [[]]
  | c :: cs =>
    if c = '/' then [] :: segments cs
    else
      match segments cs with
      | [] => [[c]]
      | s :: ss => (c :: s) :: ss

/-- The path starts at the root of all files. -/
def isAbsolute (path : List Char) : Bool :=
  path.head? == some '/'

/-- What a segment behind the front says. -/
def component? (segment : List Char) : Option Component :=
  if segment = [] ∨ segment = ['.'] then none
  else if segment = ['.', '.'] then some .parent
  else some (.name segment)

/-- What the front of a path says beside its first name. -/
def front (path : List Char) : List Component :=
  if isAbsolute path then [.root]
  else if (segments path).head? = some ['.'] then [.here]
  else []

/-- What a path says, in order. -/
def components (path : List Char) : List Component :=
  front path ++ (segments path).filterMap component?

/-- Puts `other` behind `base`, which an absolute path replaces. -/
def join (base other : List Char) : List Char :=
  if isAbsolute other then other
  else if base = [] ∨ base.getLast? = some '/' then base ++ other
  else base ++ '/' :: other

theorem segments_ne_nil (cs : List Char) : segments cs ≠ [] := by
  cases cs with
  | nil => simp [segments]
  | cons c cs =>
    rw [segments]
    split
    · simp
    · split <;> simp

end RangeFetch.Path
