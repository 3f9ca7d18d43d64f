import RangeFetch.Config
import RangeFetch.FileTree
import RangeFetch.Location

/-!
# Blob stores on a file system

A store keeps the blob `b` of the container `c` in the file `c/b` under its root directory. A path
that would lead out of the root is refused before a file is touched.

A `Store` is a `LocalBlobStore`, `ofEndpoint` its `from_endpoint`, and `filePath?` its `blob_path`
(section B.2).

Headlines:
* **`Store.ofEndpoint`** opens the store that an endpoint names.
* **`Store.pathUnder?`** is the path of a blob's file under a root, **`Store.filePath?`** the one
  under the root of a store.
-/

namespace RangeFetch

/-- A store under an absolute root path. -/
structure Store where
  root : List Char
  root_absolute : Path.isAbsolute root = true
  deriving DecidableEq, Repr

/-- Why a transfer from a store fails. -/
inductive StoreError where
  /-- The blob's path leads out of the store. -/
  | escapes (location : Location)
  | file (e : FileError)
  deriving DecidableEq, Repr

/-- The store's own text of an error; a file error has the system's. -/
def StoreError.message? : StoreError → Option String
  | .escapes l => some ("blob path escapes the store: " ++ l.toUri)
  | .file _ => none

/-- What kind of trouble an error is: a path that leads out of the store is no valid input. -/
def StoreError.kind : StoreError → FileError
  | .escapes _ => .invalidInput
  | .file e => e

namespace Store

/-- What the endpoint of a store may start with. -/
def fileScheme : List Char := ['f', 'i', 'l', 'e', ':', '/', '/']

/-- The store at an endpoint: an absolute path, with or without the scheme of files. -/
def ofEndpoint (endpoint : Option String) : Except ConfigError Store :=
  match endpoint with
  | none => .error (.unsupportedEndpoint none)
  | some text =>
    let path := (fileScheme.isPrefixOf? text.toList).getD text.toList
    if h : Path.isAbsolute path = true then .ok ⟨path, h⟩
    else .error (.unsupportedEndpoint (some text))

/-- The path of a blob below the root. -/
def relativePath (l : Location) : List Char :=
  Path.join l.container.toList l.blob.toList

/-- The path of a blob's file under a root, unless it leads out of it. -/
def pathUnder? (root : List Char) (l : Location) : Option (List Char) :=
  if (Path.components (relativePath l)).all Path.Component.isName then
    some (Path.join root (relativePath l))
  else none

/-- The path of a blob's file, if it stays under the root. -/
def filePath? (s : Store) (l : Location) : Option (List Char) :=
  pathUnder? s.root l

end Store

end RangeFetch
