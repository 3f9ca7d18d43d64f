import RangeFetch.Store.Read
import RangeFetch.Transfer

/-!
# Transfer primitives

A session does not read blobs itself: a primitive answers its calls. What an answer is made of is
known when the call is made; when its bytes are written, and when the transfer ends, is up to
whoever runs the task.

A `Primitive` is a `BlobTransfer` (section B.2).

Headlines:
* **`Reply`** is the answer to a call, **`Primitive`** what gives it; a primitive may keep a state.
* **`Store.primitive`** reads from a store.
-/

namespace RangeFetch

/-- What a primitive does with a call. -/
structure Reply where
  /-- It stops the session before anything else. -/
  stops : Bool := false
  /-- It is held until somebody releases it. -/
  held : Bool := false
  /-- What it writes to the slice, from the start on. -/
  bytes : List UInt8
  outcome : Outcome
  deriving DecidableEq, Repr

/-- What answers the calls of a session. -/
abbrev Primitive (σ : Type) := σ → TransferCall → Reply × σ

/-- Reads from the store of a file tree, whose system gives as much at each read as `schedule`
says. -/
def Store.reply (s : Store) (tree : FileTree) (schedule : Schedule) (call : TransferCall) : Reply :=
  match s.fetch tree schedule call.location call.offset call.length with
  | (bytes, .ok count) => { bytes, outcome := .returned count }
  | (bytes, .error _) => { bytes, outcome := .failed }

/-- The primitive of a store, all of whose reads give what they are asked for. -/
def Store.primitive (s : Store) (tree : FileTree) : Primitive Unit := fun _ call =>
  (s.reply tree .eager call, ())

end RangeFetch
