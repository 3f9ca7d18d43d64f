import RangeFetch.Buffer.Partition
import RangeFetch.Completion.Queue
import RangeFetch.Config
import RangeFetch.Permits
import RangeFetch.Transfer

/-!
# Sessions

A session reads byte ranges of blobs for one client. A request is cut into chunks, each of which is
transferred by a task of its own into its slice of the request's buffer; the tasks of all requests
share the permits of the session. The outcomes of a request's chunks are folded into one completion:
`success` when every chunk transferred exactly its length, `fileAccess` at the first that did not.

The state is a plain value. What several threads do at the same time is told apart into steps, each
of which reads and writes the state at one moment; `Session.Step` has the steps.

`Session` is the engine's `Session` with its `InflightTasks`; a `Request` is a `RequestTracker` with
the chunks that `dispatch` works through, a `Task` what `dispatch` spawns for one of them, and
`Session.start` is `new` (sections 4.2 and 4.4).

Headlines:
* **`Session`** is the state: `Request`s with the submitter that launches them, `Task`s in the order
  of their launch, and `Closer`s that stop the session.
* **`Session.start`** is the state of a new session.
-/

namespace RangeFetch

/-- Where the submitter of a request stands: for each chunk it enters the in-flight count, reads the
stop flag, and either launches the chunk or leaves the count and gives up. -/
inductive Launch where
  /-- Before the next chunk. -/
  | ready
  /-- In the in-flight count. -/
  | entered
  /-- The stop flag was not set. -/
  | cleared
  /-- The stop flag was set. -/
  | barred
  /-- Answered to the caller. -/
  | answered (code : Code)
  deriving DecidableEq, Repr

/-- An accepted request. -/
structure Request where
  /-- The caller's name for it. -/
  id : UInt64
  location : Location
  range : ByteRange
  pieces : Array Piece
  /-- The caller's memory. -/
  buffer : Buffer
  launch : Launch := .ready
  /-- Chunks that have a task. -/
  launched : Nat := 0
  /-- Chunks that are still to succeed. -/
  remaining : Nat
  /-- A chunk has failed. -/
  failed : Bool := false
  deriving DecidableEq, Repr

/-- Where the task of a chunk stands. From the end of its transfer on it carries the outcome, and
from its report on the code that the report has to push, if any. -/
inductive Phase where
  | launched
  /-- In the line for a permit. -/
  | waiting
  /-- Holds a permit. -/
  | granted
  /-- Holds a permit, and its transfer runs. -/
  | running
  /-- The transfer has ended and the permit is given back. -/
  | ended (o : Outcome)
  /-- Counted among the chunks of its request. -/
  | counted (o : Outcome) (code : Option Code)
  /-- What had to be pushed is pushed. -/
  | reported (o : Outcome) (code : Option Code)
  /-- Left the in-flight count. -/
  | finished (o : Outcome) (code : Option Code)
  deriving DecidableEq, Repr

/-- The task of a chunk. -/
structure Task where
  /-- The number of its request. -/
  request : Nat
  piece : Piece
  phase : Phase := .launched
  deriving DecidableEq, Repr

/-- Where a caller stands that stops the session: it sets the flag, then it stops the queue, and
then, if it `waits`, it stays until nothing is in flight. -/
inductive Closing where
  | raising
  | halting
  | draining
  | returned
  deriving DecidableEq, Repr

/-- A caller that stops the session. -/
structure Closer where
  waits : Bool
  closing : Closing := .raising
  deriving DecidableEq, Repr

/-- The state of a session. -/
structure Session where
  config : Config
  permits : Permits
  /-- The stop flag. -/
  stopped : Bool := false
  /-- A request was accepted at some time. -/
  submitted : Bool := false
  queue : CompletionQueue := {}
  /-- Unfinished tasks, and submitters on the way to launch one. -/
  inflight : Nat := 0
  requests : Array Request := #[]
  /-- In the order of launch. -/
  tasks : Array Task := #[]
  /-- The tasks that have called the primitive, in that order. -/
  starts : Array Nat := #[]
  closers : Array Closer := #[]
  /-- Checks of the engine that failed. -/
  faults : List Fault := []
  deriving DecidableEq, Repr

namespace Session

/-- A new session. -/
def start (config : Config) : Except Fault Session :=
  (Permits.ofCount config.maxConcurrency).map fun permits => { config, permits }

/-- Whether `config` has the credentials that the session was made with. -/
def verifies (s : Session) (config : Config) : Bool :=
  s.config.sameCredentials config

/-- Where task `t` stands. -/
def phaseOf? (s : Session) (t : Nat) : Option Phase :=
  s.tasks[t]?.map (·.phase)

/-- What the transfer of a task is asked for. -/
def callOf? (s : Session) (t : Nat) : Option TransferCall :=
  s.tasks[t]?.bind fun task => s.requests[task.request]?.map fun q =>
    ⟨q.location, task.piece.range.offset, task.piece.slice.length⟩

/-- The transfers that were started after the first `n`, in order. -/
def callsFrom (s : Session) (n : Nat) : List TransferCall :=
  (s.starts.toList.drop n).filterMap s.callOf?

end Session

end RangeFetch
