import RangeFetch.Text.Decimal

/-!
# Faults

A fault is a broken precondition of the engine. The call that meets one is given up; nothing it
would have produced exists.

They are the panics of `chunk_ranges`, `partition` and `split_at`, of the limiter in `Session` and
of the runtime in `Backend`, and the subtractions of `RequestTracker` and `InflightTasks`.

Headlines:
* **`Fault.message`**: the text each fault is reported with.
-/

namespace RangeFetch

/-- What a call of the engine can break on. -/
inductive Fault where
  /-- Cutting a range into chunks of no bytes. -/
  | zeroChunkSize
  /-- A destination of `buffer` bytes for a range of `range` bytes. -/
  | bufferMismatch (buffer range : Nat)
  /-- Room for more chunks than a list can have. -/
  | capacityOverflow
  /-- Cutting a slice behind its end. -/
  | splitPastEnd
  /-- A session with more permits than a limiter can count. -/
  | tooManyPermits
  /-- A backend without a thread to run on. -/
  | noWorkers
  /-- Counting a chunk of a request that has none left to count. -/
  | countdownAtZero
  /-- Leaving the in-flight count more often than entering it. -/
  | inflightAtZero
  deriving DecidableEq, Repr

/-- The largest number of permits that a limiter can count: all that 61 bits hold. -/
def maxPermits : Nat := 0x1FFFFFFFFFFFFFFF

/-- The largest number of chunks that a list can have room for: each takes 16 bytes, and 63 bits
count the bytes of a list. -/
def maxChunks : Nat := 0x7FFFFFFFFFFFFFF

private def decimal (n : Nat) : String :=
  String.ofList (Text.digits n)

/-- The text of a fault. -/
def Fault.message : Fault → String
  | .zeroChunkSize => "chunk size must be positive"
  | .bufferMismatch b r =>
    "assertion `left == right` failed: destination buffer must cover the whole range\n  left: "
      ++ decimal b ++ "\n right: " ++ decimal r
  | .capacityOverflow => "capacity overflow"
  | .splitPastEnd => "assertion failed: mid <= self.len"
  | .tooManyPermits =>
    "a semaphore may not have more than MAX_PERMITS permits (" ++ decimal maxPermits ++ ")"
  | .noWorkers => "Worker threads cannot be set to 0"
  | .countdownAtZero => "attempt to subtract with overflow"
  | .inflightAtZero => "attempt to subtract with overflow"

end RangeFetch
