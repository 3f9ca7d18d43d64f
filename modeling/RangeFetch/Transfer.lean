import RangeFetch.Location

/-!
# Transfers

A transfer is one call of the primitive that reads bytes of a blob into a slice. It may write any of
the slice's bytes at any time until it ends, and it ends in one of three ways.

A transfer is a call of `read_range` of a `BlobTransfer`, as `dispatch` makes it for a chunk; an
`Outcome` is the result that is reported to the `RequestTracker` (sections B.2 and 4.2).

Headlines:
* **`TransferCall`** is what a transfer is asked for, **`Outcome`** how it ended.
* `Outcome.Exact`: only a transfer of as many bytes as were asked for counts as a success.
-/

namespace RangeFetch

/-- What a transfer is asked for: `length` bytes of the blob at `location`, from `offset` on. -/
structure TransferCall where
  location : Location
  offset : UInt64
  length : Nat
  deriving DecidableEq, Repr

/-- How a transfer ended. -/
inductive Outcome where
  /-- It says that it transferred `count` bytes. -/
  | returned (count : Nat)
  | failed
  | panicked
  deriving DecidableEq, Repr

/-- The transfer of `length` bytes transferred all of them, and no more. -/
def Outcome.Exact (length : Nat) (o : Outcome) : Prop :=
  o = .returned length

instance (length : Nat) (o : Outcome) : Decidable (o.Exact length) :=
  inferInstanceAs (Decidable (_ = _))

end RangeFetch
