/-!
# Completions

Outcome codes, and the event that tells the caller how a request ended. A completion with the code
`finished` is the sentinel: it stands for no request and says that there is nothing to wait for.

They are `ResponseCode` and `CompletionEvent`, with its `finished` and `is_finished` (section 3).

Headlines:
* **`Code`** and its number, `Completion`, and the sentinel `Completion.finished`.
-/

namespace RangeFetch

/-- What an operation answers at once, or how a request ended. -/
inductive Code where
  | success
  /-- The session was stopped, or nothing is left to wait for. -/
  | finished
  /-- A transfer failed or gave fewer or more bytes than asked for. -/
  | fileAccess
  | invalidParameter
  | unknown
  deriving DecidableEq, Repr

/-- The number of a code. -/
def Code.number : Code → Nat
  | .success => 0
  | .finished => 1
  | .fileAccess => 2
  | .invalidParameter => 3
  | .unknown => 4

theorem Code.number_injective {a b : Code} (h : a.number = b.number) : a = b := by
  cases a <;> cases b <;> simp_all [Code.number]

/-- The end of the request that the caller named `id`. -/
structure Completion where
  id : UInt64
  code : Code
  deriving DecidableEq, Repr

namespace Completion

/-- The sentinel. -/
def finished : Completion :=
  ⟨0, .finished⟩

/-- Whether the completion is a sentinel, which no request ends with. -/
def isFinished (c : Completion) : Bool :=
  c.code == .finished

@[simp] theorem isFinished_finished : finished.isFinished = true := rfl

end Completion

end RangeFetch
