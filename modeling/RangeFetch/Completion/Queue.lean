import RangeFetch.Completion

/-!
# The queue of completions

Requests are registered before they are started; their completions are pushed in the order in
which they arise and handed out in that order. `outstanding` counts the registered completions that
were not handed out. A stopped queue hands out the sentinel only, and keeps what it holds.

`register`, `push`, `stop` and `take?` are `increment`, `push`, `stop` and `take` of the engine's
`CompletionQueue`; its `try_pop` is one `take`, and its `pop` is that of a `WaitingRoom` (sections
4.3 and B.5).

Headlines:
* **`CompletionQueue.take?`** is one hand-out. It is `none` exactly when a consumer has to wait:
  `take?_eq_none_iff`.
* **`takeMany`** hands out as many completions as there is room for, up to a sentinel.
-/

namespace RangeFetch

/-- Completions waiting for a consumer. -/
structure CompletionQueue where
  events : List Completion := []
  outstanding : Nat := 0
  stopped : Bool := false
  deriving DecidableEq, Repr

namespace CompletionQueue

/-- Registers `n` more completions to wait for. -/
def register (q : CompletionQueue) (n : Nat) : CompletionQueue :=
  { q with outstanding := q.outstanding + n }

/-- A queue that `expected` completions are registered with. -/
def expecting (expected : Nat) : CompletionQueue :=
  register {} expected

/-- Adds a completion behind the others. -/
def push (q : CompletionQueue) (e : Completion) : CompletionQueue :=
  { q with events := q.events ++ [e] }

/-- Stops the queue. -/
def stop (q : CompletionQueue) : CompletionQueue :=
  { q with stopped := true }

/-- Hands out one completion, or nothing when there is one to wait for. -/
def take? (q : CompletionQueue) : Option (Completion × CompletionQueue) :=
  if q.stopped then some (.finished, q)
  else
    match q.events with
    | e :: es => some (e, { q with events := es, outstanding := q.outstanding - 1 })
    | [] => if q.outstanding = 0 then some (.finished, q) else none

/-- Hands out up to `room` completions, and ends before the first sentinel. -/
def takeMany : (room : Nat) → CompletionQueue → List Completion × CompletionQueue
  | 0, q => ([], q)
  | room + 1, q =>
    match q.take? with
    | none => ([], q)
    | some (e, q') =>
      if e.isFinished then ([], q')
      else ((e :: (takeMany room q').1), (takeMany room q').2)

/-- A consumer has to wait. -/
def Blocks (q : CompletionQueue) : Prop :=
  q.stopped = false ∧ q.events = [] ∧ 0 < q.outstanding

instance (q : CompletionQueue) : Decidable q.Blocks :=
  inferInstanceAs (Decidable (_ ∧ _ ∧ _))

theorem take?_eq_none_iff (q : CompletionQueue) : q.take? = none ↔ q.Blocks := by
  obtain ⟨events, outstanding, stopped⟩ := q
  cases stopped <;> cases events <;> simp [take?, Blocks, Nat.pos_iff_ne_zero]

theorem take?_stop (q : CompletionQueue) : q.stop.take? = some (.finished, q.stop) := rfl

end CompletionQueue

end RangeFetch
