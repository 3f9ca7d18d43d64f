import RangeFetch.Executor
import RangeFetch.Registry

/-!
# Running the tasks of all clients

The tasks of a client's session run on the runtime of its `Backend`, which `open` makes. Here one
thread does the work of all of them.

Headlines:
* **`Registry.settle`** runs the tasks of every session until none can go on, one client after the
  other. The primitives of the clients share a state.
-/

namespace RangeFetch

variable {τ σ : Type}

/-- Runs the tasks of a client. -/
def Client.settle (primitive : τ → Primitive σ) (state : σ) : Client τ → Client τ × σ
  | ⟨id, backend, registered, session, transfer⟩ =>
    let e := Executor.settle (primitive transfer) { session, state }
    (⟨id, backend, registered, e.session, transfer⟩, e.state)

/-- Runs the tasks of some clients. -/
def Client.settleAll (primitive : τ → Primitive σ) : σ → List (Client τ) → List (Client τ) × σ
  | state, [] => ([], state)
  | state, c :: cs =>
    let (c, state) := c.settle primitive state
    let (cs, state) := Client.settleAll primitive state cs
    (c :: cs, state)

/-- Runs the tasks of all clients. -/
def Registry.settle (primitive : τ → Primitive σ) (state : σ) (r : Registry τ) : Registry τ × σ :=
  let (clients, state) := Client.settleAll primitive state r.clients
  ({ r with clients }, state)

end RangeFetch
