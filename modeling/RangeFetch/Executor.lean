import RangeFetch.Session.Call
import RangeFetch.Transfer.Primitive

/-!
# Running the tasks of a session

An executor runs the tasks of a session on one thread. A task whose turn comes asks for a permit;
with one, it makes its call and goes on to its report, unless the primitive holds it. Tasks take
their turns in the order in which they become ready: when they are launched, or when a permit comes
to them.

It is the runtime that `dispatch` spawns its tasks on, with one thread, and the threads of callers
that leave it alone while it runs.

Headlines:
* **`settle`** runs the tasks until none can go on.
* **`release`** lets the transfer end that is held longest among some; `releaseAll` lets all end,
  also those that are held only later.
* `shutdown` stops the session and releases everything, so that no task is left.
-/

namespace RangeFetch

/-- A session with the primitive's state and the transfers that it holds. -/
structure Executor (σ : Type) where
  session : Session
  state : σ
  /-- The tasks whose transfer is held, with what it will do; the longest held first. -/
  held : List (Nat × Reply) := []
  /-- The most transfers that ran at one time. -/
  peak : Nat := 0

namespace Executor

variable {σ : Type}

/-! ## Turns -/

/-- The transfer of task `t` writes its bytes and ends, and the task reports. Gives the task that
the permit went to. -/
def complete (t : Nat) (reply : Reply) : Executor σ → Executor σ × Option Nat
  | ⟨s, state, held, peak⟩ =>
    let woken := s.permits.line.head?
    let s := (s.write t 0 reply.bytes).finish t reply.outcome
    (⟨((s.advance t).advance t).advance t, state, held, peak⟩, woken)

/-- Task `t`, which has a permit, starts its transfer. -/
def start (primitive : Primitive σ) (t : Nat) : Executor σ → Executor σ × Option Nat
  | ⟨s, state, held, peak⟩ =>
    let s := s.advance t
    match s.callOf? t with
    | none => (⟨s, state, held, peak⟩, none)
    | some call =>
      let (reply, state) := primitive state call
      let s := if reply.stops then s.stop else s
      let peak := max peak (held.length + 1)
      if reply.held then (⟨s, state, held ++ [(t, reply)], peak⟩, none)
      else complete t reply ⟨s, state, held, peak⟩

/-- Task `t` takes its turn. Gives the task that became ready by it. -/
def turn (primitive : Primitive σ) (t : Nat) : Executor σ → Executor σ × Option Nat
  | ⟨s, state, held, peak⟩ =>
    let s := if s.phaseOf? t = some .launched then s.advance t else s
    let granted := s.phaseOf? t = some .granted
    if granted then start primitive t ⟨s, state, held, peak⟩ else (⟨s, state, held, peak⟩, none)

/-- The tasks `ready` take their turns in order. Gives the tasks that became ready by it. -/
def round (primitive : Primitive σ) (ready : List Nat) (e : Executor σ) : Executor σ × List Nat :=
  let (e, woken) := ready.foldl
    (fun (e, woken) t => let (e, w) := turn primitive t e; (e, w.toList ++ woken)) (e, [])
  (e, woken.reverse)

/-- Up to `rounds` rounds, the first of which is that of the tasks `ready`. -/
def rounds (primitive : Primitive σ) : (rounds : Nat) → List Nat → Executor σ → Executor σ
  | _, [], e => e
  | 0, _ :: _, e => e
  | n + 1, t :: ts, e =>
    let (e, woken) := round primitive (t :: ts) e
    rounds primitive n woken e

/-! ## Calls -/

/-- The tasks that wait for a turn. -/
def ready (s : Session) : List Nat :=
  (List.range s.tasks.size).filter fun t =>
    s.phaseOf? t = some .launched ∨ s.phaseOf? t = some .granted

/-- Runs the tasks until none can go on. Every round after the first is of tasks that a permit came
to, which happens to a task once, so one round more than there are tasks is enough. -/
def settle (primitive : Primitive σ) (e : Executor σ) : Executor σ :=
  let e := rounds primitive (e.session.tasks.size + 1) (ready e.session) e
  { e with session := e.session.letReturn }

/-- A caller's call, after which the tasks run. -/
def perform {α : Type} (primitive : Primitive σ) (f : Session → Session × α) :
    Executor σ → Executor σ × α
  | ⟨s, state, held, peak⟩ =>
    let (s, a) := f s
    (settle primitive ⟨s, state, held, peak⟩, a)

/-- Releases the transfer that is held longest among those whose call `fits`, if there is one. -/
def release (primitive : Primitive σ) (fits : TransferCall → Bool) (e : Executor σ) :
    Option (Executor σ) :=
  (e.held.find? fun (t, _) => (e.session.callOf? t).any fits).map fun (t, reply) =>
    settle primitive (complete t reply { e with held := e.held.filter (·.1 != t) }).1

/-- Releases up to `n` transfers, one after the other. -/
def releaseMany (primitive : Primitive σ) : Nat → Executor σ → Executor σ × Nat
  | 0, e => (e, 0)
  | n + 1, e =>
    match release primitive (fun _ => true) e with
    | none => (e, 0)
    | some e =>
      let (e, count) := releaseMany primitive n e
      (e, count + 1)

/-- Releases transfers until none is held. Gives their number; every task is held once at most. -/
def releaseAll (primitive : Primitive σ) (e : Executor σ) : Executor σ × Nat :=
  releaseMany primitive e.session.tasks.size e

/-- Stops the session, releases everything and waits for the tasks. -/
def shutdown (primitive : Primitive σ) (e : Executor σ) : Executor σ :=
  (releaseAll primitive (perform primitive (fun s => (s.beginShutdown, ())) e).1).1

/-- The calls of the transfers that are held, the longest held first. -/
def heldCalls (e : Executor σ) : List TransferCall :=
  e.held.filterMap fun (t, _) => e.session.callOf? t

end Executor

end RangeFetch
