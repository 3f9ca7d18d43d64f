import RangeFetch.Session

/-!
# The steps of a session

Each function of this module is one step of one party: a caller that submits a request, its
submitter, the task of a chunk, the transfer that the task runs, a caller that stops the session,
and a caller that takes a completion. A step that is not enabled changes nothing.

`submit` is `submit_read` up to its `dispatch`, and `launch` goes through the loop of `dispatch`.
`advance`, `write` and `finish` are the task that is spawned there; its `count` and `report` are the
two halves of `chunk_succeeded` and `chunk_failed` of the `RequestTracker`. `close` and `closing`
are `stop` and `shutdown`, whose `wait_idle` is the draining, and `next?` is `try_next_completion`,
and `await_next_completion` where there is a completion.

Headlines:
* **`submit`** decides over a request (`accept`) and registers it; **`launch`**, **`advance`**,
  **`write`**, **`finish`**, **`close`** and **`closing`** are the others.
* **`act`** takes a step by its name, `Enabled` says which steps may come next, and `Reachable`
  collects the states that any order of steps leads to.
-/

namespace RangeFetch

/-- What a caller hands in to have a range read. -/
structure Submission where
  id : UInt64
  path : String
  range : ByteRange
  buffer : Buffer
  deriving DecidableEq, Repr

/-- What a submission comes to before anything is launched. -/
inductive Admission where
  | refused (code : Code)
  /-- Accepted as the request of this number. -/
  | accepted (request : Nat)
  | broken (f : Fault)
  deriving DecidableEq, Repr

namespace Session

variable (s : Session)

/-! ## Requests -/

/-- The location that is to be read, or the code that the submission is refused with. -/
def accept (x : Submission) : Except Code Location :=
  if s.stopped then .error .finished
  else
    match Location.ofUri x.path with
    | .error _ => .error .invalidParameter
    | .ok l =>
      if x.buffer.size = x.range.length.toNat ∧ x.range.Fits then .ok l
      else .error .invalidParameter

/-- Registers one completion to come. -/
def register : Session :=
  { s with submitted := true, queue := s.queue.register 1 }

/-- Submits a request: it is refused, or registered and cut into its pieces. -/
def submit (x : Submission) : Session × Admission :=
  match s.accept x with
  | .error code => (s, .refused code)
  | .ok location =>
    match partition x.range s.config.chunkSize x.buffer.size with
    | .error f => ({ s.register with faults := f :: s.faults }, .broken f)
    | .ok pieces =>
      let request : Request :=
        { id := x.id, location, range := x.range, pieces := pieces.toArray, buffer := x.buffer,
          remaining := pieces.length }
      ({ s.register with requests := s.requests.push request }, .accepted s.requests.size)

/-- Changes a request. -/
def modifyRequest (r : Nat) (f : Request → Request) : Session :=
  { s with requests := s.requests.modify r f }

/-- Changes a task. -/
def modifyTask (t : Nat) (f : Task → Task) : Session :=
  { s with tasks := s.tasks.modify t f }

/-- Leaves the in-flight count. -/
def leave : Session :=
  if s.inflight = 0 then { s with faults := .inflightAtZero :: s.faults }
  else { s with inflight := s.inflight - 1 }

/-- The next step of the submitter of request `r`. -/
def launch (r : Nat) : Session :=
  match s.requests[r]? with
  | none => s
  | some q =>
    match q.launch with
    | .ready =>
      { s with inflight := s.inflight + 1 }.modifyRequest r ({ · with launch := .entered })
    | .entered =>
      let seen : Launch := if s.stopped then .barred else .cleared
      s.modifyRequest r ({ · with launch := seen })
    | .barred => s.leave.modifyRequest r ({ · with launch := .answered .finished })
    | .cleared =>
      match q.pieces[q.launched]? with
      | none => s
      | some piece =>
        let next : Launch :=
          if q.launched + 1 < q.pieces.size then .ready else .answered .success
        { s with tasks := s.tasks.push { request := r, piece } }.modifyRequest r fun q =>
          { q with launched := q.launched + 1, launch := next }
    | .answered _ => s

/-! ## Tasks -/

/-- Task `t` asks for a permit. -/
def acquire (t : Nat) : Session :=
  match s.permits.acquire t with
  | (permits, true) => { s with permits }.modifyTask t ({ · with phase := .granted })
  | (permits, false) => { s with permits }.modifyTask t ({ · with phase := .waiting })

/-- Task `t` starts its transfer. -/
def begin (t : Nat) : Session :=
  { s with starts := s.starts.push t }.modifyTask t ({ · with phase := .running })

/-- The code that the report of a chunk of request `q` has to push, when its transfer ended in
`o`. -/
def verdict (q : Request) (length : Nat) (o : Outcome) : Option Code :=
  if o.Exact length then (if q.remaining = 1 then some .success else none)
  else (if q.failed then none else some .fileAccess)

/-- A request after one more chunk of it is counted. -/
def tally (q : Request) (length : Nat) (o : Outcome) : Request :=
  if o.Exact length then { q with remaining := q.remaining - 1 } else { q with failed := true }

/-- Task `t` counts its chunk, whose transfer ended in `o`, among those of request `r`. -/
def count (t r length : Nat) (o : Outcome) : Session :=
  match s.requests[r]? with
  | none => s
  | some q =>
    let code := verdict q length o
    let faults :=
      if o.Exact length ∧ q.remaining = 0 then .countdownAtZero :: s.faults else s.faults
    ({ s with faults }.modifyRequest r (tally · length o)).modifyTask t
      ({ · with phase := .counted o code })

/-- Task `t` of request `r` pushes what it has to push. -/
def report (t r : Nat) (o : Outcome) (code : Option Code) : Session :=
  let queue :=
    match code, s.requests[r]? with
    | some c, some q => s.queue.push ⟨q.id, c⟩
    | _, _ => s.queue
  { s with queue }.modifyTask t ({ · with phase := .reported o code })

/-- The next step that task `t` takes by itself. -/
def advance (t : Nat) : Session :=
  match s.tasks[t]? with
  | none => s
  | some task =>
    match task.phase with
    | .launched => s.acquire t
    | .granted => s.begin t
    | .ended o => s.count t task.request task.piece.range.length.toNat o
    | .counted o code => s.report t task.request o code
    | .reported o code => s.leave.modifyTask t ({ · with phase := .finished o code })
    | .waiting | .running | .finished .. => s

/-- The transfer of task `t` writes `bytes` from position `i` of its slice on. A transfer reaches
its slice only: what does not fit is not written. -/
def write (t i : Nat) (bytes : List UInt8) : Session :=
  match s.tasks[t]? with
  | none => s
  | some task =>
    match task.phase with
    | .running =>
      let slice := task.piece.slice
      s.modifyRequest task.request fun q =>
        { q with buffer := q.buffer.write (slice.start + i) (bytes.take (slice.length - i)) }
    | _ => s

/-- The transfer of task `t` ends, and its permit goes to whoever waits longest. -/
def finish (t : Nat) (o : Outcome) : Session :=
  match s.tasks[t]? with
  | none => s
  | some task =>
    match task.phase with
    | .running =>
      let s := s.modifyTask t ({ · with phase := .ended o })
      match s.permits.release with
      | (permits, none) => { s with permits }
      | (permits, some w) => { s with permits }.modifyTask w ({ · with phase := .granted })
    | _ => s

/-! ## Stopping -/

/-- A caller begins to stop the session. -/
def close (waits : Bool) : Session :=
  { s with closers := s.closers.push { waits } }

/-- The next step of closer `i`. -/
def closing (i : Nat) : Session :=
  match s.closers[i]? with
  | none => s
  | some c =>
    let move (s : Session) (next : Closing) : Session :=
      { s with closers := s.closers.modify i ({ · with closing := next }) }
    match c.closing with
    | .raising => move { s with stopped := true } .halting
    | .halting =>
      move { s with queue := s.queue.stop } (if c.waits then .draining else .returned)
    | .draining => if s.inflight = 0 then move s .returned else s
    | .returned => s

/-! ## Completions -/

/-- Hands out one completion, or nothing when there is one to wait for. Before the first accepted
request there is nothing to wait for. -/
def next? : Option (Completion × Session) :=
  if s.submitted then s.queue.take?.map fun (e, queue) => (e, { s with queue })
  else some (.finished, s)

/-! ## Runs -/

/-- A step by its name. -/
inductive Action where
  | submit (x : Submission)
  | launch (r : Nat)
  | advance (t : Nat)
  | write (t i : Nat) (bytes : List UInt8)
  | finish (t : Nat) (o : Outcome)
  | close (waits : Bool)
  | closing (i : Nat)
  | take
  deriving DecidableEq, Repr

/-- The state after a step. -/
def act : Action → Session
  | .submit x => (s.submit x).1
  | .launch r => s.launch r
  | .advance t => s.advance t
  | .write t i bytes => s.write t i bytes
  | .finish t o => s.finish t o
  | .close waits => s.close waits
  | .closing i => s.closing i
  | .take => (s.next?.map Prod.snd).getD s

/-- The phases that a task leaves by itself. -/
def Phase.Moves : Phase → Prop
  | .launched | .granted | .ended _ | .counted .. | .reported .. => True
  | .waiting | .running | .finished .. => False

/-- The steps that may come next. -/
def Enabled : Action → Prop
  | .submit _ | .close _ => True
  | .launch r => ∃ q, s.requests[r]? = some q ∧ ∀ code, q.launch ≠ .answered code
  | .advance t => ∃ task, s.tasks[t]? = some task ∧ Phase.Moves task.phase
  | .write t i bytes =>
    ∃ task, s.tasks[t]? = some task ∧ task.phase = .running ∧
      i + bytes.length ≤ task.piece.slice.length
  | .finish t _ => ∃ task, s.tasks[t]? = some task ∧ task.phase = .running
  | .closing i =>
    ∃ c, s.closers[i]? = some c ∧ c.closing ≠ .returned ∧ (c.closing = .draining → s.inflight = 0)
  | .take => s.next?.isSome

/-- The state after some steps. -/
def run (actions : List Action) : Session :=
  actions.foldl act s

/-- The states that steps lead to from `s`. -/
inductive Reaches : Session → Session → Prop where
  | refl (s : Session) : Reaches s s
  | step {s t : Session} {a : Action} : Reaches s t → t.Enabled a → Reaches s (t.act a)

/-- The states of a session that was made with `config`. -/
def Reachable (config : Config) (s : Session) : Prop :=
  ∃ s₀, start config = .ok s₀ ∧ Reaches s₀ s

end Session

end RangeFetch
