import RangeFetch.Session.Step

/-!
# Calls of a session

What a caller does in one call, as a run of steps that nobody else takes a step in between. Where
the interleaving matters, the steps of `Session.Step` are to be used; `submitBetween` is open for
what others do between the registration of a request and the launch of its first chunk.

`read`, `stop` and `waitFor` are `submit_read`, `stop` and `wait_for_completions` of the engine's
`Session`, and `beginShutdown` is `shutdown` up to its wait (section 4.4).

Headlines:
* **`submitBetween`** and **`read`** submit a request and launch its chunks.
* **`stop`** and **`beginShutdown`** stop the session, and `halt_eq` says what that changes; a
  shutdown returns when the closer that it began has returned (`hasReturned`).
* **`waitFor`** fills slots with completions, and is `none` where the caller has to wait:
  `waitFor_eq_none_iff`.
-/

namespace RangeFetch.Session

variable (s : Session)

/-! ## Requests -/

/-- The steps that a submitter takes at most to launch the chunks of request `r`. -/
def launchSteps (r : Nat) : Nat :=
  3 * (s.requests[r]?.elim 0 (·.pieces.size))

/-- Launches the chunks of request `r` up to the last, or until the submitter gives up. -/
def launchAll (r : Nat) : Session :=
  Nat.repeat (launch · r) (s.launchSteps r) s

/-- What the submitter of request `r` answered, if it is through. -/
def answer? (r : Nat) : Option Code :=
  s.requests[r]?.bind fun q =>
    match q.launch with
    | .answered code => some code
    | _ => none

/-- Submits a request and launches its chunks, where `others` is what happens to the session between
the two. A submission that breaks on a fault has no code. -/
def submitBetween (others : Session → Session) (x : Submission) : Session × Option Code :=
  match s.submit x with
  | (s, .refused code) => (s, some code)
  | (s, .broken _) => (s, none)
  | (s, .accepted r) =>
    let s := (others s).launchAll r
    (s, s.answer? r)

/-- Submits a request and launches its chunks. -/
def read (x : Submission) : Session × Option Code :=
  s.submitBetween id x

/-! ## Stopping -/

/-- A caller raises the stop flag and stops the queue; if it `waits`, it goes on to wait for the
tasks. -/
def halt (waits : Bool) : Session :=
  let i := s.closers.size
  ((s.close waits).closing i).closing i

/-- Stops the session. -/
def stop : Session :=
  s.halt false

/-- Stops the session and begins to wait for its tasks. -/
def beginShutdown : Session :=
  s.halt true

theorem halt_eq (waits : Bool) :
    s.halt waits =
      { s with
        stopped := true
        queue := s.queue.stop
        closers := s.closers.push ⟨waits, if waits then .draining else .returned⟩ } := by
  have set_last (c : Closer) (cs : Array Closer) (f : Closer → Closer) :
      (cs.push c).modify cs.size f = cs.push (f c) := by
    refine Array.ext (by simp) fun i h _ => ?_
    rw [Array.getElem_modify (by simpa using h)]
    grind
  simp [halt, close, closing, set_last]

/-- Closer `i` has returned to its caller. -/
def hasReturned (i : Nat) : Bool :=
  s.closers[i]?.any (·.closing == .returned)

/-- Lets every closer go on that can. -/
def letReturn : Session :=
  (List.range s.closers.size).foldl closing s

/-! ## Completions -/

/-- Whether a caller waits for the first completion. -/
inductive WaitMode where
  | blocking
  | nonBlocking
  deriving DecidableEq, Repr

/-- What a caller that waited for completions has. -/
structure Retrieved where
  code : Code
  /-- The slots that were filled, from the first on. -/
  count : Nat
  slots : List Completion
  deriving DecidableEq, Repr

/-- Fills slots with completions, or gives nothing when the caller has to wait. The first completion
is waited for when the caller blocks; the others are taken as long as there are any. -/
def waitFor (mode : WaitMode) (slots : List Completion) : Option (Retrieved × Session) :=
  if slots.isEmpty then some (⟨.success, 0, slots⟩, s)
  else
    match s.next?, mode with
    | none, .blocking => none
    | none, .nonBlocking => some (⟨.success, 0, slots⟩, s)
    | some (e, s'), _ =>
      if e.isFinished then some (⟨.finished, 0, slots⟩, s')
      else
        let (more, queue) := s'.queue.takeMany (slots.length - 1)
        let taken := e :: more
        some (⟨.success, taken.length, taken ++ slots.drop taken.length⟩, { s' with queue })

/-- Only a caller that blocks and has room waits, and only for the first completion. -/
theorem waitFor_eq_none_iff (mode : WaitMode) (slots : List Completion) :
    s.waitFor mode slots = none ↔ slots ≠ [] ∧ mode = .blocking ∧ s.next? = none := by
  unfold waitFor
  split
  · rename_i h
    simp [List.isEmpty_iff.mp h]
  · rename_i h
    have hs : slots ≠ [] := fun e => h (by simp [e])
    cases hn : s.next? with
    | none => cases mode <;> simp [hs]
    | some p =>
      simp only [reduceCtorEq, and_false, iff_false]
      split <;> simp

end RangeFetch.Session
