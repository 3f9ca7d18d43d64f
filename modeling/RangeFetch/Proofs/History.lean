import RangeFetch.Proofs.Tiling
import RangeFetch.Session.Step

/-!
# Histories of a session

The state of a session does not say in which order its reports were made, which task pushed a
completion, or what a transfer wrote. A `History` is a session with a record of these, which grows
by what each step does and which no step reads.

`Step` lists what one enabled step can do to a history, with all that it changes written out, so
that what holds along every run is shown by cases on it.

Headlines:
* **`History.act`** takes a step and records it; `Reachable` collects the histories of the sessions
  made with a configuration, and `Reaches.lift` gives every run of a session a history.
* **`Reachable.induct`**: what holds of a new session and is kept by every `Step` holds of every
  reachable history.
-/

namespace RangeFetch

/-- A chunk that was counted: its task and request, the bytes that were asked for, how the transfer
ended, and the code that has to be pushed for it. -/
structure Report where
  task : Nat
  request : Nat
  length : Nat
  outcome : Outcome
  code : Option Code
  deriving DecidableEq, Repr

/-- The transfer of the chunk transferred all its bytes, and no more. -/
def Report.Exact (e : Report) : Prop :=
  e.outcome.Exact e.length

instance (e : Report) : Decidable e.Exact :=
  inferInstanceAs (Decidable (Outcome.Exact _ _))

/-- A completion that was pushed for a request, and the task that pushed it. -/
structure Push where
  task : Nat
  request : Nat
  event : Completion
  deriving DecidableEq, Repr

/-- A run of bytes that a transfer wrote from position `start` of its slice on. -/
structure Write where
  task : Nat
  start : Nat
  bytes : List UInt8
  deriving DecidableEq, Repr

/-- A session and what happened in it, each record in the order in which it arose. -/
structure History where
  session : Session
  /-- The accepted submissions. -/
  accepted : List Submission := []
  /-- The chunks that were counted. -/
  reports : List Report := []
  pushes : List Push := []
  /-- The completions that were handed out, sentinels left out. -/
  taken : List Completion := []
  writes : List Write := []
  deriving DecidableEq, Repr

namespace Session

variable (s : Session)

/-! ## What a step records -/

/-- The submission that a step accepts. -/
@[simp] def accepted? : Action → Option Submission
  | .submit x =>
    match (s.submit x).2 with
    | .accepted _ => some x
    | _ => none
  | _ => none

/-- The report that a step counts. -/
@[simp] def counted? : Action → Option Report
  | .advance t =>
    match s.tasks[t]? with
    | none => none
    | some task =>
      match task.phase, s.requests[task.request]? with
      | .ended o, some q =>
        let length := task.piece.range.length.toNat
        some ⟨t, task.request, length, o, verdict q length o⟩
      | _, _ => none
  | _ => none

/-- The completion that a step pushes. -/
@[simp] def pushed? : Action → Option Push
  | .advance t =>
    match s.tasks[t]? with
    | none => none
    | some task =>
      match task.phase, s.requests[task.request]? with
      | .counted _ (some c), some q => some ⟨t, task.request, ⟨q.id, c⟩⟩
      | _, _ => none
  | _ => none

/-- The completion that a step hands out. -/
@[simp] def handed? : Action → Option Completion
  | .take =>
    match s.next? with
    | some (e, _) => if e.isFinished then none else some e
    | none => none
  | _ => none

/-- The bytes that a step writes. -/
@[simp] def written? : Action → Option Write
  | .write t i bytes => if s.phaseOf? t = some .running then some ⟨t, i, bytes⟩ else none
  | _ => none

end Session

namespace History

open Session (Action)

/-- The history after a step. -/
def act (h : History) (a : Action) : History where
  session := h.session.act a
  accepted := h.accepted ++ (h.session.accepted? a).toList
  reports := h.reports ++ (h.session.counted? a).toList
  pushes := h.pushes ++ (h.session.pushed? a).toList
  taken := h.taken ++ (h.session.handed? a).toList
  writes := h.writes ++ (h.session.written? a).toList

/-- The histories that steps lead to from `h`. -/
inductive Reaches : History → History → Prop where
  | refl (h : History) : Reaches h h
  | step {h k : History} {a : Action} : Reaches h k → k.session.Enabled a → Reaches h (k.act a)

/-- The histories of a session that was made with `config`. -/
def Reachable (config : Config) (h : History) : Prop :=
  ∃ s₀, Session.start config = .ok s₀ ∧ Reaches { session := s₀ } h

theorem Reaches.trans {h k m : History} (hk : h.Reaches k) (hm : k.Reaches m) : h.Reaches m := by
  induction hm with
  | refl => exact hk
  | step _ he ih => exact .step ih he

theorem Reaches.session {h k : History} (hk : h.Reaches k) : h.session.Reaches k.session := by
  induction hk with
  | refl => exact .refl _
  | step _ he ih => exact .step ih he

/-- Every run from the session of a history continues the history. -/
theorem Reaches.lift {h : History} {s : Session} (hs : h.session.Reaches s) :
    ∃ k, h.Reaches k ∧ k.session = s := by
  induction hs with
  | refl => exact ⟨h, .refl _, rfl⟩
  | step _ he ih =>
    obtain ⟨k, hk, rfl⟩ := ih
    exact ⟨_, .step hk he, rfl⟩

theorem Reachable.reaches {config : Config} {h k : History} (hr : h.Reachable config)
    (hk : h.Reaches k) : k.Reachable config := by
  obtain ⟨s₀, hs, hh⟩ := hr
  exact ⟨s₀, hs, hh.trans hk⟩

/-- The reachable sessions are those of the reachable histories. -/
theorem reachable_session_iff {config : Config} {s : Session} :
    Session.Reachable config s ↔ ∃ h, Reachable config h ∧ h.session = s := by
  constructor
  · rintro ⟨s₀, hs, hr⟩
    obtain ⟨k, hk, rfl⟩ := Reaches.lift (h := { session := s₀ }) hr
    exact ⟨k, ⟨s₀, hs, hk⟩, rfl⟩
  · rintro ⟨h, ⟨s₀, hs, hh⟩, rfl⟩
    exact ⟨s₀, hs, hh.session⟩

/-! ## Runs given by their steps -/

instance : DecidablePred Session.Phase.Moves
  | .launched | .granted | .ended _ | .counted .. | .reported .. => isTrue trivial
  | .waiting | .running | .finished .. => isFalse id

instance (l : Launch) : Decidable (∀ code, l ≠ .answered code) :=
  match l with
  | .answered code => isFalse fun h => h code rfl
  | .ready | .entered | .cleared | .barred => isTrue fun _ h => Launch.noConfusion h

instance (s : Session) : DecidablePred s.Enabled
  | .submit _ | .close _ => isTrue trivial
  | .launch r =>
    inferInstanceAs (Decidable (∃ q ∈ s.requests[r]?, ∀ code, q.launch ≠ .answered code))
  | .advance t => inferInstanceAs (Decidable (∃ task ∈ s.tasks[t]?, Session.Phase.Moves task.phase))
  | .write t i bytes =>
    inferInstanceAs (Decidable (∃ task ∈ s.tasks[t]?, task.phase = .running ∧
      i + bytes.length ≤ task.piece.slice.length))
  | .finish t _ => inferInstanceAs (Decidable (∃ task ∈ s.tasks[t]?, task.phase = .running))
  | .closing i =>
    inferInstanceAs (Decidable (∃ c ∈ s.closers[i]?, c.closing ≠ .returned ∧
      (c.closing = .draining → s.inflight = 0)))
  | .take => inferInstanceAs (Decidable (s.next?.isSome = true))

/-- The history after some steps. -/
def run (h : History) (actions : List Action) : History :=
  actions.foldl act h

/-- Each of the steps may be taken when it comes. -/
def Legal : History → List Action → Prop
  | _, [] => True
  | h, a :: as => h.session.Enabled a ∧ Legal (h.act a) as

instance Legal.decidable : (h : History) → (as : List Action) → Decidable (h.Legal as)
  | _, [] => isTrue trivial
  | h, a :: as =>
    have := Legal.decidable (h.act a) as
    inferInstanceAs (Decidable (_ ∧ _))

theorem Reaches.run {h k : History} {as : List Action} (hk : h.Reaches k) (hl : k.Legal as) :
    h.Reaches (k.run as) := by
  induction as generalizing k with
  | nil => exact hk
  | cons a as ih => exact ih (.step hk hl.1) hl.2

end History

/-! ## What a step can do -/

/-- A request as it is registered. -/
def Request.ofSubmission (x : Submission) (location : Location) (pieces : List Piece) : Request where
  id := x.id
  location := location
  range := x.range
  pieces := pieces.toArray
  buffer := x.buffer
  remaining := pieces.length

namespace History

open Session (Action Phase.Moves)

/-- **What one enabled step can do to a history.** -/
inductive Step (h : History) : History → Prop where
  /-- Nothing: a refused submission, or a sentinel that is handed out. -/
  | idle : Step h h
  | accept {x : Submission} {l : Location} {pieces : List Piece}
      (ha : h.session.accept x = .ok l)
      (hp : partition x.range h.session.config.chunkSize x.buffer.size = .ok pieces) :
      Step h { h with
        session := { h.session.register with
          requests := h.session.requests.push (.ofSubmission x l pieces) }
        accepted := h.accepted ++ [x] }
  | enter {r : Nat} {q : Request} (hq : h.session.requests[r]? = some q)
      (hl : q.launch = .ready) :
      Step h { h with
        session := { h.session with inflight := h.session.inflight + 1 }.modifyRequest r
          ({ · with launch := .entered }) }
  | look {r : Nat} {q : Request} (hq : h.session.requests[r]? = some q)
      (hl : q.launch = .entered) :
      Step h { h with
        session := h.session.modifyRequest r
          ({ · with launch := if h.session.stopped then .barred else .cleared }) }
  | giveUp {r n : Nat} {q : Request} {faults : List Fault}
      (hq : h.session.requests[r]? = some q) (hl : q.launch = .barred)
      (hv : h.session.leave = { h.session with inflight := n, faults }) :
      Step h { h with
        session := { h.session with inflight := n, faults }.modifyRequest r
          ({ · with launch := .answered .finished }) }
  | launch {r : Nat} {q : Request} {piece : Piece} (hq : h.session.requests[r]? = some q)
      (hl : q.launch = .cleared) (hp : q.pieces[q.launched]? = some piece) :
      Step h { h with
        session := { h.session with
          tasks := h.session.tasks.push { request := r, piece } }.modifyRequest r fun q' =>
            { q' with
              launched := q'.launched + 1
              launch := if q.launched + 1 < q.pieces.size then .ready else .answered .success } }
  | grant {t : Nat} {task : Task} (ht : h.session.tasks[t]? = some task)
      (hp : task.phase = .launched) (ha : h.session.permits.available ≠ 0) :
      Step h { h with
        session := { h.session with
          permits := { h.session.permits with
            available := h.session.permits.available - 1 } }.modifyTask t
              ({ · with phase := .granted }) }
  | line {t : Nat} {task : Task} (ht : h.session.tasks[t]? = some task)
      (hp : task.phase = .launched) (ha : h.session.permits.available = 0) :
      Step h { h with
        session := { h.session with
          permits := { h.session.permits with
            line := h.session.permits.line ++ [t] } }.modifyTask t ({ · with phase := .waiting }) }
  | begin {t : Nat} {task : Task} (ht : h.session.tasks[t]? = some task)
      (hp : task.phase = .granted) :
      Step h { h with
        session := { h.session with starts := h.session.starts.push t }.modifyTask t
          ({ · with phase := .running }) }
  | count {t : Nat} {task : Task} {o : Outcome} {q : Request} {length : Nat}
      {code : Option Code} {faults : List Fault}
      (ht : h.session.tasks[t]? = some task) (hp : task.phase = .ended o)
      (hq : h.session.requests[task.request]? = some q)
      (hlen : length = task.piece.range.length.toNat) (hc : code = Session.verdict q length o)
      (hf : faults = if o.Exact length ∧ q.remaining = 0 then
        .countdownAtZero :: h.session.faults else h.session.faults) :
      Step h { h with
        session := ({ h.session with faults }.modifyRequest task.request
          (Session.tally · length o)).modifyTask t ({ · with phase := .counted o code })
        reports := h.reports ++ [⟨t, task.request, length, o, code⟩] }
  | push {t : Nat} {task : Task} {o : Outcome} {c : Code} {q : Request}
      (ht : h.session.tasks[t]? = some task) (hp : task.phase = .counted o (some c))
      (hq : h.session.requests[task.request]? = some q) :
      Step h { h with
        session := { h.session with queue := h.session.queue.push ⟨q.id, c⟩ }.modifyTask t
          ({ · with phase := .reported o (some c) })
        pushes := h.pushes ++ [⟨t, task.request, ⟨q.id, c⟩⟩] }
  | pass {t : Nat} {task : Task} {o : Outcome} (ht : h.session.tasks[t]? = some task)
      (hp : task.phase = .counted o none) :
      Step h { h with session := h.session.modifyTask t ({ · with phase := .reported o none }) }
  | leave {t n : Nat} {task : Task} {o : Outcome} {code : Option Code} {faults : List Fault}
      (ht : h.session.tasks[t]? = some task) (hp : task.phase = .reported o code)
      (hv : h.session.leave = { h.session with inflight := n, faults }) :
      Step h { h with
        session := { h.session with inflight := n, faults }.modifyTask t
          ({ · with phase := .finished o code }) }
  | write {t i : Nat} {bytes : List UInt8} {task : Task}
      (ht : h.session.tasks[t]? = some task) (hp : task.phase = .running)
      (hi : i + bytes.length ≤ task.piece.slice.length) :
      Step h { h with
        session := h.session.modifyRequest task.request fun q =>
          { q with buffer := q.buffer.write (task.piece.slice.start + i) bytes }
        writes := h.writes ++ [⟨t, i, bytes⟩] }
  /-- A transfer ends and nobody waits for its permit. -/
  | finish {t : Nat} {task : Task} {o : Outcome} (ht : h.session.tasks[t]? = some task)
      (hp : task.phase = .running) (hw : h.session.permits.line = []) :
      Step h { h with
        session := { h.session with
          permits := { h.session.permits with
            available := h.session.permits.available + 1 } }.modifyTask t
              ({ · with phase := .ended o }) }
  /-- A transfer ends and its permit goes to the task that waits longest. -/
  | handOver {t w : Nat} {ws : List Nat} {task next : Task} {o : Outcome}
      (ht : h.session.tasks[t]? = some task) (hp : task.phase = .running)
      (hw : h.session.permits.line = w :: ws)
      (hn : h.session.tasks[w]? = some next) (hnp : next.phase = .waiting) :
      Step h { h with
        session := ({ h.session with
          permits := { h.session.permits with line := ws } }.modifyTask t
            ({ · with phase := .ended o })).modifyTask w ({ · with phase := .granted }) }
  | close {waits : Bool} :
      Step h { h with
        session := { h.session with closers := h.session.closers.push { waits } } }
  | raise {i : Nat} {c : Closer} (hc : h.session.closers[i]? = some c)
      (hr : c.closing = .raising) :
      Step h { h with
        session := { h.session with
          stopped := true
          closers := h.session.closers.modify i ({ · with closing := .halting }) } }
  | halt {i : Nat} {c : Closer} (hc : h.session.closers[i]? = some c)
      (hh : c.closing = .halting) :
      Step h { h with
        session := { h.session with
          queue := h.session.queue.stop
          closers := h.session.closers.modify i
            ({ · with closing := if c.waits then .draining else .returned }) } }
  | drain {i : Nat} {c : Closer} (hc : h.session.closers[i]? = some c)
      (hd : c.closing = .draining) (h0 : h.session.inflight = 0) :
      Step h { h with
        session := { h.session with
          closers := h.session.closers.modify i ({ · with closing := .returned }) } }
  | take {e : Completion} {es : List Completion} (hs : h.session.submitted = true)
      (hq : h.session.queue.stopped = false) (he : h.session.queue.events = e :: es) :
      Step h { h with
        session := { h.session with
          queue := { h.session.queue with
            events := es
            outstanding := h.session.queue.outstanding - 1 } }
        taken := h.taken ++ if e.isFinished then [] else [e] }

/-! ## Every step is one of these -/

/-- Every task belongs to a request, and who stands in the line for a permit waits there. -/
structure Coherent (h : History) : Prop where
  linked : ∀ (t : Nat) (task : Task), h.session.tasks[t]? = some task →
    task.request < h.session.requests.size
  waiting : ∀ w ∈ h.session.permits.line, h.session.phaseOf? w = some .waiting
  nodup : h.session.permits.line.Nodup

/-- With chunks of at least one byte, an admitted submission can be cut up. -/
theorem partition_of_accept {s : Session} {x : Submission} {l : Location}
    (ha : s.accept x = .ok l) :
    x.range.Fits ∧ x.buffer.size = x.range.length.toNat ∧ Location.ofUri x.path = .ok l ∧
      ∃ pieces, partition x.range s.config.chunkSize x.buffer.size = .ok pieces ∧
        Piece.Laid 0 x.range.offset.toNat 0 x.range.length.toNat pieces ∧
        pieces.map Piece.range = x.range.chunks s.config.chunkSize := by
  unfold Session.accept at ha
  split at ha
  · exact absurd ha (by simp)
  · split at ha
    · exact absurd ha (by simp)
    · rename_i hu
      split at ha
      · rename_i hb
        obtain rfl := Except.ok.inj ha
        rw [hb.1]
        exact ⟨hb.2, rfl, hu, partition_laid hb.2 s.config.chunkSize_ne_zero⟩
      · exact absurd ha (by simp)

variable {h : History}

/-- Leaving the in-flight count changes the count, or records a fault. -/
theorem leave_eq (s : Session) : ∃ n faults, s.leave = { s with inflight := n, faults } := by
  unfold Session.leave
  split
  · exact ⟨s.inflight, .inflightAtZero :: s.faults, rfl⟩
  · exact ⟨s.inflight - 1, s.faults, rfl⟩

/-- An admitted submission is registered. -/
theorem submit_of_accept {s : Session} {x : Submission} {l : Location} (ha : s.accept x = .ok l) :
    ∃ pieces, partition x.range s.config.chunkSize x.buffer.size = .ok pieces ∧
      pieces.map Piece.range = x.range.chunks s.config.chunkSize ∧
      s.submit x = ({ s.register with requests := s.requests.push (.ofSubmission x l pieces) },
        .accepted s.requests.size) := by
  obtain ⟨-, -, -, pieces, hp, -, hchunks⟩ := partition_of_accept ha
  exact ⟨pieces, hp, hchunks, by simp [Session.submit, ha, hp, Request.ofSubmission]⟩

/-- A submission that is registered was admitted. -/
theorem accept_of_submit {s : Session} {x : Submission} {r : Nat}
    (ha : (s.submit x).2 = .accepted r) : ∃ l, s.accept x = .ok l := by
  cases hx : s.accept x with
  | error code => simp [Session.submit, hx] at ha
  | ok l => exact ⟨l, rfl⟩

theorem step_submit (x : Submission) : Step h (h.act (.submit x)) := by
  cases ha : h.session.accept x with
  | error code => simpa [act, Session.act, Session.submit, ha] using Step.idle
  | ok l =>
    obtain ⟨pieces, hp, -, hsubmit⟩ := submit_of_accept ha
    simpa [act, Session.act, hsubmit] using Step.accept ha hp

theorem step_launch (r : Nat) : Step h (h.act (.launch r)) := by
  cases hq : h.session.requests[r]? with
  | none => simpa [act, Session.act, Session.launch, hq] using Step.idle
  | some q =>
    cases hl : q.launch with
    | ready => simpa [act, Session.act, Session.launch, hq, hl] using Step.enter hq hl
    | entered => simpa [act, Session.act, Session.launch, hq, hl] using Step.look hq hl
    | cleared =>
      cases hp : q.pieces[q.launched]? with
      | none => simpa [act, Session.act, Session.launch, hq, hl, hp] using Step.idle
      | some piece =>
        simpa [act, Session.act, Session.launch, hq, hl, hp] using Step.launch hq hl hp
    | barred =>
      obtain ⟨n, faults, hv⟩ := leave_eq h.session
      simpa [act, Session.act, Session.launch, hq, hl, hv] using Step.giveUp hq hl hv
    | answered code => simpa [act, Session.act, Session.launch, hq, hl] using Step.idle

theorem step_advance (hc : h.Coherent) (t : Nat) : Step h (h.act (.advance t)) := by
  cases ht : h.session.tasks[t]? with
  | none => simpa [act, Session.act, Session.advance, ht] using Step.idle
  | some task =>
    have hr : task.request < h.session.requests.size := hc.linked t task ht
    have hq : h.session.requests[task.request]? = some h.session.requests[task.request] :=
      Array.getElem?_eq_getElem hr
    cases hp : task.phase with
    | launched =>
      by_cases ha : h.session.permits.available = 0
      · simpa [act, Session.act, Session.advance, Session.acquire, Permits.acquire, ht, hp, ha]
          using Step.line ht hp ha
      · simpa [act, Session.act, Session.advance, Session.acquire, Permits.acquire, ht, hp, ha]
          using Step.grant ht hp ha
    | granted =>
      simpa [act, Session.act, Session.advance, Session.begin, ht, hp] using Step.begin ht hp
    | ended o =>
      simpa [act, Session.act, Session.advance, Session.count, ht, hp, hq]
        using Step.count ht hp hq rfl rfl rfl
    | counted o code =>
      cases code with
      | none => simpa [act, Session.act, Session.advance, Session.report, ht, hp]
          using Step.pass ht hp
      | some c => simpa [act, Session.act, Session.advance, Session.report, ht, hp, hq]
          using Step.push ht hp hq
    | reported o code =>
      obtain ⟨n, faults, hv⟩ := leave_eq h.session
      simpa [act, Session.act, Session.advance, ht, hp, hv] using Step.leave ht hp hv
    | waiting | running | finished =>
      simpa [act, Session.act, Session.advance, ht, hp] using Step.idle

theorem step_write {t i : Nat} {bytes : List UInt8} (he : h.session.Enabled (.write t i bytes)) :
    Step h (h.act (.write t i bytes)) := by
  obtain ⟨task, ht, hp, hi⟩ := he
  have htake : bytes.take (task.piece.slice.length - i) = bytes :=
    List.take_of_length_le (by omega)
  simpa [act, Session.act, Session.write, Session.phaseOf?, ht, hp, htake]
    using Step.write ht hp hi

theorem step_finish (hc : h.Coherent) {t : Nat} {o : Outcome}
    (he : h.session.Enabled (.finish t o)) : Step h (h.act (.finish t o)) := by
  obtain ⟨task, ht, hp⟩ := he
  cases hw : h.session.permits.line with
  | nil => simpa [act, Session.act, Session.finish, Session.modifyTask, Permits.release, ht, hp, hw]
      using Step.finish (o := o) ht hp hw
  | cons w ws =>
    obtain ⟨next, hn, hnp⟩ := Option.map_eq_some_iff.mp (hc.waiting w (by simp [hw]))
    simpa [act, Session.act, Session.finish, Session.modifyTask, Permits.release, ht, hp, hw]
      using Step.handOver (o := o) ht hp hw hn hnp

theorem step_closing {i : Nat} (he : h.session.Enabled (.closing i)) :
    Step h (h.act (.closing i)) := by
  obtain ⟨c, hc, hn, h0⟩ := he
  cases hp : c.closing with
  | raising => simpa [act, Session.act, Session.closing, hc, hp] using Step.raise hc hp
  | halting => simpa [act, Session.act, Session.closing, hc, hp] using Step.halt hc hp
  | draining =>
    simpa [act, Session.act, Session.closing, hc, hp, h0 hp] using Step.drain hc hp (h0 hp)
  | returned => exact absurd hp hn

/-- A hand-out takes the first completion, or it changes nothing. -/
theorem next?_cases (s : Session) :
    (∃ e es, s.submitted = true ∧ s.queue.stopped = false ∧ s.queue.events = e :: es ∧
      s.next? = some (e, { s with
        queue := { s.queue with events := es, outstanding := s.queue.outstanding - 1 } })) ∨
    s.next? = some (.finished, s) ∨ s.next? = none := by
  unfold Session.next? CompletionQueue.take?
  by_cases hs : s.submitted = true
  · rw [if_pos hs]
    by_cases hq : s.queue.stopped = true
    · rw [if_pos hq]
      exact Or.inr (Or.inl rfl)
    · rw [if_neg hq]
      cases he : s.queue.events with
      | nil =>
        by_cases h0 : s.queue.outstanding = 0
        · simp only [if_pos h0]
          exact Or.inr (Or.inl rfl)
        · simp only [if_neg h0]
          exact Or.inr (Or.inr rfl)
      | cons e es => exact Or.inl ⟨e, es, hs, by simpa using hq, rfl, rfl⟩
  · rw [if_neg hs]
    exact Or.inr (Or.inl rfl)

theorem step_take : Step h (h.act .take) := by
  obtain ⟨e, es, hs, hq, he, hn⟩ | hn | hn := next?_cases h.session
  · by_cases hf : e.isFinished
    · simpa [act, Session.act, hn, hf] using Step.take hs hq he
    · simpa [act, Session.act, hn, hf] using Step.take hs hq he
  · simpa [act, Session.act, hn] using Step.idle
  · simpa [act, Session.act, hn] using Step.idle

/-- **Every enabled step is a `Step`.** -/
theorem step_act (hc : h.Coherent) {a : Action} (he : h.session.Enabled a) : Step h (h.act a) := by
  cases a with
  | submit x => exact step_submit x
  | launch r => exact step_launch r
  | advance t => exact step_advance hc t
  | write t i bytes => exact step_write he
  | finish t o => exact step_finish hc he
  | close waits => simpa [act, Session.act, Session.close] using Step.close
  | closing i => exact step_closing he
  | take => exact step_take

/-! ## Reachable histories -/

theorem tasks_modifyTask (s : Session) (t : Nat) (f : Task → Task) :
    (s.modifyTask t f).tasks = s.tasks.modify t f := rfl

/-- A task whose transfer runs is not one that waits. -/
theorem ne_of_running_waiting {s : Session} {t w : Nat} {task next : Task}
    (ht : s.tasks[t]? = some task) (hp : task.phase = .running) (hn : s.tasks[w]? = some next)
    (hnp : next.phase = .waiting) : t ≠ w := by
  rintro rfl
  obtain rfl := Option.some.inj (ht.symm.trans hn)
  exact absurd (hp.symm.trans hnp) (by simp)

theorem phaseOf?_of_getElem? {s : Session} {t : Nat} {task : Task} (ht : s.tasks[t]? = some task) :
    s.phaseOf? t = some task.phase := by
  rw [Session.phaseOf?, ht, Option.map_some]

theorem phaseOf?_modify {s s' : Session} {t : Nat} {p : Phase}
    (hk : s'.tasks = s.tasks.modify t ({ · with phase := p })) (u : Nat) :
    s'.phaseOf? u = if u = t then (s.phaseOf? t).map fun _ => p else s.phaseOf? u := by
  unfold Session.phaseOf?
  rw [hk, Array.getElem?_modify]
  by_cases hu : u = t
  · subst hu
    rw [if_pos rfl, if_pos rfl]
    cases s.tasks[u]? <;> rfl
  · rw [if_neg (Ne.symm hu), if_neg hu]

theorem linked_modify {tasks : Array Task} {n u : Nat} {p : Phase}
    (h : ∀ (t : Nat) (task : Task), tasks[t]? = some task → task.request < n) :
    ∀ (t : Nat) (task : Task),
      (tasks.modify u ({ · with phase := p }))[t]? = some task → task.request < n := by
  intro t task ht
  rw [Array.getElem?_modify] at ht
  split at ht
  · obtain ⟨old, ho, rfl⟩ := Option.map_eq_some_iff.mp ht
    exact h t old ho
  · exact h t task ht

/-- A task that does not wait moves to another phase, and the line stays. -/
theorem Coherent.move {k : History} (hc : h.Coherent) {t : Nat} {task : Task} {p : Phase}
    (ht : h.session.tasks[t]? = some task)
    (hk : k.session.tasks = h.session.tasks.modify t ({ · with phase := p }))
    (hp : task.phase ≠ .waiting) (hr : k.session.requests.size = h.session.requests.size)
    (hl : k.session.permits.line = h.session.permits.line) : k.Coherent where
  linked := by
    rw [hk, hr]
    exact linked_modify hc.linked
  waiting := by
    rw [hl]
    intro w hw
    have hold := hc.waiting w hw
    rw [phaseOf?_modify hk, if_neg]
    · exact hold
    · rintro rfl
      rw [phaseOf?_of_getElem? ht] at hold
      exact hp (Option.some.inj hold)
  nodup := hl ▸ hc.nodup

theorem Coherent.step {k : History} (hc : h.Coherent) (hs : Step h k) : k.Coherent := by
  cases hs with
  | idle => exact hc
  | close | raise | halt | drain | take => exact ⟨hc.linked, hc.waiting, hc.nodup⟩
  | accept ha hp =>
    refine ⟨?_, hc.waiting, hc.nodup⟩
    intro t task ht
    exact Nat.lt_of_lt_of_le (hc.linked t task ht) (by simp)
  | enter | look | giveUp | write =>
    refine ⟨?_, hc.waiting, hc.nodup⟩
    intro t task ht
    simpa only [Session.modifyRequest, Array.size_modify] using hc.linked t task ht
  | @launch r q piece hq hlaunch hp =>
    refine ⟨?_, ?_, hc.nodup⟩
    · intro t task ht
      simp only [Session.modifyRequest, Array.size_modify, Array.getElem?_push] at ht ⊢
      split at ht
      · obtain rfl := Option.some.inj ht
        exact (Array.getElem?_eq_some_iff.mp hq).1
      · exact hc.linked t task ht
    · intro w hw
      have hold := hc.waiting w hw
      obtain ⟨task, ht, -⟩ := Option.map_eq_some_iff.mp hold
      have hlt := (Array.getElem?_eq_some_iff.mp ht).1
      simpa [Session.modifyRequest, Session.phaseOf?, Array.getElem?_push, Nat.ne_of_lt hlt]
        using hold
  | grant ht hp | begin ht hp | push ht hp | pass ht hp | leave ht hp | finish ht hp =>
    exact hc.move ht (tasks_modifyTask ..) (by rw [hp]; simp) rfl rfl
  | count ht hp =>
    exact hc.move ht (tasks_modifyTask ..) (by rw [hp]; simp)
      (by simp [Session.modifyRequest, Session.modifyTask]) rfl
  | @line t task ht hp ha =>
    have hnew : t ∉ h.session.permits.line := fun hm => by
      have hw := hc.waiting t hm
      rw [phaseOf?_of_getElem? ht, hp] at hw
      exact absurd hw (by simp)
    refine ⟨linked_modify hc.linked, ?_, ?_⟩
    · intro w hw
      rw [phaseOf?_modify (tasks_modifyTask ..)]
      rcases List.mem_append.mp hw with hw | hw
      · have hne : w ≠ t := fun e => hnew (e ▸ hw)
        rw [if_neg hne]
        exact hc.waiting w hw
      · rw [if_pos (List.mem_singleton.mp hw)]
        simp [Session.phaseOf?, ht]
    · refine List.nodup_append.mpr ⟨hc.nodup, by simp, ?_⟩
      rintro a ha b hb rfl
      exact hnew (List.mem_singleton.mp hb ▸ ha)
  | @handOver t w ws task next o ht hp hw hn hnp =>
    have hnodup := hc.nodup
    rw [hw, List.nodup_cons] at hnodup
    refine ⟨linked_modify (linked_modify hc.linked), ?_, hnodup.2⟩
    intro v hv
    have hold := hc.waiting v (hw ▸ List.mem_cons_of_mem w hv)
    have hvw : v ≠ w := fun e => hnodup.1 (e ▸ hv)
    have hvt : v ≠ t := by
      rintro rfl
      rw [phaseOf?_of_getElem? ht, hp] at hold
      exact absurd hold (by simp)
    rw [phaseOf?_modify (tasks_modifyTask ..), if_neg hvw, phaseOf?_modify (tasks_modifyTask ..),
      if_neg hvt]
    exact hold

/-- The history of a new session. -/
def new (config : Config) : History where
  session := { config, permits := { available := config.maxConcurrency.toNat } }

theorem start_eq {config : Config} {s : Session} (hs : Session.start config = .ok s) :
    s = (new config).session := by
  unfold Session.start Permits.ofCount at hs
  split at hs
  · exact (Except.ok.inj hs).symm
  · exact absurd hs (by simp [Except.map])

theorem start_new {config : Config} (hc : config.maxConcurrency.toNat ≤ maxPermits) :
    Session.start config = .ok (new config).session := by
  unfold Session.start Permits.ofCount
  rw [if_pos hc]
  rfl

/-- A run of a new session leads to a reachable history. -/
theorem Reachable.ofRun (config : Config) (as : List Action)
    (hc : config.maxConcurrency.toNat ≤ maxPermits) (hl : (new config).Legal as) :
    ((new config).run as).Reachable config :=
  ⟨_, start_new hc, .run (.refl _) hl⟩

theorem Reachable.coherent {config : Config} (hr : h.Reachable config) : h.Coherent := by
  obtain ⟨s₀, hs, hh⟩ := hr
  induction hh with
  | refl =>
    rw [start_eq hs]
    exact ⟨fun t task ht => absurd ht (by simp [new]), fun w hw => absurd hw (by simp [new]),
      by simp [new]⟩
  | step _ he ih => exact ih.step (step_act ih he)

/-- What every continuation of a reachable history keeps. -/
theorem Reaches.induct {config : Config} {k : History} {P : History → Prop}
    (hr : h.Reachable config) (hk : h.Reaches k) (start : P h)
    (step : ∀ {a b : History}, a.Reachable config → b.Reachable config → P a → Step a b → P b) :
    P k := by
  induction hk with
  | refl => exact start
  | step hm he ih =>
    have hm' : Reachable config _ := hr.reaches hm
    exact step hm' (hr.reaches (.step hm he)) ih (step_act hm'.coherent he)

/-- **What every run keeps**: a property of new sessions that every step preserves. -/
theorem Reachable.induct {config : Config} {P : History → Prop} (start : P (new config))
    (step : ∀ {a b : History}, a.Reachable config → b.Reachable config → P a → Step a b → P b)
    (hr : h.Reachable config) : P h := by
  obtain ⟨s₀, hs, hh⟩ := hr
  have hnew : Reachable config { session := s₀ } := ⟨s₀, hs, .refl _⟩
  refine hh.induct hnew ?_ step
  rw [start_eq hs]
  exact start

end History

/-! ## A small session -/

/-- Chunks of four bytes, two of which may be transferred at once. -/
def Config.fours : Config where
  credentials := {}
  chunkSize := 4
  maxConcurrency := 2
  chunkSize_ne_zero := by decide
  maxConcurrency_ne_zero := by decide

/-- Eight bytes, which make two chunks of four. -/
def Submission.eight : Submission :=
  ⟨1, "az://c/b", ⟨0, 8⟩, Buffer.filled 8 0xee⟩

/-- Both chunks of a submission of eight bytes are launched, and their transfers run. -/
def Session.bothRun : List Session.Action :=
  [.submit .eight, .launch 0, .launch 0, .launch 0, .launch 0, .launch 0, .launch 0,
    .advance 0, .advance 0, .advance 1, .advance 1]

end RangeFetch
