import RangeFetch.Proofs.Admission
import RangeFetch.Proofs.Completing
import RangeFetch.Proofs.Cutting
import RangeFetch.Proofs.Dealing

/-!
# A stop in the middle of a dispatch

A submitter that reads the stop flag before it launches the next chunk gives up, and the request
stays as it is then: the chunks in front of the flag have their tasks, the others never get one. The
tasks that there are go on. As the countdown of the request was set to all chunks it cannot reach
zero, so the request never succeeds, and what it has in the in-flight count it gives back.

A stopped session accepts nothing any more. What is left of its submitters and tasks is counted down
by each of their steps, so that after as many of them a shutdown finds nothing in flight.

Headlines:
* **`Reachable.inflight_split`**: the in-flight count is what the other requests have in it and what
  the request has.
* **`Reachable.atEnd_of_count`**: a stopped session comes to its end.
* **`Reachable.interrupts`**: a stop may come in front of every chunk of a request, and what holds of
  the request from then on.
-/

namespace RangeFetch

open Session (Action)

/-! ## The part of one request in the in-flight count -/

namespace Session

variable {s : Session}

/-- What the request has in the in-flight count: its unfinished tasks, and its submitter. -/
def inflightOf (s : Session) (r : Nat) : Nat :=
  (s.tasks.toList.filter (·.request = r)).countP (¬ ·.phase.Finished) +
    if s.requests[r]?.any (·.launch.Inside) then 1 else 0

/-- What would be in flight without the request: what all others have in the count. -/
def inflightBeside (s : Session) (r : Nat) : Nat :=
  (s.tasks.toList.filter (·.request ≠ r)).countP (¬ ·.phase.Finished) +
    (s.requests.toList.eraseIdx r).countP (·.launch.Inside)

/-- Counting an element of a list and the others. -/
theorem countP_eraseIdx_add {α : Type} (p : α → Bool) (l : List α) (i : Nat) :
    l.countP p = (l.eraseIdx i).countP p + if l[i]?.any p then 1 else 0 := by
  by_cases hi : i < l.length
  · rw [← (List.getElem_cons_eraseIdx_perm hi).countP_eq, List.countP_cons,
      List.getElem?_eq_getElem hi]
    rfl
  · rw [List.eraseIdx_of_length_le (Nat.le_of_not_lt hi),
      List.getElem?_eq_none (Nat.le_of_not_lt hi)]
    rfl

theorem unfinished_add_entering (s : Session) (r : Nat) :
    s.unfinished + s.entering = s.inflightBeside r + s.inflightOf r := by
  have htasks := List.countP_eq_countP_filter_add s.tasks.toList
    (fun task => decide ¬ task.phase.Finished) (fun task => decide (task.request = r))
  have hrequests := countP_eraseIdx_add (fun q : Request => decide q.launch.Inside)
    s.requests.toList r
  rw [Array.countP_toList] at htasks hrequests
  rw [Array.getElem?_toList] at hrequests
  simp only [← decide_not, ← ne_eq] at htasks
  unfold unfinished entering inflightBeside inflightOf
  omega

/-- A request that is through has nothing in flight. -/
theorem inflightOf_eq_zero {r : Nat}
    (htasks : ∀ (t : Nat) (task : Task), s.tasks[t]? = some task → task.request = r →
      task.phase.Finished)
    (hlaunch : ∀ q, s.requests[r]? = some q → ¬ q.launch.Inside) : s.inflightOf r = 0 := by
  have hnone : (s.tasks.toList.filter (·.request = r)).countP (¬ ·.phase.Finished) = 0 := by
    refine List.countP_eq_zero.mpr fun task hm => ?_
    obtain ⟨hm, hreq⟩ := List.mem_filter.mp hm
    obtain ⟨t, ht⟩ := Array.mem_iff_getElem?.mp (Array.mem_toList_iff.mp hm)
    simpa using htasks t task ht (by simpa using hreq)
  have hout : ¬ s.requests[r]?.any (·.launch.Inside) := by
    cases hq : s.requests[r]? with
    | none => simp
    | some q => simpa using hlaunch q hq
  rw [inflightOf, hnone, if_neg hout]

end Session

namespace History

variable {config : Config} {h k m : History} {r n : Nat} {q : Request} {x : Submission}

/-- **The in-flight count is that of the other requests and of the request.** -/
theorem Reachable.inflight_split (hr : h.Reachable config) (r : Nat) :
    h.session.inflight = h.session.inflightBeside r + h.session.inflightOf r :=
  hr.inflight_eq.trans (h.session.unfinished_add_entering r)

/-! ## A stopped session comes to its end -/

end History

namespace Session

/-- The steps of submitters and tasks, the ends of transfers among them. -/
def Action.Proceeds : Action → Prop
  | .launch _ | .advance _ | .finish .. => True
  | .submit _ | .write .. | .close _ | .closing _ | .take => False

instance : DecidablePred Action.Proceeds
  | .launch _ | .advance _ | .finish .. => isTrue trivial
  | .submit _ | .write .. | .close _ | .closing _ | .take => isFalse id

variable {s : Session}

theorem stepsLeft_congr {s' : Session} (ht : s'.tasks = s.tasks)
    (hr : s'.requests = s.requests) : s'.stepsLeft = s.stepsLeft := by
  rw [stepsLeft, stepsLeft, ht, hr]

theorem stepsLeft_closing (s : Session) (i : Nat) : (s.closing i).stepsLeft = s.stepsLeft := by
  unfold closing
  split
  · rfl
  · rename_i c hc
    cases c.closing with
    | raising | halting | returned => rfl
    | draining =>
      simp only
      split <;> rfl

theorem stepsLeft_take (s : Session) : (s.act .take).stepsLeft = s.stepsLeft := by
  obtain ⟨e, es, -, -, -, hn⟩ | hn | hn := History.next?_cases s
  · simp only [act, hn]
    rfl
  · simp only [act, hn]
    rfl
  · simp only [act, hn]
    rfl

end Session

namespace History

variable {config : Config} {h k m : History} {r n : Nat} {q : Request} {x : Submission}

theorem Reachable.exists_request_of_task (hr : h.Reachable config) {t : Nat} {task : Task}
    (ht : h.session.tasks[t]? = some task) : ∃ q, h.session.requests[task.request]? = some q :=
  ⟨_, Array.getElem?_eq_getElem (hr.coherent.linked t task ht)⟩

/-- Every step of a submitter or a task brings the end nearer. -/
theorem Reachable.stepsLeft_of_proceeds (hr : h.Reachable config) {a : Action}
    (he : h.session.Enabled a) (ha : a.Proceeds) :
    (h.act a).session.stepsLeft < h.session.stepsLeft := by
  cases a with
  | launch r =>
    obtain ⟨q, hq, hl⟩ := he
    exact Session.stepsLeft_launch hq (hr.launches hq) hl
  | advance t =>
    obtain ⟨task, ht, hp⟩ := he
    obtain ⟨q, hq⟩ := hr.exists_request_of_task ht
    exact Session.stepsLeft_advance ht hq hp
  | finish t o =>
    obtain ⟨task, ht, hp⟩ := he
    exact Session.stepsLeft_finish ht hp hr.coherent.waiting
  | submit | write | close | closing | take => exact absurd ha id

/-- In a stopped session no other step takes the end farther away. -/
theorem Reachable.stepsLeft_of_stopped (hr : h.Reachable config) (hs : h.session.stopped = true)
    {a : Action} (he : h.session.Enabled a) (ha : ¬ a.Proceeds) :
    (h.act a).session.stepsLeft = h.session.stepsLeft := by
  cases a with
  | write t i bytes =>
    obtain ⟨task, ht, hp, -⟩ := he
    obtain ⟨q, hq⟩ := hr.exists_request_of_task ht
    exact Session.stepsLeft_write ht hp hq i bytes
  | submit x => exact congrArg (·.1.stepsLeft) (Session.submit_of_stopped hs x)
  | close waits => exact Session.stepsLeft_congr rfl rfl
  | closing i => exact Session.stepsLeft_closing ..
  | take => exact Session.stepsLeft_take _
  | launch | advance | finish => exact absurd trivial ha

/-- The steps of submitters and tasks in a run of a stopped session are counted off. -/
theorem Reachable.countP_proceeds (hr : h.Reachable config) (hs : h.session.stopped = true)
    {as : List Action} (hl : h.Legal as) :
    as.countP (·.Proceeds) + (h.run as).session.stepsLeft ≤ h.session.stepsLeft := by
  induction as generalizing h with
  | nil => simp [run]
  | cons a as ih =>
    have htail : as.countP (·.Proceeds) + (h.run (a :: as)).session.stepsLeft ≤
        (h.act a).session.stepsLeft :=
      ih (hr.reaches (.step (.refl h) hl.1)) ((step_act hr.coherent hl.1).stopped hs) hl.2
    by_cases ha : a.Proceeds
    · have hlt := hr.stepsLeft_of_proceeds hl.1 ha
      rw [List.countP_cons_of_pos (by simpa using ha)]
      omega
    · have heq := hr.stepsLeft_of_stopped hs hl.1 ha
      rw [List.countP_cons_of_neg (by simpa using ha)]
      omega

/-- As long as a submitter or a task is not through, one of them can take a step. -/
theorem Reachable.exists_proceeds (hr : h.Reachable config) (hend : ¬ h.session.AtEnd) :
    ∃ a : Action, a.Proceeds ∧ h.session.Enabled a := by
  by_contra hnone
  refine hend (hr.atEnd (fun q hm => ?rest) fun t task ht => ⟨fun hp => ?moves, fun hp => ?runs⟩)
  case rest =>
    obtain ⟨r, hq⟩ := Array.mem_iff_getElem?.mp hm
    by_contra hl
    exact hnone ⟨.launch r, trivial, q, hq, fun code hcode => hl ⟨code, hcode⟩⟩
  case moves => exact hnone ⟨.advance t, trivial, task, ht, hp⟩
  case runs => exact hnone ⟨.finish t .failed, trivial, task, ht, hp⟩

/-- **A stopped session comes to its end**, in whatever order the steps are taken. -/
theorem Reachable.atEnd_of_count (hr : h.Reachable config) (hs : h.session.stopped = true)
    {as : List Action} (hl : h.Legal as) (hn : h.session.stepsLeft ≤ as.countP (·.Proceeds)) :
    (h.run as).session.AtEnd := by
  have hsum := hr.countP_proceeds hs hl
  have hk := hr.reaches (.run (.refl h) hl)
  by_contra hend
  obtain ⟨a, ha, he⟩ := hk.exists_proceeds hend
  have hlt := hk.stepsLeft_of_proceeds he ha
  omega

/-- At the end nothing is in flight. -/
theorem Reachable.inflight_of_atEnd (hr : h.Reachable config) (hend : h.session.AtEnd) :
    h.session.inflight = 0 := by
  have hunfinished : h.session.unfinished = 0 := by
    refine Array.countP_eq_zero.mpr fun task hm => ?_
    obtain ⟨t, ht⟩ := Array.mem_iff_getElem?.mp hm
    simpa using hend.finished t task ht
  have hentering : h.session.entering = 0 := by
    refine Array.countP_eq_zero.mpr fun q hm => ?_
    obtain ⟨code, hl⟩ := hend.rest q hm
    simp [hl, Launch.Inside]
  rw [hr.inflight_eq, hunfinished, hentering]

end History

/-- A closer that waits returns when nothing is in flight. -/
theorem Session.hasReturned_closing {s : Session} {i : Nat} {c : Closer}
    (hc : s.closers[i]? = some c) (hd : c.closing = .draining) (h0 : s.inflight = 0) :
    (s.closing i).hasReturned i = true := by
  simp [hasReturned, closing, hc, hd, h0, Array.getElem?_modify]

/-- A shutdown that begins when nothing is in flight returns at once. -/
theorem Session.hasReturned_beginShutdown {s : Session} (h0 : s.inflight = 0) :
    (s.beginShutdown.closing s.closers.size).hasReturned s.closers.size = true := by
  have heq := s.halt_eq true
  refine hasReturned_closing (c := ⟨true, .draining⟩) ?_ rfl ?_
  · rw [beginShutdown, heq]
    simp
  · rw [beginShutdown, heq]
    exact h0

/-! ## Requests that are cut off -/

/-- The submitter has seen the stop flag when `n` chunks were launched, and gives up. -/
def Request.CutOff (n : Nat) (q : Request) : Prop :=
  q.launched = n ∧ (q.launch = .barred ∨ q.launch = .answered .finished)

theorem Request.CutOff.launch_ne {n : Nat} {q : Request} (hc : q.CutOff n) {l : Launch}
    (hb : l ≠ .barred) (ha : l ≠ .answered .finished) : q.launch ≠ l := by
  rintro rfl
  exact hc.2.elim hb ha

/-- A chunk that is not the last of a request: its number, its range and its slice. -/
theorem Request.Answers.piece_before {config : Config} {x : Submission} {q : Request}
    (ha : q.Answers config x) {i : Nat} {y : Piece} (hy : q.pieces.toList[i]? = some y)
    (hi : i + 1 < q.pieces.size) :
    y.index = i ∧ y.slice = ⟨i * config.chunkSize.toNat, config.chunkSize.toNat⟩ := by
  obtain ⟨hindex, hlen, hoffset, -, -⟩ := ha.laid.getElem? hy
  have hc : (x.range.chunks config.chunkSize)[i]? = some y.range := by
    rw [← ha.chunks, List.getElem?_map, hy, Option.map_some]
  obtain ⟨hpos, hfull, -⟩ := ByteRange.getElem?_cut (x.range.chunkCount_mul_le _) ha.fits hc
  have hsize := hfull (ha.size_pieces ▸ hi)
  have hstart : y.slice.start = i * config.chunkSize.toNat := by omega
  refine ⟨hindex.trans (Nat.zero_add i), ?_⟩
  rw [← hstart, ← hsize, ← hlen]

namespace History

variable {config : Config} {h k m : History} {r n : Nat} {q : Request} {x : Submission}

/-- No step leads a request out of this. -/
theorem Step.cutOff (hs : Step h k) (hq : h.session.requests[r]? = some q) (hc : q.CutOff n) :
    ∃ q', k.session.requests[r]? = some q' ∧ q'.CutOff n := by
  have hmodify {r' : Nat} {f : Request → Request}
      (hk : k.session.requests = h.session.requests.modify r' f)
      (hf : r' = r → (f q).CutOff n) : ∃ q', k.session.requests[r]? = some q' ∧ q'.CutOff n := by
    rw [hk, Array.getElem?_modify, hq]
    by_cases hr : r' = r
    · rw [if_pos hr]
      exact ⟨f q, rfl, hf hr⟩
    · rw [if_neg hr]
      exact ⟨q, rfl, hc⟩
  cases hs with
  | accept =>
    refine ⟨q, ?_, hc⟩
    rw [Array.getElem?_push, if_neg (Nat.ne_of_lt (Array.getElem?_eq_some_iff.mp hq).1)]
    exact hq
  | enter hq' hl | look hq' hl | launch hq' hl =>
    -- a submitter that gives up takes none of these
    refine hmodify (requests_modifyRequest ..) ?_
    rintro rfl
    obtain rfl := Option.some.inj (hq.symm.trans hq')
    exact absurd hl (hc.launch_ne (by simp) (by simp))
  | giveUp => exact hmodify (requests_modifyRequest ..) fun _ => ⟨hc.1, Or.inr rfl⟩
  | count =>
    refine hmodify ((requests_modifyTask ..).trans (requests_modifyRequest ..)) fun _ => ?_
    rw [tally_eq]
    exact hc
  | write => exact hmodify (requests_modifyRequest ..) fun _ => hc
  | idle | grant | line | begin | push | pass | leave | finish | handOver | close | raise | halt
  | drain | take => exact ⟨q, hq, hc⟩

/-- The submitter of request `r` sees the stop flag when `n` chunks are launched. -/
def Barred (h : History) (r n : Nat) : Prop :=
  ∃ q, h.session.requests[r]? = some q ∧ q.launch = .barred ∧ q.launched = n

theorem Reachable.cutOff (hr : h.Reachable config) (hb : h.Barred r n) (hk : h.Reaches k) :
    ∃ q, k.session.requests[r]? = some q ∧ q.CutOff n := by
  obtain ⟨q, hq, hl, hn⟩ := hb
  refine hk.induct (P := fun k => ∃ q, k.session.requests[r]? = some q ∧ q.CutOff n) hr
    ⟨q, hq, hn, Or.inl hl⟩ ?_
  rintro a b - - ⟨q, hq, hc⟩ hs
  exact hs.cutOff hq hc

/-- A stop may come in front of every chunk. -/
theorem exists_barred (hq : h.session.requests[r]? = some q) (hl : q.launch = .ready) :
    ∃ m, h.Reaches m ∧ m.Barred r q.launched := by
  let i := h.session.closers.size
  let closed := h.act (.close false)
  have hcloser : closed.session.closers[i]? = some ⟨false, .raising⟩ := Array.getElem?_push_size
  let raised := closed.act (.closing i)
  have hraised : raised.session.stopped = true ∧
      raised.session.requests = h.session.requests := by
    simp only [raised, act, Session.act, Session.closing, hcloser]
    exact ⟨trivial, rfl⟩
  have hq₁ : raised.session.requests[r]? = some q := hraised.2 ▸ hq
  let entered := raised.act (.launch r)
  have hentered : entered.session =
      { raised.session with inflight := raised.session.inflight + 1 }.modifyRequest r
        ({ · with launch := .entered }) := by
    simp [entered, act, Session.act, Session.launch, hq₁, hl]
  have hq₂ : entered.session.requests[r]? = some { q with launch := .entered } := by
    rw [hentered]
    exact requests_modifyRequest_self (s := { raised.session with
      inflight := raised.session.inflight + 1 }) hq₁ _
  have hstop : entered.session.stopped = true := by
    rw [hentered]
    exact hraised.1
  have hlooked : (entered.act (.launch r)).session =
      entered.session.modifyRequest r ({ · with launch := .barred }) := by
    simp [act, Session.act, Session.launch, hq₂, hstop]
  refine ⟨entered.act (.launch r), ?_, { q with launch := .barred }, ?_, rfl, rfl⟩
  · have hclosed : h.Reaches closed := .step (.refl h) trivial
    have hclosing : h.Reaches raised := .step hclosed ⟨_, hcloser, by simp, by simp⟩
    have hentering : h.Reaches entered := .step hclosing ⟨q, hq₁, by simp [hl]⟩
    exact .step hentering ⟨_, hq₂, by simp⟩
  · rw [hlooked]
    exact requests_modifyRequest_self hq₂ _

/-! ## What holds of a request that was cut off -/

/-- What holds of request `r`, which the submission `x` is registered as, from the moment on when
its submitter sees the stop flag in front of chunk `n`. -/
structure Contained (config : Config) (x : Submission) (r n : Nat) (h : History) : Prop where
  /-- The submitter answers that the session is finished, and can do so at any time. -/
  answers : ∀ code, h.session.answer? r = some code → code = .finished
  returns : h.session.answer? r = none →
    h.session.Enabled (.launch r) ∧ (h.session.launch r).answer? r = some .finished
  /-- The first `n` chunks are launched and no others, in order. -/
  indices : (h.session.piecesOf r).map Piece.index = List.range n
  ranges : (h.session.piecesOf r).map Piece.range = (x.range.chunks config.chunkSize).take n
  /-- Each launched chunk calls its transfer once and reports once, when it is through. -/
  atMostOnce : ∀ t, h.session.starts.toList.count t ≤ 1 ∧ (h.reports.map (·.task)).count t ≤ 1
  once : ∀ (t : Nat) (task : Task), h.session.tasks[t]? = some task → task.phase.Finished →
    h.session.starts.toList.count t = 1 ∧ (h.reports.map (·.task)).count t = 1
  /-- The other chunks call none. -/
  calls : ∀ t ∈ h.session.starts, ∀ task, h.session.tasks[t]? = some task → task.request = r →
    task.piece.index < n
  /-- Nothing is written behind the first `n` chunks, where the buffer is as it was handed over. -/
  writes : ∀ w ∈ h.writes, ∀ task, h.session.tasks[w.task]? = some task → task.request = r →
    task.piece.slice.start + w.start + w.bytes.length ≤ n * config.chunkSize.toNat
  buffer : ∃ b, h.session.bufferOf? r = some b ∧
    ∀ p, n * config.chunkSize.toNat ≤ p → b[p]? = x.buffer[p]?
  /-- No success is pushed for the request, and at most one failure. -/
  events : ∀ p ∈ h.pushesOf r, p.event = ⟨x.id, .fileAccess⟩
  oneEvent : (h.pushesOf r).length ≤ 1
  /-- When its submitter has answered and its tasks are finished, the count is that of the other
  requests. -/
  inflight : (h.session.answer? r).isSome →
    (∀ (t : Nat) (task : Task), h.session.tasks[t]? = some task → task.request = r →
      task.phase.Finished) → h.session.inflight = h.session.inflightBeside r
  /-- As long as a submitter or a task of any request is not through, one of them can take a step;
  after as many steps as are left all are through, and then every shutdown returns. -/
  proceeds : ¬ h.session.AtEnd → ∃ a : Action, a.Proceeds ∧ h.session.Enabled a
  ends : ∀ as, h.Legal as → h.session.stepsLeft ≤ as.countP (·.Proceeds) →
    (h.run as).session.AtEnd
  shutdown : h.session.AtEnd →
    (h.session.beginShutdown.closing h.session.closers.size).hasReturned
        h.session.closers.size = true ∧
      ∀ (i : Nat) (c : Closer), h.session.closers[i]? = some c → c.closing = .draining →
        (h.session.closing i).hasReturned i = true

/-- The pieces of the tasks of a request that was cut off. -/
theorem Reachable.piece_of_cutOff (hr : h.Reachable config)
    (hq : h.session.requests[r]? = some q) (ha : q.Answers config x) (hn : q.launched = n)
    (hlt : n < q.pieces.size) {t : Nat} {task : Task} (ht : h.session.tasks[t]? = some task)
    (htr : task.request = r) : ∃ i < n, task.piece.index = i ∧
      task.piece.slice = ⟨i * config.chunkSize.toNat, config.chunkSize.toNat⟩ := by
  have hm : task.piece ∈ h.session.piecesOf r := mem_piecesOf.mpr ⟨t, task, ht, htr, rfl⟩
  rw [hr.piecesOf hq, hn] at hm
  obtain ⟨i, hi⟩ := List.mem_iff_getElem?.mp hm
  have hin : i < n := by
    have hlen := (List.getElem?_eq_some_iff.mp hi).1
    rw [List.length_take] at hlen
    omega
  rw [List.getElem?_take_of_lt hin] at hi
  exact ⟨i, hin, ha.piece_before hi (by omega)⟩

/-- There is a chunk left that a request was cut off before. -/
theorem Reachable.lt_of_cutOff (hr : h.Reachable config) (hq : h.session.requests[r]? = some q)
    (hc : q.CutOff n) : n < q.pieces.size := by
  have hl := hr.launches hq
  obtain ⟨rfl, hbarred | hanswered⟩ := hc
  · rw [Request.Launches, hbarred] at hl
    exact hl.1
  · rw [Request.Launches, hanswered] at hl
    exact hl.2.1

/-- The submitter of a request that was cut off gives up, or has done so. -/
theorem answer_of_cutOff (hq : h.session.requests[r]? = some q) (hc : q.CutOff n) :
    h.session.answer? r = some .finished ∨ h.session.answer? r = none ∧
      h.session.Enabled (.launch r) ∧ (h.session.launch r).answer? r = some .finished := by
  rcases hc.2 with hl | hl
  · refine Or.inr ⟨by simp [Session.answer?, hq, hl], ⟨q, hq, by simp [hl]⟩, ?_⟩
    obtain ⟨i, faults, hv⟩ := leave_eq h.session
    have hlaunch : h.session.launch r = { h.session with inflight := i, faults }.modifyRequest r
        ({ · with launch := .answered .finished }) := by
      simp only [Session.launch, hq, hl, hv]
    rw [hlaunch, Session.answer?,
      requests_modifyRequest_self (s := { h.session with inflight := i, faults }) hq]
    rfl
  · exact Or.inl (by simp [Session.answer?, hq, hl])

/-- A request that was cut off does not succeed. -/
theorem Reachable.event_of_cutOff (hr : h.Reachable config)
    (hq : h.session.requests[r]? = some q) (hc : q.CutOff n) {p : Push} (hp : p ∈ h.pushesOf r) :
    p.event = ⟨q.id, .fileAccess⟩ := by
  rcases hr.event_of_push hq hp with he | he
  · have hl := hr.launch_of_success hq hp (by rw [he])
    exact absurd hl (hc.launch_ne (by simp) (by simp))
  · exact he

theorem Reachable.contained (hr : h.Reachable config) (hs : h.session.stopped = true)
    (hq : h.session.requests[r]? = some q) (hx : h.accepted[r]? = some x)
    (hc : q.CutOff n) : h.Contained config x r n := by
  obtain ⟨y, hy, ha⟩ := hr.answers hq
  obtain rfl := Option.some.inj (hx.symm.trans hy)
  have hlt := hr.lt_of_cutOff hq hc
  have hanswer := answer_of_cutOff hq hc
  have hpieces : h.session.piecesOf r = q.pieces.toList.take n := hc.1 ▸ hr.piecesOf hq
  have hpiece {t : Nat} {task : Task} (ht : h.session.tasks[t]? = some task)
      (htr : task.request = r) := hr.piece_of_cutOff hq ha hc.1 hlt ht htr
  have hbelow {i : Nat} (hi : i < n) : i * config.chunkSize.toNat + config.chunkSize.toNat ≤
      n * config.chunkSize.toNat := by
    rw [← Nat.succ_mul]
    exact Nat.mul_le_mul_right _ hi
  exact {
    answers := by
      intro code hcode
      rcases hanswer with hf | ⟨hnone, -⟩
      · exact Option.some.inj (hcode.symm.trans hf)
      · exact absurd (hcode.symm.trans hnone) (by simp)
    returns := by
      intro hnone
      rcases hanswer with hf | ⟨-, hcan⟩
      · exact absurd (hf.symm.trans hnone) (by simp)
      · exact hcan
    indices := by
      have hindex : ∀ {i : Nat} {y : Piece}, q.pieces.toList[i]? = some y → y.index = i :=
        fun hy => (ha.laid.getElem? hy).1.trans (Nat.zero_add _)
      rw [hpieces, List.map_take, Piece.map_index hindex, Array.length_toList, List.take_range,
        Nat.min_eq_left (Nat.le_of_lt hlt)]
    ranges := by rw [hpieces, List.map_take, ha.chunks]
    atMostOnce := fun t => ⟨List.nodup_iff_count.mp (by simpa using hr.recorded.starts.nodup) t,
      List.nodup_iff_count.mp hr.recorded.reports.nodup t⟩
    once := fun t task ht hp => ⟨hr.recorded.count_starts ht hp.started,
      hr.recorded.count_reports ht hp.reported⟩
    calls := by
      intro t _ task ht htr
      obtain ⟨i, hi, hindex, -⟩ := hpiece ht htr
      exact hindex ▸ hi
    writes := by
      intro w hw task ht htr
      obtain ⟨i, hi, -, hslice⟩ := hpiece ht htr
      obtain ⟨r', a, hslot, hle⟩ := hr.landed.confined w hw
      obtain ⟨task', ht', -, rfl⟩ := Session.slot?_eq_some.mp hslot
      obtain rfl := Option.some.inj (ht.symm.trans ht')
      have hroom := hbelow hi
      rw [hslice] at hle ⊢
      show i * config.chunkSize.toNat + w.start + w.bytes.length ≤ _
      have hle' : w.start + w.bytes.length ≤ config.chunkSize.toNat := hle
      omega
    buffer := by
      have hb : h.session.bufferOf? r = some q.buffer := by
        rw [Session.bufferOf?, hq, Option.map_some]
      refine ⟨q.buffer, hb, fun p hp => (hr.landed.holds r _ _ hb hx).outside p ?_⟩
      intro t a hslot hcovers
      obtain ⟨task, ht, htr, rfl⟩ := Session.slot?_eq_some.mp hslot
      obtain ⟨i, hi, -, hslice⟩ := hpiece ht htr
      have hroom := hbelow hi
      rw [hslice] at hcovers
      have hend : p < i * config.chunkSize.toNat + config.chunkSize.toNat := hcovers.2
      omega
    events := fun p hp => ha.id_eq ▸ hr.event_of_cutOff hq hc hp
    oneEvent := hr.length_pushesOf_le hq
    inflight := by
      intro hsome hfinished
      have hzero : h.session.inflightOf r = 0 := by
        refine Session.inflightOf_eq_zero hfinished fun q' hq' => ?_
        obtain rfl := Option.some.inj (hq.symm.trans hq')
        rcases hc.2 with hl | hl
        · simp [Session.answer?, hq, hl] at hsome
        · rw [hl]
          exact id
      rw [hr.inflight_split r, hzero, Nat.add_zero]
    proceeds := hr.exists_proceeds
    ends := fun as hl hn => hr.atEnd_of_count hs hl hn
    shutdown := fun hend => ⟨Session.hasReturned_beginShutdown (hr.inflight_of_atEnd hend),
      fun _ _ hcl hd => Session.hasReturned_closing hcl hd (hr.inflight_of_atEnd hend)⟩ }

/-- What becomes of `x`, accepted by the session of `h`, when the session is stopped while its
chunks are launched. -/
structure Interrupts (config : Config) (x : Submission) (h : History) : Prop where
  /-- A stop may come in front of every chunk. -/
  possible : ∀ n < x.range.chunkCount config.chunkSize, ∃ m, (h.act (.submit x)).Reaches m ∧
    m.Barred h.session.requests.size n
  /-- In front of whichever chunk it comes, and whatever happens from then on. -/
  contained : ∀ m n, (h.act (.submit x)).Reaches m → m.Barred h.session.requests.size n →
    n < x.range.chunkCount config.chunkSize ∧
      ∀ k, m.Reaches k → k.Contained config x h.session.requests.size n

/-- Three steps a chunk lead the submitter in front of chunk `n`, and there the stop comes. -/
theorem Reachable.exists_barred_at (hr : h.Reachable config)
    (ha : (h.session.submit x).2 = .accepted h.session.requests.size)
    (hn : n < x.range.chunkCount config.chunkSize) :
    ∃ m, (h.act (.submit x)).Reaches m ∧ m.Barred h.session.requests.size n := by
  obtain ⟨l, hl⟩ := accept_of_submit ha
  obtain ⟨pieces, -, -, hsubmit⟩ := submit_of_accept hl
  have hregistered : (h.act (.submit x)).session = { h.session.register with
      requests := h.session.requests.push (.ofSubmission x l pieces) } :=
    congrArg Prod.fst hsubmit
  have hstop : (h.act (.submit x)).session.stopped = false := by
    rw [hregistered]
    exact (Session.accepted_iff.mp ha).1
  have hq : (h.act (.submit x)).session.requests[h.session.requests.size]? =
      some (.ofSubmission x l pieces) := by
    rw [hregistered]
    exact Array.getElem?_push_size
  obtain ⟨q, hq', hqx⟩ := hr.exists_registered ha (.refl _)
  obtain rfl := Option.some.inj (hq.symm.trans hq')
  rw [← hqx.size_pieces] at hn
  obtain ⟨q, hq', -, rfl, hready⟩ :=
    Session.launch_chunks hstop hq rfl rfl hqx.pieces_pos (Nat.le_of_lt hn)
  obtain ⟨k, hk, hks⟩ := reaches_repeat (h.act (.submit x)) h.session.requests.size
    (3 * q.launched)
  rw [← hks] at hq'
  obtain ⟨m, hm, hb⟩ := exists_barred hq' (hready.trans (if_pos hn))
  exact ⟨m, hk.trans hm, hb⟩

/-- **An interrupted dispatch is contained.** -/
theorem Reachable.interrupts (hr : h.Reachable config)
    (ha : (h.session.submit x).2 = .accepted h.session.requests.size) :
    h.Interrupts config x where
  possible _ hn := hr.exists_barred_at ha hn
  contained m n hm hb := by
    have hk₀ : h.Reaches (h.act (.submit x)) := .step (.refl h) trivial
    have hmr := hr.reaches (hk₀.trans hm)
    obtain ⟨q, hq, hl, rfl⟩ := hb
    have hnot := hmr.launches hq
    rw [Request.Launches, hl] at hnot
    obtain ⟨q₀, hq₀, hqx⟩ := hr.exists_registered ha hm
    obtain rfl := Option.some.inj (hq.symm.trans hq₀)
    refine ⟨hqx.size_pieces ▸ hnot.1, fun k hk => ?_⟩
    have hstop : k.session.stopped = true :=
      hk.induct (P := (·.session.stopped = true)) hmr hnot.2 fun _ _ hi hs => hs.stopped hi
    obtain ⟨q', hq', hc⟩ := hmr.cutOff ⟨q, hq, hl, rfl⟩ hk
    have hx : k.accepted[h.session.requests.size]? = some x := by
      refine (hm.trans hk).accepted ?_
      rw [act, Session.accepted?, ha, ← hr.orderly.length_accepted]
      exact List.getElem?_concat_length
    exact (hmr.reaches hk).contained hstop hq' hx hc

/-- A stop in front of the second of two chunks, with the transfer of the first one running: it
fails, and the request has its failure and nothing in flight. -/
theorem interrupts_of_two :
    (Submission.eight.range.chunkCount Config.fours.chunkSize = 2 ∧
      (new .fours).Interrupts .fours .eight) ∧
    ∃ m k, ((new .fours).act (.submit .eight)).Reaches m ∧ m.Barred 0 1 ∧ m.Reaches k ∧
      k.Contained .fours .eight 0 1 ∧
      k.session.answer? 0 = some .finished ∧ k.session.AtRest ∧ k.session.inflight = 0 ∧
      k.pushesOf 0 = [⟨0, 0, ⟨1, .fileAccess⟩⟩] := by
  let m := ((new .fours).act (.submit .eight)).run [.launch 0, .launch 0, .launch 0, .advance 0,
    .advance 0, .close true, .closing 0, .launch 0, .launch 0]
  let k := m.run [.launch 0, .write 0 0 [1, 2], .finish 0 (.returned 2), .advance 0, .advance 0,
    .advance 0, .closing 0, .closing 0]
  have hr : Reachable .fours (new .fours) := .ofRun .fours [] (by decide) trivial
  have hall : (new .fours).Interrupts .fours .eight := hr.interrupts (by decide +kernel)
  have hm : ((new .fours).act (.submit .eight)).Reaches m :=
    .run (.refl _) (by decide +kernel)
  have hk : m.Reaches k := .run (.refl _) (by decide +kernel)
  have hb : m.Barred 0 1 := by
    have hq : ∃ q ∈ m.session.requests[0]?, q.launch = .barred ∧ q.launched = 1 := by
      decide +kernel
    exact hq
  refine ⟨⟨by decide, hall⟩, m, k, hm, hb, hk,
    (hall.contained m 1 hm hb).2 k hk, ?_, ?_, ?_, ?_⟩
  all_goals decide +kernel

end History

end RangeFetch
