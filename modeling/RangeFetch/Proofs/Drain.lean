import Mathlib.Data.List.Nodup
import RangeFetch.Proofs.Deliveries
import RangeFetch.Proofs.Transfers

/-!
# A shutdown drains the session

A submitter enters the in-flight count before it reads the stop flag, and a caller that shuts the
session down raises the flag before it looks at the count. The count is the number of unfinished
tasks and of submitters in it (`Reachable.inflight_eq`). Once it is zero behind the flag, every task
is finished, and a submitter that enters later reads the flag and gives up: the session is
`Drained`, and no step leads out of this or moves anything but submitters, closers and consumers.

Headlines:
* **`Reachable.inflight_eq`**: what the in-flight count counts.
* **`Reachable.drained`**: a session whose shutdown has returned is drained.
* **`Reachable.drains`**: what holds from the return of a shutdown on.
-/

namespace RangeFetch

/-- The submitter is in the in-flight count: it has entered, and has neither left nor launched. -/
def Launch.Inside : Launch → Prop
  | .entered | .cleared | .barred => True
  | .ready | .answered _ => False

instance : DecidablePred Launch.Inside := fun l => by
  cases l <;> unfold Launch.Inside <;> infer_instance

/-- The task has left the in-flight count. -/
def Phase.Finished : Phase → Prop
  | .finished .. => True
  | .launched | .waiting | .granted | .running | .ended _ | .counted .. | .reported .. => False

instance : DecidablePred Phase.Finished
  | .finished .. => isTrue trivial
  | .launched | .waiting | .granted | .running | .ended _ | .counted .. | .reported .. => isFalse id

theorem Phase.Finished.started {p : Phase} (h : p.Finished) : p.Started := by
  cases p with
  | finished => trivial
  | launched | waiting | granted | running | ended | counted | reported => exact absurd h id

theorem Phase.Finished.reported {p : Phase} (h : p.Finished) : p.Reported := by
  cases p with
  | finished => trivial
  | launched | waiting | granted | running | ended | counted | reported => exact absurd h id

namespace Session

/-- How many tasks are not finished. -/
def unfinished (s : Session) : Nat :=
  s.tasks.countP (¬ ·.phase.Finished)

/-- How many submitters are in the in-flight count. -/
def entering (s : Session) : Nat :=
  s.requests.countP (·.launch.Inside)

end Session

/-! ## The in-flight count -/

/-- A change of one element changes a count by that element. -/
theorem countP_modify {α : Type} {p : α → Bool} {f : α → α} {xs : Array α} {i : Nat} {a : α}
    (ha : xs[i]? = some a) :
    (xs.modify i f).countP p + (if p a then 1 else 0) =
      xs.countP p + if p (f a) then 1 else 0 := by
  rw [← Array.countP_toList, ← Array.countP_toList, Array.toList_modify]
  rw [← Array.getElem?_toList] at ha
  generalize xs.toList = l at ha
  induction l generalizing i with
  | nil => exact absurd ha (by simp)
  | cons b l ih =>
    cases i with
    | zero =>
      obtain rfl : b = a := by simpa using ha
      rw [List.modify_zero_cons, List.countP_cons, List.countP_cons]
      omega
    | succ i =>
      rw [List.modify_succ_cons, List.countP_cons, List.countP_cons]
      have htail := ih (i := i) (by simpa using ha)
      omega

namespace History

variable {config : Config} {h k : History}

theorem unfinished_modify {s s' : Session} {t : Nat} {task : Task} {p : Phase}
    (hk : s'.tasks = s.tasks.modify t ({ · with phase := p })) (ht : s.tasks[t]? = some task)
    (hp : ¬ task.phase.Finished) :
    s'.unfinished + 1 = s.unfinished + if p.Finished then 0 else 1 := by
  have hcount := countP_modify (p := fun task : Task => decide (¬ task.phase.Finished))
    (f := ({ · with phase := p })) ht
  rw [← hk] at hcount
  simpa [Session.unfinished, hp] using hcount

theorem entering_modify {s s' : Session} {r : Nat} {q : Request} {f : Request → Request}
    (hk : s'.requests = s.requests.modify r f) (hq : s.requests[r]? = some q) :
    s'.entering + (if q.launch.Inside then 1 else 0) =
      s.entering + if (f q).launch.Inside then 1 else 0 := by
  have hcount := countP_modify (p := fun q : Request => decide q.launch.Inside) (f := f) hq
  rw [← hk] at hcount
  simpa [Session.entering] using hcount

/-- The in-flight count is what it is to count. -/
def Counted (h : History) : Prop :=
  h.session.inflight = h.session.unfinished + h.session.entering

/-- A task moves on, and leaves the count when it is finished. -/
theorem Counted.move (hi : h.Counted) {t : Nat} {task : Task} {p : Phase}
    (ht : h.session.tasks[t]? = some task)
    (hk : k.session.tasks = h.session.tasks.modify t ({ · with phase := p }))
    (hp : ¬ task.phase.Finished) (hr : k.session.entering = h.session.entering)
    (hn : k.session.inflight + 1 = h.session.inflight + if p.Finished then 0 else 1) :
    k.Counted := by
  have htasks := unfinished_modify hk ht hp
  unfold Counted at hi ⊢
  omega

/-- Leaving takes one off the count. -/
theorem inflight_of_leave {s : Session} {n : Nat} {faults : List Fault}
    (hv : s.leave = { s with inflight := n, faults }) : n = s.inflight - 1 := by
  have hn : s.leave.inflight = n := congrArg Session.inflight hv
  rw [← hn]
  unfold Session.leave
  split
  · show s.inflight = s.inflight - 1
    omega
  · rfl

/-- A submitter moves on, and hands its place in the count to a task or leaves it. -/
theorem Counted.submit (hi : h.Counted) {r : Nat} {q : Request} {f : Request → Request}
    (hq : h.session.requests[r]? = some q)
    (hk : k.session.requests = h.session.requests.modify r f)
    (hn : k.session.inflight + h.session.unfinished + (if q.launch.Inside then 1 else 0) =
      h.session.inflight + k.session.unfinished + if (f q).launch.Inside then 1 else 0) :
    k.Counted := by
  have hreq := entering_modify hk hq
  unfold Counted at hi ⊢
  omega

theorem Counted.step (hc : h.Coherent) (hi : h.Counted) (hs : Step h k) : k.Counted := by
  cases hs with
  | idle | close | raise | halt | drain | take => exact hi
  | accept ha hp =>
    unfold Counted Session.entering
    rw [Array.countP_push]
    exact hi
  | enter hq hl =>
    refine hi.submit hq (requests_modifyRequest ..) ?_
    rw [hl]
    show h.session.inflight + 1 + h.session.unfinished + 0 =
      h.session.inflight + h.session.unfinished + 1
    omega
  | look hq hl =>
    refine hi.submit hq (requests_modifyRequest ..) ?_
    rw [hl]
    cases h.session.stopped <;> rfl
  | @giveUp r n q faults hq hl hv =>
    have hpos : 0 < h.session.entering :=
      Array.countP_pos_iff.mpr ⟨q, Array.mem_of_getElem? hq, by simp [hl, Launch.Inside]⟩
    have hleave := inflight_of_leave hv
    refine hi.submit hq (requests_modifyRequest ..) ?_
    rw [hl]
    show n + h.session.unfinished + 1 = h.session.inflight + h.session.unfinished + 0
    unfold Counted at hi
    omega
  | @launch r q piece hq hl hp =>
    refine hi.submit hq (requests_modifyRequest ..) ?_
    have hout : ¬ (if q.launched + 1 < q.pieces.size then Launch.ready
        else .answered .success).Inside := by
      split <;> exact id
    have htasks : (h.session.tasks.push { request := r, piece }).countP (¬ ·.phase.Finished) =
        h.session.unfinished + 1 := Array.countP_push
    rw [hl, if_neg hout]
    show h.session.inflight + h.session.unfinished + 1 = h.session.inflight +
      (h.session.tasks.push { request := r, piece }).countP (¬ ·.phase.Finished) + 0
    omega
  | grant ht hp | line ht hp | begin ht hp | push ht hp | pass ht hp | finish ht hp =>
    exact hi.move ht (tasks_modifyTask ..) (by rw [hp]; exact id) rfl rfl
  | @count t task o q length code faults ht hp hq =>
    have hmid : Counted { h with
        session := { h.session with faults }.modifyRequest task.request
          (Session.tally · length o) } := by
      refine hi.submit hq (requests_modifyRequest ..) ?_
      rw [tally_eq]
      rfl
    exact hmid.move ht (tasks_modifyTask ..) (by rw [hp]; exact id) rfl rfl
  | @leave t n task o code faults ht hp hv =>
    have hpos : 0 < h.session.unfinished :=
      Array.countP_pos_iff.mpr ⟨task, Array.mem_of_getElem? ht, by simp [hp, Phase.Finished]⟩
    have hleave := inflight_of_leave hv
    refine hi.move ht (tasks_modifyTask ..) (by rw [hp]; exact id) rfl ?_
    unfold Counted at hi
    show n + 1 = h.session.inflight + 0
    omega
  | @write t i bytes task ht hp hn =>
    have hq := Array.getElem?_eq_getElem (hc.linked t task ht)
    exact hi.submit hq (requests_modifyRequest ..) rfl
  | @handOver t w ws task next o ht hp hw hn hnp =>
    have hne : t ≠ w := ne_of_running_waiting ht hp hn hnp
    have hmid : Counted { h with
        session := { h.session with permits := { h.session.permits with line := ws } }.modifyTask t
          ({ · with phase := .ended o }) } :=
      hi.move ht (tasks_modifyTask ..) (by rw [hp]; exact id) rfl rfl
    have hn' : (h.session.tasks.modify t ({ · with phase := .ended o }))[w]? = some next := by
      rw [Array.getElem?_modify, if_neg hne]
      exact hn
    exact hmid.move hn' (tasks_modifyTask ..) (by rw [hnp]; exact id) rfl rfl

/-- **The in-flight count is that of the unfinished tasks and of the submitters in it.** -/
theorem Reachable.inflight_eq (hr : h.Reachable config) :
    h.session.inflight = h.session.unfinished + h.session.entering :=
  hr.induct (P := Counted) rfl fun hk _ hi hs => hi.step hk.coherent hs

end History

/-! ## Drained sessions -/

/-- What a task shows stands in the record once. -/
theorem Records.count_eq_one {α : Type} {l : List α} {key : α → Nat} {shown : Nat → Option α}
    (hl : Records l key shown) {t : Nat} {a : α} (ha : shown t = some a) (hkey : key a = t) :
    (l.map key).count t = 1 := by
  subst hkey
  exact List.count_eq_one_of_mem hl.nodup (List.mem_map_of_mem ((hl.mem_iff a).mpr ha))

namespace History

variable {h : History} {t : Nat} {task : Task}

/-- A task that has started its transfer has started it once. -/
theorem Recorded.count_starts (hi : h.Recorded) (ht : h.session.tasks[t]? = some task)
    (hp : task.phase.Started) : h.session.starts.toList.count t = 1 := by
  rw [← List.map_id h.session.starts.toList]
  refine hi.starts.count_eq_one (a := t) ?_ rfl
  rw [Session.view_of_getElem? ht, Task.start?, if_pos hp]

/-- A task that has reported has reported once. -/
theorem Recorded.count_reports (hi : h.Recorded) (ht : h.session.tasks[t]? = some task)
    (hp : task.phase.Reported) : (h.reports.map (·.task)).count t = 1 := by
  obtain ⟨o, hc⟩ := hp.count?
  have hshown : ∃ e : Report, h.session.view Task.report? t = some e ∧ e.task = t := by
    rw [Session.view_of_getElem? ht, Task.report?, hc]
    exact ⟨_, rfl, rfl⟩
  obtain ⟨e, he, het⟩ := hshown
  exact hi.reports.count_eq_one he het

end History

/-- Behind the stop flag every task is finished, and no submitter is about to launch one. -/
structure Session.Drained (s : Session) : Prop where
  stopped : s.stopped = true
  tasks : ∀ (t : Nat) (task : Task), s.tasks[t]? = some task → task.phase.Finished
  launch : ∀ (r : Nat) (q : Request), s.requests[r]? = some q → q.launch ≠ .cleared

namespace History

variable {config : Config} {h k : History}

/-- Nothing is in flight behind the stop flag: every submitter that enters now will read it. -/
theorem Reachable.drained_of_inflight (hr : h.Reachable config) (hs : h.session.stopped = true)
    (h0 : h.session.inflight = 0) : h.session.Drained := by
  have hsum := hr.inflight_eq
  rw [h0] at hsum
  refine ⟨hs, ?_, ?_⟩
  · intro t task ht
    have hnone : h.session.unfinished = 0 := by omega
    by_contra hp
    exact Array.countP_eq_zero.mp hnone task (Array.mem_of_getElem? ht) (by simpa using hp)
  · intro r q hq hl
    have hnone : h.session.entering = 0 := by omega
    exact Array.countP_eq_zero.mp hnone q (Array.mem_of_getElem? hq)
      (by simp [hl, Launch.Inside])

/-- `s` is drained, and has the tasks, the started transfers and the buffers of `s₀`. -/
structure Still (s₀ s : Session) : Prop where
  drained : s.Drained
  tasks : s.tasks = s₀.tasks
  starts : s.starts = s₀.starts
  buffers : s.bufferOf? = s₀.bufferOf?

variable {s₀ : Session}

/-- A step of a submitter that launches nothing. -/
theorem Still.submit (hi : Still s₀ h.session) {r : Nat} {f : Request → Request}
    (hk : k.session.requests = h.session.requests.modify r f)
    (hf : ∀ q, (f q).launch ≠ .cleared)
    (hb : ∀ q, (f q).buffer = q.buffer) (hs : k.session.stopped = h.session.stopped)
    (ht : k.session.tasks = h.session.tasks) (hst : k.session.starts = h.session.starts) :
    Still s₀ k.session where
  drained := by
    refine ⟨hs.trans hi.drained.stopped, ht ▸ hi.drained.tasks, ?_⟩
    rw [hk]
    exact forall_modify hi.drained.launch fun q _ _ => hf q
  tasks := ht.trans hi.tasks
  starts := hst.trans hi.starts
  buffers := (Session.bufferOf?_modify hk hb).trans hi.buffers

/-- **Nothing moves in a drained session** but submitters, closers and consumers. -/
theorem Still.step (hi : Still s₀ h.session) (hs : Step h k) : Still s₀ k.session := by
  obtain ⟨hstop, hfin, hlaunch⟩ := hi.drained
  cases hs with
  | idle => exact hi
  | close | halt | drain | take =>
    exact ⟨⟨hstop, hfin, hlaunch⟩, hi.tasks, hi.starts, hi.buffers⟩
  | raise => exact ⟨⟨rfl, hfin, hlaunch⟩, hi.tasks, hi.starts, hi.buffers⟩
  | accept ha =>
    unfold Session.accept at ha
    rw [if_pos hstop] at ha
    exact absurd ha (by simp)
  | enter | giveUp =>
    exact hi.submit (requests_modifyRequest ..) (fun _ => Launch.noConfusion) (fun _ => rfl) rfl rfl
      rfl
  | look =>
    refine hi.submit (requests_modifyRequest ..) (fun _ => ?_) (fun _ => rfl) rfl rfl rfl
    rw [hstop]
    exact Launch.noConfusion
  | launch hq hl => exact absurd hl (hlaunch _ _ hq)
  | grant ht hp | line ht hp | begin ht hp | count ht hp | push ht hp | pass ht hp | leave ht hp
  | write ht hp | finish ht hp | handOver ht hp =>
    exact absurd (hfin _ _ ht) (by rw [hp]; exact id)

/-! ## The return of a shutdown -/

/-- A shutdown that has returned leaves the session drained. -/
def Emptied (h : History) : Prop :=
  ∀ (i : Nat) (c : Closer), h.session.closers[i]? = some c → c.waits = true →
    c.closing = .returned → h.session.Drained

theorem Emptied.step (hr : h.Reachable config) (hi : h.Emptied) (hs : Step h k) : k.Emptied := by
  have hold : ∀ (i : Nat) (c : Closer), h.session.closers[i]? = some c → c.waits = true →
      c.closing = .returned → k.session.Drained := by
    intro i c hc hw hret
    have hstill : Still h.session h.session := ⟨hi i c hc hw hret, rfl, rfl, rfl⟩
    exact (hstill.step hs).drained
  cases hs with
  | close => exact forall_push hold fun _ hret => absurd hret Closing.noConfusion
  | raise hc hraise => exact forall_modify hold fun _ _ _ _ hret => absurd hret Closing.noConfusion
  | @halt i c hc hh =>
    refine forall_modify hold ?_
    intro c' hc' _ hw hret
    obtain rfl := Option.some.inj (hc.symm.trans hc')
    rw [show c.waits = true from hw] at hret
    exact absurd hret Closing.noConfusion
  | @drain i c hc hd h0 =>
    have hstop : h.session.stopped = true := hr.balanced.closers i c hc (by rw [hd]; simp)
    have hdrained := hr.drained_of_inflight hstop h0
    exact fun _ _ _ _ _ => ⟨hdrained.stopped, hdrained.tasks, hdrained.launch⟩
  | idle | accept | enter | look | giveUp | launch | grant | line | begin | count | push | pass
  | leave | write | finish | handOver | take => exact hold

/-- **A session whose shutdown has returned is drained.** -/
theorem Reachable.drained (hr : h.Reachable config) {i : Nat} {c : Closer}
    (hc : h.session.closers[i]? = some c) (hw : c.waits = true) (hret : c.closing = .returned) :
    h.session.Drained :=
  hr.induct (P := Emptied) (fun i c hc => absurd hc (by simp [new]))
    (fun hk _ hi hs => hi.step hk hs) i c hc hw hret

/-- What holds from the return of a shutdown on. -/
structure Drains (h : History) : Prop where
  /-- No task is unfinished. -/
  finished : ∀ (t : Nat) (task : Task), h.session.tasks[t]? = some task → task.phase.Finished
  /-- Each task has called its transfer once. -/
  calls : ∀ t, t < h.session.tasks.size → h.session.starts.toList.count t = 1
  /-- Each task has reported once. -/
  reports : ∀ t, t < h.session.tasks.size → (h.reports.map (·.task)).count t = 1
  /-- No task is launched any more, no transfer starts, and no buffer changes. -/
  still : ∀ s, h.session.Reaches s → s.tasks = h.session.tasks ∧ s.starts = h.session.starts ∧
    s.bufferOf? = h.session.bufferOf?

theorem Drains.of_drained (hr : h.Reachable config) (hd : h.session.Drained) : h.Drains where
  finished := hd.tasks
  calls t ht := by
    have htask := Array.getElem?_eq_getElem ht
    exact hr.recorded.count_starts htask (hd.tasks t _ htask).started
  reports t ht := by
    have htask := Array.getElem?_eq_getElem ht
    exact hr.recorded.count_reports htask (hd.tasks t _ htask).reported
  still s hs := by
    obtain ⟨k, hk, rfl⟩ := Reaches.lift hs
    have hstill : Still h.session k.session :=
      hk.induct (P := (Still h.session ·.session)) hr ⟨hd, rfl, rfl, rfl⟩
        fun _ _ hi hs => hi.step hs
    exact ⟨hstill.tasks, hstill.starts, hstill.buffers⟩

/-- **A shutdown drains the session**, and the in-flight count tells when it has. -/
theorem Reachable.drains (hr : h.Reachable config) :
    h.session.inflight = h.session.unfinished + h.session.entering ∧
      ∀ (i : Nat) (c : Closer), h.session.closers[i]? = some c → c.waits = true →
        c.closing = .returned → h.Drains :=
  ⟨hr.inflight_eq, fun _ _ hc hw hret => .of_drained hr (hr.drained hc hw hret)⟩

/-- A shutdown raises the flag when one of two chunks is launched and its submitter is on the way to
the next one: the submitter gives up, and the shutdown returns when the first chunk has left. -/
theorem drains_of_shutdown :
    ∃ h c, Reachable .fours h ∧ h.session.closers[0]? = some c ∧ c.waits = true ∧
      c.closing = .returned ∧ h.session.tasks.size = 1 ∧
      h.session.inflight = h.session.unfinished + h.session.entering ∧ h.Drains := by
  let h := (new .fours).run
    [.submit .eight, .launch 0, .launch 0, .launch 0, .advance 0, .advance 0, .launch 0,
      .close true, .closing 0, .launch 0, .closing 0, .write 0 0 [1, 2, 3, 4],
      .finish 0 (.returned 4), .advance 0, .advance 0, .advance 0, .launch 0, .closing 0]
  have hr : Reachable .fours h := .ofRun .fours _ (by decide +kernel) (by decide +kernel)
  have hc : h.session.closers[0]? = some ⟨true, .returned⟩ := by decide +kernel
  have hall := hr.drains
  exact ⟨h, _, hr, hc, rfl, rfl, by decide +kernel, hall.1, hall.2 0 _ hc rfl rfl⟩

end History

end RangeFetch
