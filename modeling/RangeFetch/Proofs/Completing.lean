import Mathlib.Algebra.GroupWithZero.Nat
import RangeFetch.Proofs.Drain
import RangeFetch.Proofs.Replies
import RangeFetch.Proofs.Stopping

/-!
# Every run can be brought to its end

A submitter takes three steps for a chunk, and the task of the chunk takes seven. What is left of
these is counted down by every step of either, and as long as something is left, somebody can go on:
who waits for a permit waits for a task that has one.

Headlines:
* **`Session.stepsLeft`** counts the steps that are left at most.
* **`Supplied.completes`**: when all replies fit into their slices, every run goes on to an end, and
  no stop is needed for it.
-/

namespace RangeFetch

/-! ## The steps that are left -/

/-- How many steps a task takes at most until it is finished. -/
def Phase.stepsLeft : Phase → Nat
  | .launched => 7
  | .waiting => 6
  | .granted => 5
  | .running => 4
  | .ended _ => 3
  | .counted .. => 2
  | .reported .. => 1
  | .finished .. => 0

/-- How many steps the submitter of a request, and the tasks that it is to launch, take at most. -/
def Request.stepsLeft (q : Request) : Nat :=
  match q.launch with
  | .ready => 10 * (q.pieces.size - q.launched)
  | .entered => 10 * (q.pieces.size - q.launched) - 1
  | .cleared => 10 * (q.pieces.size - q.launched) - 2
  | .barred => 1
  | .answered _ => 0

/-- How many steps submitters and tasks take at most. -/
def Session.stepsLeft (s : Session) : Nat :=
  (s.requests.toList.map Request.stepsLeft).sum + (s.tasks.toList.map (·.phase.stepsLeft)).sum

/-- A change of one element changes a sum by that element. -/
theorem sum_map_modify {α : Type} {w : α → Nat} {f : α → α} {xs : Array α} {i : Nat} {a : α}
    (ha : xs[i]? = some a) :
    ((xs.modify i f).toList.map w).sum + w a = (xs.toList.map w).sum + w (f a) := by
  rw [Array.toList_modify]
  rw [← Array.getElem?_toList] at ha
  generalize xs.toList = l at ha
  induction l generalizing i with
  | nil => exact absurd ha (by simp)
  | cons b l ih =>
    cases i with
    | zero =>
      obtain rfl : b = a := by simpa using ha
      rw [List.modify_zero_cons, List.map_cons, List.map_cons, List.sum_cons, List.sum_cons]
      omega
    | succ i =>
      rw [List.modify_succ_cons, List.map_cons, List.map_cons, List.sum_cons, List.sum_cons]
      have htail := ih (i := i) (by simpa using ha)
      omega

namespace Session

variable {s s' : Session} {r t : Nat} {q : Request} {task : Task} {p : Phase}

theorem stepsLeft_request {f : Request → Request} (hk : s'.requests = s.requests.modify r f)
    (hq : s.requests[r]? = some q) (ht : s'.tasks = s.tasks) :
    s'.stepsLeft + q.stepsLeft = s.stepsLeft + (f q).stepsLeft := by
  have hsum := sum_map_modify (w := Request.stepsLeft) (f := f) hq
  unfold stepsLeft
  rw [hk, ht]
  omega

theorem stepsLeft_task (hk : s'.tasks = s.tasks.modify t ({ · with phase := p }))
    (ht : s.tasks[t]? = some task) (hr : s'.requests = s.requests) :
    s'.stepsLeft + task.phase.stepsLeft = s.stepsLeft + p.stepsLeft := by
  have hsum : (s'.tasks.toList.map (·.phase.stepsLeft)).sum + task.phase.stepsLeft =
      (s.tasks.toList.map (·.phase.stepsLeft)).sum + p.stepsLeft := by
    rw [hk]
    exact sum_map_modify (w := fun task : Task => task.phase.stepsLeft) ht
  unfold stepsLeft
  rw [hr]
  omega

theorem stepsLeft_push (task : Task) (hk : s'.tasks = s.tasks.push task)
    (hr : s'.requests = s.requests) :
    s'.stepsLeft = s.stepsLeft + task.phase.stepsLeft := by
  unfold stepsLeft
  rw [hk, hr, Array.toList_push, List.map_append, List.sum_append, List.map_singleton,
    List.sum_singleton, Nat.add_assoc]

/-! ### One step -/

/-- A submitter that has not answered comes one step nearer to its answer. -/
theorem stepsLeft_launch (hq : s.requests[r]? = some q) (hn : q.Launches s.stopped)
    (hl : ∀ code, q.launch ≠ .answered code) : (s.launch r).stepsLeft < s.stepsLeft := by
  have hmove (s' : Session) (f : Request → Request) (hk : s'.requests = s.requests.modify r f)
      (ht : s'.tasks = s.tasks) (hlt : (f q).stepsLeft < q.stepsLeft) :
      s'.stepsLeft < s.stepsLeft := by
    have hsum := stepsLeft_request hk hq ht
    omega
  unfold Request.Launches at hn
  cases hlaunch : q.launch with
  | ready =>
    simp only [hlaunch] at hn
    simp only [launch, hq, hlaunch]
    refine hmove _ ({ · with launch := .entered }) rfl rfl ?_
    simp only [Request.stepsLeft, hlaunch]
    omega
  | entered =>
    simp only [hlaunch] at hn
    simp only [launch, hq, hlaunch]
    refine hmove _ ({ · with launch := if s.stopped then .barred else .cleared }) rfl rfl ?_
    cases s.stopped <;>
      simp only [Request.stepsLeft, hlaunch, if_true, Bool.false_eq_true, if_false]
    all_goals omega
  | barred =>
    obtain ⟨n, faults, hv⟩ := History.leave_eq s
    simp only [launch, hq, hlaunch, hv]
    refine hmove _ ({ · with launch := .answered .finished }) rfl rfl ?_
    simp only [Request.stepsLeft, hlaunch]
    omega
  | cleared =>
    simp only [hlaunch] at hn
    obtain ⟨piece, hpiece⟩ : ∃ piece, q.pieces[q.launched]? = some piece :=
      ⟨_, Array.getElem?_eq_getElem hn⟩
    -- the task of the chunk is there first, and the request goes on then
    let pushed : Session := { s with tasks := s.tasks.push { request := r, piece } }
    let next (q' : Request) : Request :=
      { q' with
        launched := q'.launched + 1
        launch := if q.launched + 1 < q.pieces.size then .ready else .answered .success }
    have hpush : pushed.stepsLeft = s.stepsLeft + 7 :=
      stepsLeft_push { request := r, piece } rfl rfl
    have hsum : (pushed.modifyRequest r next).stepsLeft + q.stepsLeft =
        pushed.stepsLeft + (next q).stepsLeft := stepsLeft_request rfl hq rfl
    have hnext : (next q).stepsLeft + 7 < q.stepsLeft := by
      by_cases hlast : q.launched + 1 < q.pieces.size
      · simp only [next, Request.stepsLeft, hlaunch, if_pos hlast]
        omega
      · simp only [next, Request.stepsLeft, hlaunch, if_neg hlast]
        omega
    simp only [launch, hq, hlaunch, hpiece]
    show (pushed.modifyRequest r next).stepsLeft < s.stepsLeft
    omega
  | answered code => exact absurd hlaunch (hl code)

/-- A task that moves by itself comes one step nearer to its end. -/
theorem stepsLeft_advance (ht : s.tasks[t]? = some task)
    (hq : s.requests[task.request]? = some q) (hp : Phase.Moves task.phase) :
    (s.advance t).stepsLeft < s.stepsLeft := by
  have hmove (s' : Session) (p : Phase) (hk : s'.tasks = s.tasks.modify t ({ · with phase := p }))
      (hr : s'.requests = s.requests) (hlt : p.stepsLeft < task.phase.stepsLeft) :
      s'.stepsLeft < s.stepsLeft := by
    have hsum := stepsLeft_task hk ht hr
    omega
  cases hph : task.phase with
  | launched =>
    simp only [advance, ht, hph, acquire]
    split
    · exact hmove _ .granted rfl rfl (by rw [hph]; decide)
    · exact hmove _ .waiting rfl rfl (by rw [hph]; decide)
  | granted =>
    simp only [advance, ht, hph]
    exact hmove _ .running rfl rfl (by rw [hph]; decide)
  | ended o =>
    obtain ⟨n, hn⟩ : ∃ n, n = task.piece.range.length.toNat := ⟨_, rfl⟩
    obtain ⟨faults, hf⟩ : ∃ faults, faults = if o.Exact n ∧ q.remaining = 0 then
      .countdownAtZero :: s.faults else s.faults := ⟨_, rfl⟩
    -- counting a chunk leaves its request as many steps as before
    let tallied : Session := { s with faults }.modifyRequest task.request (tally · n o)
    have hsame : (tally q n o).stepsLeft = q.stepsLeft := by
      rw [tally_eq]
      rfl
    have hcount : tallied.stepsLeft + q.stepsLeft = s.stepsLeft + (tally q n o).stepsLeft :=
      stepsLeft_request (f := (tally · n o)) rfl hq rfl
    have htask : (tallied.modifyTask t
        ({ · with phase := .counted o (verdict q n o) })).stepsLeft + task.phase.stepsLeft =
          tallied.stepsLeft + 2 :=
      stepsLeft_task (p := .counted o (verdict q n o)) rfl ht rfl
    have hthree : task.phase.stepsLeft = 3 := by
      rw [hph]
      rfl
    simp only [advance, ht, hph, count, hq, ← hn, ← hf]
    show (tallied.modifyTask t _).stepsLeft < s.stepsLeft
    omega
  | counted o code =>
    simp only [advance, ht, hph]
    exact hmove _ (.reported o code) rfl rfl (by rw [hph]; exact Nat.lt_succ_self 1)
  | reported o code =>
    obtain ⟨n, faults, hv⟩ := History.leave_eq s
    simp only [advance, ht, hph, hv]
    exact hmove _ (.finished o code) rfl rfl (by rw [hph]; exact Nat.lt_succ_self 0)
  | waiting | running | finished =>
    rw [hph] at hp
    exact absurd hp id

/-- The end of a transfer brings its task nearer to its end, and the task that gets the permit. -/
theorem stepsLeft_finish {o : Outcome} (ht : s.tasks[t]? = some task)
    (hp : task.phase = .running) (hw : ∀ w ∈ s.permits.line, s.phaseOf? w = some .waiting) :
    (s.finish t o).stepsLeft < s.stepsLeft := by
  have hend (s' : Session) (hk : s'.tasks = s.tasks.modify t ({ · with phase := .ended o }))
      (hr : s'.requests = s.requests) : s'.stepsLeft < s.stepsLeft := by
    have hsum := stepsLeft_task hk ht hr
    rw [hp] at hsum
    simp only [Phase.stepsLeft] at hsum
    omega
  obtain ⟨hr, hk | ⟨w, next, hn, hnp, hk⟩⟩ := finish_cases (o := o) ht hp hw
  · exact hend _ hk hr
  · have hended := hend (s.modifyTask t ({ · with phase := .ended o })) rfl rfl
    have hsum := stepsLeft_task hk hn hr
    rw [hnp] at hsum
    simp only [Phase.stepsLeft] at hsum
    omega

/-- A write is none of the steps that are counted. -/
theorem stepsLeft_write (ht : s.tasks[t]? = some task) (hp : task.phase = .running)
    (hq : s.requests[task.request]? = some q) (i : Nat) (bytes : List UInt8) :
    (s.write t i bytes).stepsLeft = s.stepsLeft := by
  let f (q : Request) : Request :=
    { q with
      buffer := q.buffer.write (task.piece.slice.start + i)
        (bytes.take (task.piece.slice.length - i)) }
  have hsum : (s.modifyRequest task.request f).stepsLeft + q.stepsLeft =
      s.stepsLeft + (f q).stepsLeft := stepsLeft_request rfl hq rfl
  simp only [write, ht, hp]
  exact Nat.add_right_cancel hsum

end Session

/-! ## Runs that come to an end -/

/-- Every submitter has answered, and every task is finished. -/
structure Session.AtEnd (s : Session) : Prop where
  rest : s.AtRest
  finished : ∀ (t : Nat) (task : Task), s.tasks[t]? = some task → task.phase.Finished

namespace History

variable {config : Config} {reply : Nat → TransferCall → Reply} {h : History}

/-- **Who waits for a permit does not wait in vain**: when nobody can take a step, all are
through. -/
theorem Reachable.atEnd (hr : h.Reachable config) (hrest : h.session.AtRest)
    (htasks : ∀ (t : Nat) (task : Task), h.session.tasks[t]? = some task →
      ¬ Session.Phase.Moves task.phase ∧ task.phase ≠ .running) : h.session.AtEnd := by
  refine ⟨hrest, ?_⟩
  intro t task ht
  obtain ⟨hmoves, hrunning⟩ := htasks t task ht
  cases hp : task.phase with
  | finished => trivial
  | waiting =>
    have hline : t ∈ h.session.permits.line :=
      hr.held.waits t (by rw [phaseOf?_of_getElem? ht, hp])
    obtain ⟨u, p, hu, hold⟩ := hr.held.holder (hr.held.full (List.ne_nil_of_mem hline))
    obtain ⟨holder, hholder, rfl⟩ := Option.map_eq_some_iff.mp hu
    obtain ⟨hidle, hnot⟩ := htasks u holder hholder
    cases hq : holder.phase with
    | running => exact absurd hq hnot
    | granted => exact absurd (hq ▸ trivial) hidle
    | launched | waiting | ended | counted | reported | finished =>
      rw [hq] at hold
      exact absurd hold id
  | running => exact absurd hp hrunning
  | launched | granted | ended | counted | reported => exact absurd (hp ▸ trivial) hmoves

/-- As long as somebody is not through, somebody can take a step that brings the end nearer. -/
theorem Supplied.exists_nearer (hs : h.Supplied reply config)
    (hfit : ∀ t call, (reply t call).bytes.length ≤ call.length) (hend : ¬ h.session.AtEnd) :
    ∃ k, Follows reply h k ∧ k.session.stopped = h.session.stopped ∧
      k.session.stepsLeft < h.session.stepsLeft := by
  have hr := hs.reachable
  have hrequest {t : Nat} {task : Task} (ht : h.session.tasks[t]? = some task) :
      ∃ q, h.session.requests[task.request]? = some q :=
    ⟨_, Array.getElem?_eq_getElem (hr.coherent.linked t task ht)⟩
  by_contra hnone
  refine hend (hr.atEnd ?rest ?tasks)
  case rest =>
    intro q hm
    obtain ⟨r, hq⟩ := Array.mem_iff_getElem?.mp hm
    by_contra hl
    have hl' : ∀ code, q.launch ≠ .answered code := fun code hcode => hl ⟨code, hcode⟩
    exact hnone ⟨h.act (.launch r), .step (.refl h) ⟨q, hq, hl'⟩ trivial,
      congrArg Prod.fst (Session.flags_launch ..),
      Session.stepsLeft_launch hq (hr.launches hq) hl'⟩
  case tasks =>
    intro t task ht
    obtain ⟨q, hq⟩ := hrequest ht
    constructor
    · intro hp
      exact hnone ⟨h.act (.advance t), .step (.refl h) ⟨task, ht, hp⟩ trivial,
        congrArg Prod.fst (Session.flags_advance ..), Session.stepsLeft_advance ht hq hp⟩
    · intro hp
      obtain ⟨call, hc⟩ := hr.coherent.callOf?_isSome ht
      obtain ⟨k, hk, hwrite, he, ho⟩ := hs.exists_written ht hp hc (hfit t call)
      have hr' := hr.reaches hk.reaches
      obtain ⟨task', ht', hp'⟩ := he
      refine hnone ⟨k.act (.finish t (reply t call).outcome), .step hk ⟨task', ht', hp'⟩ ho, ?_, ?_⟩
      · refine (congrArg Prod.fst (Session.flags_finish ..)).trans ?_
        rw [hwrite]
        exact congrArg Prod.fst (Session.flags_write ..)
      · refine Nat.lt_of_lt_of_eq (Session.stepsLeft_finish ht' hp' hr'.coherent.waiting) ?_
        rw [hwrite]
        exact Session.stepsLeft_write ht hp hq 0 _

/-- **Every run goes on to an end** at which all chunks are through, and needs no stop for it. -/
theorem Supplied.completes (hs : h.Supplied reply config)
    (hfit : ∀ t call, (reply t call).bytes.length ≤ call.length) :
    ∃ k, Follows reply h k ∧ k.session.stopped = h.session.stopped ∧ k.session.AtEnd := by
  induction hn : h.session.stepsLeft using Nat.strong_induction_on generalizing h with
  | h n ih =>
    by_cases hend : h.session.AtEnd
    · exact ⟨h, .refl h, rfl, hend⟩
    · obtain ⟨k, hk, hstop, hlt⟩ := hs.exists_nearer hfit hend
      obtain ⟨m, hm, hstop', hend'⟩ := ih _ (hn ▸ hlt) (hs.follows hk) rfl
      exact ⟨m, hk.trans hm, hstop'.trans hstop, hend'⟩

end History

end RangeFetch
