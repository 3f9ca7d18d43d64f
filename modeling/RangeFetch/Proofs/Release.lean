import RangeFetch.Proofs.Tally

/-!
# Requests that are through with their buffer

A request is `Settled` when all its tasks have ended their transfers and its submitter launches no
more. No step leads out of this, and none writes into the buffer of a settled request. A request
that succeeded is settled; one that failed need not be.

Headlines:
* **`Reachable.kept`**: the buffer of a settled request stays as it is.
* **`Reachable.settled_of_success`**: a request is settled when its success is pushed.
-/

namespace RangeFetch

/-- The transfer has ended. -/
def Phase.Ended : Phase → Prop
  | .ended _ | .counted .. | .reported .. | .finished .. => True
  | .launched | .waiting | .granted | .running => False

theorem Phase.ended_of_outcome? {p : Phase} {o : Outcome} (h : p.outcome? = some o) : p.Ended := by
  cases p with
  | ended | counted | reported | finished => trivial
  | launched | waiting | granted | running => exact absurd h (by simp [Phase.outcome?])

/-- The submitter may launch one more chunk, with the stop flag as it is. -/
def Request.MayLaunch (stopped : Bool) (q : Request) : Prop :=
  match q.launch with
  | .ready | .entered => stopped = false
  | .cleared => True
  | .barred | .answered _ => False

theorem Request.MayLaunch.of_stopped {stopped : Bool} {q : Request} (h : q.MayLaunch true) :
    q.MayLaunch stopped := by
  unfold Request.MayLaunch at h ⊢
  split at h <;> simp_all

/-- All tasks of request `r` have ended their transfers, and no more are launched. -/
structure Session.Settled (s : Session) (r : Nat) : Prop where
  launch : ∀ q, s.requests[r]? = some q → ¬ q.MayLaunch s.stopped
  tasks : ∀ (t : Nat) (task : Task), s.tasks[t]? = some task → task.request = r → task.phase.Ended

namespace History

variable {config : Config} {h k : History} {r : Nat} {q : Request}

/-- Request `r` is settled, and `b` is its buffer. -/
structure Kept (r : Nat) (b : Buffer) (h : History) : Prop where
  settled : h.session.Settled r
  buffer : ∃ q, h.session.requests[r]? = some q ∧ q.buffer = b

variable {b : Buffer}

/-- A step that moves a task of another request, or one that has ended its transfer. -/
theorem Kept.move (hi : Kept r b h) {t : Nat} {task : Task} {p : Phase}
    (ht : h.session.tasks[t]? = some task) (hp : task.phase.Ended → p.Ended)
    (hk : k.session.tasks = h.session.tasks.modify t ({ · with phase := p }))
    (hr : k.session.requests = h.session.requests)
    (hs : k.session.stopped = h.session.stopped) : Kept r b k where
  settled := by
    refine ⟨by rw [hr, hs]; exact hi.settled.launch, ?_⟩
    rw [hk]
    refine forall_modify (P := fun _ (task : Task) => task.request = r → task.phase.Ended)
      hi.settled.tasks fun old ho hold hreq => ?_
    obtain rfl := Option.some.inj (ht.symm.trans ho)
    exact hp (hold hreq)
  buffer := by rw [hr]; exact hi.buffer

/-- A step that changes a request, but not the buffer of `r`. -/
theorem Kept.change (hi : Kept r b h) {r' : Nat} {f : Request → Request}
    (hk : k.session.requests = h.session.requests.modify r' f)
    (ht : k.session.tasks = h.session.tasks) (hs : k.session.stopped = h.session.stopped)
    (hf : ∀ q, h.session.requests[r]? = some q → r' = r → q.MayLaunch h.session.stopped ∨
      (f q).buffer = q.buffer ∧ ¬ (f q).MayLaunch h.session.stopped) : Kept r b k := by
  obtain ⟨q, hq, hb⟩ := hi.buffer
  have hnew : ∃ q', k.session.requests[r]? = some q' ∧ q'.buffer = b ∧
      ¬ q'.MayLaunch h.session.stopped := by
    rw [hk, Array.getElem?_modify]
    by_cases hr : r' = r
    · obtain ⟨hbuf, hno⟩ := (hf q hq hr).resolve_left (hi.settled.launch q hq)
      rw [if_pos hr, hq]
      exact ⟨_, rfl, hbuf.trans hb, hno⟩
    · rw [if_neg hr]
      exact ⟨q, hq, hb, hi.settled.launch q hq⟩
  obtain ⟨q', hq', hb', hno⟩ := hnew
  refine ⟨⟨?_, by rw [ht]; exact hi.settled.tasks⟩, q', hq', hb'⟩
  intro q'' hq''
  obtain rfl := Option.some.inj (hq'.symm.trans hq'')
  rw [hs]
  exact hno

theorem Kept.step (hi : Kept r b h) (hs : Step h k) : Kept r b k := by
  cases hs with
  | idle | close | halt | drain | take => exact ⟨⟨hi.settled.launch, hi.settled.tasks⟩, hi.buffer⟩
  | raise =>
    refine ⟨⟨?_, hi.settled.tasks⟩, hi.buffer⟩
    intro q hq hm
    exact hi.settled.launch q hq hm.of_stopped
  | accept ha hp =>
    obtain ⟨q, hq, hb⟩ := hi.buffer
    have hne : r ≠ h.session.requests.size := Nat.ne_of_lt (Array.getElem?_eq_some_iff.mp hq).1
    have hold : ∀ x, (h.session.requests.push x)[r]? = h.session.requests[r]? := fun x => by
      rw [Array.getElem?_push, if_neg hne]
    exact ⟨⟨fun q' hq' => hi.settled.launch q' ((hold _).symm.trans hq'), hi.settled.tasks⟩,
      q, (hold _).trans hq, hb⟩
  | enter hq hl =>
    refine hi.change (requests_modifyRequest ..) rfl rfl ?_
    intro q' hq' hr
    obtain rfl := Option.some.inj (hq.symm.trans (hr ▸ hq'))
    by_cases hst : h.session.stopped = false
    · exact Or.inl (by rw [Request.MayLaunch, hl]; exact hst)
    · exact Or.inr ⟨rfl, hst⟩
  | look hq hl =>
    refine hi.change (requests_modifyRequest ..) rfl rfl ?_
    intro q' hq' hr
    obtain rfl := Option.some.inj (hq.symm.trans (hr ▸ hq'))
    cases hst : h.session.stopped with
    | false => exact Or.inl (by rw [Request.MayLaunch, hl])
    | true => exact Or.inr ⟨rfl, id⟩
  | giveUp hq hl =>
    exact hi.change (requests_modifyRequest ..) rfl rfl fun q' hq' hr => Or.inr ⟨rfl, id⟩
  | @launch r' q piece hq hl hp =>
    have hne : r' ≠ r := by
      rintro rfl
      exact hi.settled.launch q hq (by rw [Request.MayLaunch, hl]; trivial)
    obtain ⟨q₀, hq₀, hb⟩ := hi.buffer
    have hold : ∀ f, (h.session.requests.modify r' f)[r]? = h.session.requests[r]? := fun f => by
      rw [Array.getElem?_modify, if_neg hne]
    refine ⟨⟨fun q' hq' => hi.settled.launch q' ((hold _).symm.trans hq'), ?_⟩,
      q₀, (hold _).trans hq₀, hb⟩
    exact forall_push (P := fun _ (task : Task) => task.request = r → task.phase.Ended)
      hi.settled.tasks fun hr => absurd hr hne
  | grant ht hp | line ht hp | begin ht hp | push ht hp | pass ht hp | leave ht hp
  | finish ht hp =>
    refine hi.move ht ?_ (tasks_modifyTask ..) rfl rfl
    rw [hp]
    first
      | exact id
      | exact fun _ => trivial
  | @handOver t w ws task next o ht hp hw hn hnp =>
    have hne : t ≠ w := ne_of_running_waiting ht hp hn hnp
    have hmid : Kept r b { h with
        session := { h.session with permits := { h.session.permits with line := ws } }.modifyTask t
          ({ · with phase := .ended o }) } := by
      refine hi.move ht ?_ (tasks_modifyTask ..) rfl rfl
      exact fun _ => trivial
    have hn' : (h.session.tasks.modify t ({ · with phase := .ended o }))[w]? = some next := by
      rw [Array.getElem?_modify, if_neg hne]
      exact hn
    refine hmid.move hn' ?_ (tasks_modifyTask ..) rfl rfl
    rw [hnp]
    exact id
  | @count t task o q length code faults ht hp hq =>
    have hmid : Kept r b { h with
        session := { h.session with faults }.modifyRequest task.request
          (Session.tally · length o) } := by
      refine hi.change (requests_modifyRequest ..) rfl rfl ?_
      intro q' hq' hr
      rw [tally_eq]
      exact or_iff_not_imp_left.mpr fun hno => ⟨rfl, hno⟩
    refine hmid.move ht ?_ (tasks_modifyTask ..) rfl rfl
    exact fun _ => trivial
  | @write t i bytes task ht hp hn =>
    refine hi.change (requests_modifyRequest ..) rfl rfl ?_
    intro q' hq' hr
    -- a task whose transfer runs is none of a settled request
    exact absurd (hi.settled.tasks t task ht hr) (by rw [hp]; exact id)

/-- **The buffer of a settled request stays as it is.** -/
theorem Reachable.kept (hr : h.Reachable config) (hs : h.session.Settled r)
    (hq : h.session.requests[r]? = some q) (hk : h.Reaches k) : Kept r q.buffer k :=
  hk.induct hr ⟨hs, q, hq, rfl⟩ fun _ _ hi hs => hi.step hs

/-! ## Successes -/

/-- A success is pushed when all chunks are launched, and no earlier. -/
theorem Reachable.launch_of_success (hr : h.Reachable config)
    (hq : h.session.requests[r]? = some q) {p : Push} (hp : p ∈ h.pushesOf r)
    (hc : p.event.code = .success) : q.launch = .answered .success := by
  have hd := hr.decision_of_push hq hp
  rw [hc] at hd
  obtain ⟨-, hn, -⟩ := Report.decision_success hd
  have hle := (List.subperm_of_subset (hr.recorded.nodup_reportsOf r)
    (hr.recorded.reportsOf_subset r)).length_le
  rw [List.length_map, hr.length_tasksOf hq, hn] at hle
  have hl := hr.launches hq
  unfold Request.Launches at hl
  split at hl
  · exact absurd hl (Nat.not_lt.mpr hle)
  · exact absurd hl (Nat.not_lt.mpr hle)
  · exact absurd hl (Nat.not_lt.mpr hle)
  · exact absurd hl.1 (Nat.not_lt.mpr hle)
  · assumption
  · exact absurd hl.2.1 (Nat.not_lt.mpr hle)

/-- **A request is settled when its success is pushed.** -/
theorem Reachable.settled_of_success (hr : h.Reachable config)
    (hq : h.session.requests[r]? = some q) {p : Push} (hp : p ∈ h.pushesOf r)
    (hc : p.event.code = .success) : h.session.Settled r := by
  have hl := hr.launch_of_success hq hp hc
  constructor
  · intro q' hq' hm
    obtain rfl := Option.some.inj (hq.symm.trans hq')
    rw [Request.MayLaunch, hl] at hm
    exact hm
  · intro t task ht htr
    obtain ⟨task', ht', ho⟩ :=
      (hr.success_iff hq hl hp).mp hc t (mem_tasksOf.mpr ⟨task, ht, htr⟩)
    obtain rfl := Option.some.inj (ht.symm.trans ht')
    exact Phase.ended_of_outcome? ho

end History

end RangeFetch
