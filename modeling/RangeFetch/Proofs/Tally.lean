import Mathlib.Data.List.Perm.Subperm
import RangeFetch.Proofs.Records

/-!
# One event for a request

The reports of a request count down its exact transfers and latch its first failure. What each
report has to push is decided when it is counted, from the reports that were counted before it
(`Report.call`), and of the reports of one request at most one is called on (`Judged.decided`): the
first that failed, or the last when none did. The pushes come later, each by the task that was
called on, and other steps may lie between.

Headlines:
* **`Reachable.tallies`**: the countdown and the latch of a request are those of its reports.
* **`Reachable.folds`**: the chunks of a launched request are folded into one event.
-/

namespace RangeFetch

/-! ## Reports of one request -/

namespace Report

/-- The code that report `e` is called on to push, in a request of `n` chunks of which the reports
`before` were counted. -/
def call (n : Nat) (before : List Report) (e : Report) : Option Code :=
  if e.Exact then if before.countP (·.Exact) + 1 = n then some .success else none
  else if before.any (¬ ·.Exact) then none else some .fileAccess

/-- Each report has the code that the reports before it call for. -/
inductive Judged (n : Nat) : List Report → Prop where
  | nil : Judged n []
  | snoc {l : List Report} {e : Report} : Judged n l → e.code = e.call n l → Judged n (l ++ [e])

/-- The task that has to push, and what: the first that failed, or the last of `n` when none
failed. -/
def decision (n : Nat) (l : List Report) : Option (Nat × Code) :=
  match l.find? (¬ ·.Exact) with
  | some e => some (e.task, .fileAccess)
  | none => if l.length = n then l.getLast?.map fun e => (e.task, .success) else none

theorem decision_of_find {n : Nat} {l : List Report} {e : Report}
    (h : l.find? (¬ ·.Exact) = some e) : decision n l = some (e.task, .fileAccess) := by
  rw [decision, h]

theorem decision_of_all {n : Nat} {l : List Report} (h : l.find? (¬ ·.Exact) = none) :
    decision n l = if l.length = n then l.getLast?.map fun e => (e.task, .success) else none := by
  rw [decision, h]

theorem decision_success {n t : Nat} {l : List Report} (h : decision n l = some (t, .success)) :
    (∀ e ∈ l, e.Exact) ∧ l.length = n ∧ l.getLast?.map (·.task) = some t := by
  cases hf : l.find? (¬ ·.Exact) with
  | some e =>
    rw [decision_of_find hf] at h
    exact absurd h (by simp)
  | none =>
    rw [decision_of_all hf] at h
    split at h
    · rename_i hn
      obtain ⟨e, he, hte⟩ := Option.map_eq_some_iff.mp h
      refine ⟨fun e he => by simpa using List.find?_eq_none.mp hf e he, hn, ?_⟩
      rw [he, Option.map_some, ← (Prod.mk.inj hte).1]
    · exact absurd h (by simp)

theorem decision_fileAccess {n t : Nat} {l : List Report}
    (h : decision n l = some (t, .fileAccess)) :
    ∃ e, l.find? (¬ ·.Exact) = some e ∧ e.task = t := by
  cases hf : l.find? (¬ ·.Exact) with
  | some e =>
    rw [decision_of_find hf] at h
    exact ⟨e, rfl, (Prod.mk.inj (Option.some.inj h)).1⟩
  | none =>
    rw [decision_of_all hf] at h
    split at h
    · simp at h
    · simp at h

/-- When all of `n` chunks are counted, a decision has been made. -/
theorem exists_decision {n : Nat} {l : List Report} (hn : l.length = n) (h0 : 0 < n) :
    ∃ d, decision n l = some d := by
  cases hf : l.find? (¬ ·.Exact) with
  | some e => exact ⟨_, decision_of_find hf⟩
  | none =>
    have hne : l ≠ [] := List.ne_nil_of_length_pos (hn ▸ h0)
    rw [decision_of_all hf, if_pos hn, List.getLast?_eq_getLast_of_ne_nil hne]
    exact ⟨_, rfl⟩

theorem countP_lt_of_find {l : List Report} {e : Report} (h : l.find? (¬ ·.Exact) = some e) :
    l.countP (·.Exact) < l.length := by
  refine Nat.lt_of_le_of_ne List.countP_le_length ?_
  intro heq
  have hex := List.countP_eq_length.mp heq e (List.mem_of_find?_eq_some h)
  have hnot := List.find?_some h
  simp_all

theorem countP_of_find_eq_none {l : List Report} (h : l.find? (¬ ·.Exact) = none) :
    l.countP (·.Exact) = l.length := by
  refine List.countP_eq_length.mpr ?_
  intro e he
  simpa using List.find?_eq_none.mp h e he

theorem any_of_find {l : List Report} {e : Report} (h : l.find? (¬ ·.Exact) = some e) :
    l.any (¬ ·.Exact) = true := by
  have hnot := List.find?_some h
  exact List.any_eq_true.mpr ⟨e, List.mem_of_find?_eq_some h, hnot⟩

theorem any_of_find_eq_none {l : List Report} (h : l.find? (¬ ·.Exact) = none) :
    l.any (¬ ·.Exact) = false := by
  refine List.any_eq_false.mpr ?_
  intro e he
  simpa using List.find?_eq_none.mp h e he

/-- **At most one report is called on**, and it is the decisive one. -/
theorem Judged.decided {n : Nat} {l : List Report} (hj : Judged n l) (hn : l.length ≤ n) :
    l.filterMap (fun e => e.code.map (e.task, ·)) = (decision n l).toList := by
  induction hj with
  | nil =>
    unfold decision
    split <;> simp_all
  | @snoc l e hj he ih =>
    rw [List.length_append, List.length_singleton] at hn
    rw [List.filterMap_append, ih (by omega)]
    cases hf : l.find? (¬ ·.Exact) with
    | some f =>
      -- a failure was counted before: nobody is called on any more
      have hcall : e.call n l = none := by
        have hlt := countP_lt_of_find hf
        unfold call
        split
        · rw [if_neg (by omega)]
        · rw [if_pos (any_of_find hf)]
      have hf' : (l ++ [e]).find? (¬ ·.Exact) = some f := by
        rw [List.find?_append, hf, Option.some_or]
      rw [decision_of_find hf, decision_of_find hf']
      simp [he, hcall]
    | none =>
      rw [decision_of_all hf, if_neg (by omega)]
      by_cases hx : e.Exact
      · have hcall : e.call n l = if l.length + 1 = n then some .success else none := by
          rw [call, if_pos hx, countP_of_find_eq_none hf]
        have hf' : (l ++ [e]).find? (¬ ·.Exact) = none := by
          rw [List.find?_append, hf]
          simp [hx]
        rw [decision_of_all hf', List.length_append, List.length_singleton]
        by_cases hlast : l.length + 1 = n
        · simp [he, hcall, hlast]
        · simp [he, hcall, hlast]
      · have hcall : e.call n l = some .fileAccess := by
          rw [call, if_neg hx, if_neg (by rw [any_of_find_eq_none hf]; decide)]
        have hf' : (l ++ [e]).find? (¬ ·.Exact) = some e := by
          rw [List.find?_append, hf]
          simp [hx]
        rw [decision_of_find hf']
        simp [he, hcall]

end Report

/-! ## The countdown and the latch -/

/-- The state of request `q` is what the reports `l` leave of it. -/
structure Request.Tallies (q : Request) (l : List Report) : Prop where
  remaining : q.remaining + l.countP (·.Exact) = q.pieces.size
  failed : q.failed = l.any (¬ ·.Exact)
  judged : Report.Judged q.pieces.size l

namespace Request.Tallies

variable {q q' : Request} {l : List Report} {e : Report}

theorem congr (h : q.Tallies l) (hr : q'.remaining = q.remaining) (hf : q'.failed = q.failed)
    (hp : q'.pieces = q.pieces) : q'.Tallies l where
  remaining := by rw [hr, hp]; exact h.remaining
  failed := hf.trans h.failed
  judged := hp ▸ h.judged

/-- What a report is told to push is what the reports before it call for. -/
theorem verdict_eq (h : q.Tallies l) :
    Session.verdict q e.length e.outcome = e.call q.pieces.size l := by
  have hone : q.remaining = 1 ↔ l.countP (·.Exact) + 1 = q.pieces.size := by
    have hsum := h.remaining
    omega
  unfold Session.verdict Report.call
  rw [h.failed]
  simp only [hone]
  rfl

theorem snoc (h : q.Tallies l) (hlt : l.length < q.pieces.size)
    (he : e.code = Session.verdict q e.length e.outcome) :
    (Session.tally q e.length e.outcome).Tallies (l ++ [e]) := by
  have hsum := h.remaining
  have hle : l.countP (·.Exact) ≤ l.length := List.countP_le_length
  rw [tally_eq]
  refine ⟨?_, ?_, .snoc h.judged (he.trans h.verdict_eq)⟩
  · rw [List.countP_append, List.countP_singleton]
    by_cases hx : e.Exact
    · rw [if_pos (show Outcome.Exact _ _ from hx), if_pos (by simpa using hx)]
      show q.remaining - 1 + (l.countP (·.Exact) + 1) = q.pieces.size
      omega
    · rw [if_neg (show ¬ Outcome.Exact _ _ from hx), if_neg (by simpa using hx)]
      exact hsum
  · rw [List.any_append, ← h.failed, List.any_cons, List.any_nil, Bool.or_false, decide_not]
    rfl

end Request.Tallies

/-- Task `t` has reported. -/
def Session.Reported (s : Session) (t : Nat) : Prop :=
  ∃ task, s.tasks[t]? = some task ∧ task.phase.Reported

instance (s : Session) : DecidablePred s.Reported := fun t =>
  inferInstanceAs (Decidable (∃ task ∈ s.tasks[t]?, task.phase.Reported))

/-- The transfer of task `t` returned exactly the length of its chunk. -/
def Session.Transferred (s : Session) (t : Nat) : Prop :=
  ∃ task, s.tasks[t]? = some task ∧
    task.phase.outcome? = some (.returned task.piece.range.length.toNat)

namespace History

variable {config : Config} {h k : History} {r : Nat} {q : Request}

theorem Recorded.nodup_reportsOf (hi : h.Recorded) (r : Nat) :
    ((h.reportsOf r).map (·.task)).Nodup :=
  hi.reports.nodup.sublist (List.filter_sublist.map _)

theorem Recorded.reportsOf_subset (hi : h.Recorded) (r : Nat) :
    (h.reportsOf r).map (·.task) ⊆ h.session.tasksOf r := by
  intro t ht
  obtain ⟨e, he, rfl⟩ := List.mem_map.mp ht
  obtain ⟨hm, rfl⟩ := mem_reportsOf.mp he
  obtain ⟨task, htask, hreq, -, -⟩ := hi.mem_reports.mp hm
  exact mem_tasksOf.mpr ⟨task, htask, hreq.symm⟩

/-- There are no more reports than tasks, and fewer when a task was not counted. -/
theorem Recorded.length_reportsOf_lt (hi : h.Recorded) {t : Nat} {task : Task}
    (ht : h.session.tasks[t]? = some task) (hr : task.request = r)
    (hp : task.phase.count? = none) : (h.reportsOf r).length < (h.session.tasksOf r).length := by
  have hnew : t ∉ (h.reportsOf r).map (·.task) := by
    intro hm
    obtain ⟨e, he, rfl⟩ := List.mem_map.mp hm
    obtain ⟨task', ht', -, -, hc⟩ := hi.mem_reports.mp (mem_reportsOf.mp he).1
    obtain rfl := Option.some.inj (ht.symm.trans ht')
    exact absurd (hp.symm.trans hc) (by simp)
  have hnodup : (t :: (h.reportsOf r).map (·.task)).Nodup :=
    List.nodup_cons.mpr ⟨hnew, hi.nodup_reportsOf r⟩
  have hsub : (t :: (h.reportsOf r).map (·.task)) ⊆ h.session.tasksOf r :=
    List.cons_subset.mpr ⟨mem_tasksOf.mpr ⟨task, ht, hr⟩, hi.reportsOf_subset r⟩
  have hle := (List.subperm_of_subset hnodup hsub).length_le
  rwa [List.length_cons, List.length_map] at hle

theorem Reachable.length_reportsOf_le (hr : h.Reachable config)
    (hq : h.session.requests[r]? = some q) : (h.reportsOf r).length ≤ q.pieces.size := by
  have hle := (List.subperm_of_subset (hr.recorded.nodup_reportsOf r)
    (hr.recorded.reportsOf_subset r)).length_le
  rw [List.length_map, hr.length_tasksOf hq] at hle
  exact Nat.le_trans hle (hr.launches hq).launched_le

/-- The state of every request is what its reports leave of it. -/
def Tallied (h : History) : Prop :=
  ∀ (r : Nat) (q : Request), h.session.requests[r]? = some q → q.Tallies (h.reportsOf r)

/-- A step that counts nothing. -/
theorem Tallied.modify (hi : h.Tallied) {f : Request → Request}
    (hk : k.session.requests = h.session.requests.modify r f) (hl : k.reports = h.reports)
    (hf : ∀ q, (f q).remaining = q.remaining ∧ (f q).failed = q.failed ∧ (f q).pieces = q.pieces) :
    k.Tallied := by
  unfold Tallied
  rw [hk]
  refine forall_modify (P := fun r (q : Request) => q.Tallies (k.reportsOf r)) ?_ ?_
  · unfold reportsOf
    rw [hl]
    exact hi
  · intro q _ hq
    exact hq.congr (hf q).1 (hf q).2.1 (hf q).2.2

theorem Tallied.step (hr : h.Reachable config) (hi : h.Tallied) (hs : Step h k) : k.Tallied := by
  cases hs with
  | @accept x l pieces ha hp =>
    refine forall_push hi ?_
    have hnone : h.reportsOf h.session.requests.size = [] := by
      refine List.eq_nil_iff_forall_not_mem.mpr ?_
      intro e he
      obtain ⟨hm, hreq⟩ := mem_reportsOf.mp he
      obtain ⟨task, ht, hreq', -, -⟩ := hr.recorded.mem_reports.mp hm
      exact absurd (hr.coherent.linked _ task ht) (by omega)
    show Request.Tallies _ (h.reportsOf _)
    rw [hnone]
    exact ⟨rfl, rfl, .nil⟩
  | enter | look | giveUp | launch | write =>
    exact hi.modify (requests_modifyRequest ..) rfl fun _ => ⟨rfl, rfl, rfl⟩
  | @count t task o q length code faults ht hp hq hlen hc =>
    have hlt : (h.reportsOf task.request).length < q.pieces.size := by
      have hlt := hr.recorded.length_reportsOf_lt ht rfl (by rw [hp]; rfl)
      rw [hr.length_tasksOf hq] at hlt
      exact Nat.lt_of_lt_of_le hlt (hr.launches hq).launched_le
    intro r q' hq'
    obtain ⟨a, ha, rfl⟩ := getElem?_modify_eq_some hq'
    show Request.Tallies _ (List.filter _ (h.reports ++ _))
    rw [List.filter_append]
    by_cases hr' : task.request = r
    · subst hr'
      obtain rfl := Option.some.inj (hq.symm.trans ha)
      rw [if_pos rfl, List.filter_cons_of_pos (by simp), List.filter_nil]
      exact (hi _ _ hq).snoc (e := ⟨t, task.request, length, o, code⟩) hlt hc
    · rw [if_neg hr', List.filter_cons_of_neg (by simpa using hr'), List.filter_nil,
        List.append_nil]
      exact hi r a ha
  | idle | grant | line | begin | push | pass | leave | finish | handOver | close | raise | halt
  | drain | take => exact hi

theorem Reachable.tallies (hr : h.Reachable config) (hq : h.session.requests[r]? = some q) :
    q.Tallies (h.reportsOf r) :=
  hr.induct (P := Tallied) (fun r q hq => absurd hq (by simp [new]))
    (fun hk _ hi hs => hi.step hk hs) r q hq

/-! ## The decisive report -/

/-- The reports of a request that are called on are the decisive one, if there is one. -/
theorem Reachable.decided (hr : h.Reachable config) (hq : h.session.requests[r]? = some q) :
    (h.reportsOf r).filterMap (fun e => e.code.map (e.task, ·)) =
      (Report.decision q.pieces.size (h.reportsOf r)).toList :=
  (hr.tallies hq).judged.decided (hr.length_reportsOf_le hq)

/-- What is pushed for a request is the decision over its reports. -/
theorem Reachable.decision_of_push (hr : h.Reachable config)
    (hq : h.session.requests[r]? = some q) {p : Push} (hp : p ∈ h.pushesOf r) :
    Report.decision q.pieces.size (h.reportsOf r) = some (p.task, p.event.code) := by
  obtain ⟨hm, hpr⟩ := mem_pushesOf.mp hp
  obtain ⟨task, ht, hreq, -, hpush⟩ := hr.recorded.mem_pushes.mp hm
  obtain ⟨o, hc⟩ := Phase.count?_of_pushed? hpush
  have he : (⟨p.task, r, task.piece.range.length.toNat, o, some p.event.code⟩ : Report) ∈
      h.reportsOf r :=
    mem_reportsOf.mpr ⟨hr.recorded.mem_reports.mpr ⟨task, ht, hpr.symm.trans hreq, rfl, hc⟩, rfl⟩
  rw [← Option.mem_toList, ← hr.decided hq]
  exact List.mem_filterMap.mpr ⟨_, he, rfl⟩

theorem Reachable.event_of_push (hr : h.Reachable config)
    (hq : h.session.requests[r]? = some q) {p : Push} (hp : p ∈ h.pushesOf r) :
    p.event = ⟨q.id, .success⟩ ∨ p.event = ⟨q.id, .fileAccess⟩ := by
  obtain ⟨hm, rfl⟩ := mem_pushesOf.mp hp
  obtain ⟨task, -, hreq, hid, -⟩ := hr.recorded.mem_pushes.mp hm
  rw [← hreq, Session.idOf?, hq, Option.map_some, Option.some.injEq] at hid
  obtain ⟨t, r, id, c⟩ := p
  obtain rfl : q.id = id := hid
  rcases hr.delivered.pushes _ hm with hc | hc
  · obtain rfl : c = _ := hc
    exact Or.inl rfl
  · obtain rfl : c = _ := hc
    exact Or.inr rfl

theorem Reachable.length_pushesOf_le (hr : h.Reachable config)
    (hq : h.session.requests[r]? = some q) : (h.pushesOf r).length ≤ 1 := by
  have hnodup : ((h.pushesOf r).map (·.task)).Nodup :=
    hr.recorded.pushes.nodup.sublist (List.filter_sublist.map _)
  have hsub : (h.pushesOf r).map (·.task) ⊆
      (Report.decision q.pieces.size (h.reportsOf r)).toList.map Prod.fst := by
    intro t ht
    obtain ⟨p, hp, rfl⟩ := List.mem_map.mp ht
    rw [hr.decision_of_push hq hp]
    exact List.mem_singleton_self _
  have hle := (List.subperm_of_subset hnodup hsub).length_le
  rw [List.length_map, List.length_map] at hle
  exact Nat.le_trans hle (by cases Report.decision q.pieces.size (h.reportsOf r) <;> simp)

/-! ## Launched requests -/


/-- A submitter that answered `success` has launched all chunks. -/
theorem Reachable.launched_eq (hr : h.Reachable config) (hq : h.session.requests[r]? = some q)
    (hl : q.launch = .answered .success) : q.launched = q.pieces.size := by
  have hn := hr.launches hq
  rwa [Request.Launches, hl] at hn

/-- When as many chunks are counted as were launched, every task is. -/
theorem Reachable.tasksOf_subset (hr : h.Reachable config) (hq : h.session.requests[r]? = some q)
    (hn : (h.reportsOf r).length = q.launched) :
    h.session.tasksOf r ⊆ (h.reportsOf r).map (·.task) := by
  have hperm := List.subperm_of_subset (hr.recorded.nodup_reportsOf r)
    (hr.recorded.reportsOf_subset r)
  refine (hperm.perm_of_length_le (Nat.le_of_eq ?_)).symm.subset
  rw [List.length_map, hr.length_tasksOf hq, hn]

/-- When every task has reported, the request has its event. -/
theorem Reachable.length_pushesOf (hr : h.Reachable config)
    (hq : h.session.requests[r]? = some q) (hl : q.launch = .answered .success)
    (hall : ∀ t ∈ h.session.tasksOf r, h.session.Reported t) : (h.pushesOf r).length = 1 := by
  have hsub : h.session.tasksOf r ⊆ (h.reportsOf r).map (·.task) := by
    intro t ht
    obtain ⟨task, htask, hp⟩ := hall t ht
    obtain ⟨o, hc⟩ := hp.count?
    obtain ⟨task', htask', hreq⟩ := mem_tasksOf.mp ht
    obtain rfl := Option.some.inj (htask.symm.trans htask')
    exact List.mem_map.mpr ⟨⟨t, r, task.piece.range.length.toNat, o, task.phase.pushed?⟩,
      mem_reportsOf.mpr ⟨hr.recorded.mem_reports.mpr ⟨task, htask, hreq.symm, rfl, hc⟩, rfl⟩, rfl⟩
  have hn : (h.reportsOf r).length = q.pieces.size := by
    have hle := (List.subperm_of_subset (nodup_tasksOf h.session r) hsub).length_le
    rw [hr.length_tasksOf hq, hr.launched_eq hq hl, List.length_map] at hle
    exact Nat.le_antisymm (hr.length_reportsOf_le hq) hle
  obtain ⟨x, -, ha⟩ := hr.answers hq
  obtain ⟨⟨t, c⟩, hd⟩ := Report.exists_decision hn ha.pieces_pos
  have hmem : (t, c) ∈ (h.reportsOf r).filterMap (fun e => e.code.map (e.task, ·)) := by
    rw [hr.decided hq, hd]
    exact List.mem_singleton_self _
  obtain ⟨e, he, hec⟩ := List.mem_filterMap.mp hmem
  obtain ⟨c', hc', hte⟩ := Option.map_eq_some_iff.mp hec
  obtain ⟨rfl, rfl⟩ := Prod.mk.inj hte
  obtain ⟨hm, hreq⟩ := mem_reportsOf.mp he
  obtain ⟨task, htask, hreq', -, hcount⟩ := hr.recorded.mem_reports.mp hm
  obtain ⟨task', htask', hp⟩ := hall e.task (mem_tasksOf.mpr ⟨task, htask, hreq'.symm.trans hreq⟩)
  obtain rfl := Option.some.inj (htask.symm.trans htask')
  obtain ⟨o, hc⟩ := hp.count?
  have hpush : task.phase.pushed? = some c' := by
    rw [hcount] at hc
    rw [← (Prod.mk.inj (Option.some.inj hc)).2, hc']
  have hin : (⟨e.task, r, ⟨q.id, c'⟩⟩ : Push) ∈ h.pushesOf r := by
    refine mem_pushesOf.mpr ⟨hr.recorded.mem_pushes.mpr ⟨task, htask, ?_, ?_, hpush⟩, rfl⟩
    · exact hreq.symm.trans hreq'
    · rw [← hreq', hreq, Session.idOf?, hq, Option.map_some]
  exact Nat.le_antisymm (hr.length_pushesOf_le hq) (List.length_pos_of_mem hin)

/-- The event is a success exactly when every chunk transferred its length. -/
theorem Reachable.success_iff (hr : h.Reachable config) (hq : h.session.requests[r]? = some q)
    (hl : q.launch = .answered .success) {p : Push} (hp : p ∈ h.pushesOf r) :
    p.event.code = .success ↔ ∀ t ∈ h.session.tasksOf r, h.session.Transferred t := by
  have hd := hr.decision_of_push hq hp
  constructor
  · intro hc t ht
    rw [hc] at hd
    obtain ⟨hexact, hn, -⟩ := Report.decision_success hd
    have hsub := hr.tasksOf_subset hq (hn.trans (hr.launched_eq hq hl).symm)
    obtain ⟨e, he, rfl⟩ := List.mem_map.mp (hsub ht)
    obtain ⟨task, htask, -, hlen, hcount⟩ :=
      hr.recorded.mem_reports.mp (mem_reportsOf.mp he).1
    refine ⟨task, htask, ?_⟩
    rw [Phase.outcome?_of_count? hcount, ← hlen]
    exact congrArg some (hexact e he)
  · intro hall
    rcases hr.event_of_push hq hp with hev | hev
    · rw [hev]
    · rw [hev] at hd
      obtain ⟨e, hf, -⟩ := Report.decision_fileAccess hd
      have hm := List.mem_of_find?_eq_some hf
      have hnot : ¬ e.Exact := by simpa using List.find?_some hf
      obtain ⟨task, htask, -, hlen, hcount⟩ :=
        hr.recorded.mem_reports.mp (mem_reportsOf.mp hm).1
      obtain ⟨task', htask', hout⟩ :=
        hall e.task (hr.recorded.reportsOf_subset r (List.mem_map_of_mem hm))
      obtain rfl := Option.some.inj (htask.symm.trans htask')
      rw [Phase.outcome?_of_count? hcount, ← hlen, Option.some.injEq] at hout
      exact absurd hout hnot

/-! ## The report of a chunk, step by step -/

/-- The report of a chunk is counted at once, whatever the other tasks do, and it is called on by
the reports that were counted before. -/
theorem Reachable.act_count (hr : h.Reachable config) {t : Nat} {task : Task} {o : Outcome}
    (ht : h.session.tasks[t]? = some task) (hp : task.phase = .ended o)
    (hq : h.session.requests[task.request]? = some q) :
    ∃ e : Report, e.task = t ∧ e.length = task.piece.range.length.toNat ∧ e.outcome = o ∧
      e.code = e.call q.pieces.size (h.reportsOf task.request) ∧
      (h.act (.advance t)).reportsOf task.request = h.reportsOf task.request ++ [e] ∧
      (h.act (.advance t)).session.phaseOf? t = some (.counted o e.code) := by
  obtain ⟨length, hlen⟩ : ∃ n, n = task.piece.range.length.toNat := ⟨_, rfl⟩
  refine ⟨⟨t, task.request, length, o, Session.verdict q length o⟩, rfl, hlen, rfl,
    (hr.tallies hq).verdict_eq (e := ⟨_, _, _, _, _⟩), ?_, ?_⟩
  · unfold reportsOf act
    simp [ht, hp, hq, hlen]
  · have hc : h.session.advance t = h.session.count t task.request length o := by
      simp only [Session.advance, ht, hp, hlen]
    show (h.session.advance t).phaseOf? t = _
    rw [hc, Session.count, hq, phaseOf?_modify (tasks_modifyTask ..), if_pos rfl]
    show Option.map _ (h.session.phaseOf? t) = _
    rw [phaseOf?_of_getElem? ht, Option.map_some]

/-- What a report was called on to push is pushed by the next step of its task, whatever the other
tasks do. -/
theorem Reachable.act_push {t : Nat} {task : Task} {o : Outcome} {c : Code}
    (ht : h.session.tasks[t]? = some task) (hp : task.phase = .counted o (some c))
    (hq : h.session.requests[task.request]? = some q) :
    (h.act (.advance t)).pushes = h.pushes ++ [⟨t, task.request, ⟨q.id, c⟩⟩] := by
  simp [act, ht, hp, hq]

/-! ## One event -/

/-- How the chunks of request `r`, whose state is `q`, are folded into one event. -/
structure Folds (h : History) (r : Nat) (q : Request) : Prop where
  /-- Every chunk has a task, and one only. -/
  chunks : (h.session.tasksOf r).map h.session.pieceOf? = q.pieces.toList.map some
  /-- The reports are those of the tasks that were counted, with the outcomes of their transfers. -/
  reports : ∀ e, e ∈ h.reportsOf r ↔ ∃ task, h.session.tasks[e.task]? = some task ∧
    task.request = r ∧ e.request = r ∧ e.length = task.piece.range.length.toNat ∧
    task.phase.count? = some (e.outcome, e.code)
  /-- What is pushed goes through the queue. -/
  queued : h.taken ++ h.session.queue.events = h.pushes.map (·.event)
  event : ∀ p ∈ h.pushesOf r, p.event = ⟨q.id, .success⟩ ∨ p.event = ⟨q.id, .fileAccess⟩
  once : (h.pushesOf r).length ≤ 1
  complete : (∀ t ∈ h.session.tasksOf r, h.session.Reported t) → (h.pushesOf r).length = 1
  success_iff : ∀ p ∈ h.pushesOf r,
    (p.event.code = .success ↔ ∀ t ∈ h.session.tasksOf r, h.session.Transferred t)
  /-- A success is pushed by the report that completes the countdown. -/
  last : ∀ p ∈ h.pushesOf r, p.event.code = .success →
    (h.reportsOf r).length = q.pieces.size ∧
      (h.reportsOf r).getLast?.map (·.task) = some p.task
  /-- A failure is pushed by the first report that failed. -/
  first : ∀ p ∈ h.pushesOf r, p.event.code = .fileAccess →
    ((h.reportsOf r).find? (¬ ·.Exact)).map (·.task) = some p.task
  /-- A chunk whose transfer has ended may be counted next, whatever the other tasks do. -/
  count : ∀ (t : Nat) (task : Task) (o : Outcome), h.session.tasks[t]? = some task →
    task.request = r → task.phase = .ended o → h.session.Enabled (.advance t) ∧
      ∃ e : Report, e.task = t ∧ e.length = task.piece.range.length.toNat ∧ e.outcome = o ∧
        e.code = e.call q.pieces.size (h.reportsOf r) ∧
        (h.act (.advance t)).reportsOf r = h.reportsOf r ++ [e] ∧
        (h.act (.advance t)).session.phaseOf? t = some (.counted o e.code)
  /-- A report that is called on may push next, whatever the other tasks do. -/
  push : ∀ (t : Nat) (task : Task) (o : Outcome) (c : Code), h.session.tasks[t]? = some task →
    task.request = r → task.phase = .counted o (some c) → h.session.Enabled (.advance t) ∧
      (h.act (.advance t)).pushes = h.pushes ++ [⟨t, r, ⟨q.id, c⟩⟩]

/-- **The chunks of a launched request are folded into one event.** -/
theorem Reachable.folds (hr : h.Reachable config) (hq : h.session.requests[r]? = some q)
    (hl : q.launch = .answered .success) : h.Folds r q where
  chunks := by
    rw [map_piece_tasksOf, hr.piecesOf hq, hr.launched_eq hq hl, ← Array.length_toList,
      List.take_length]
  reports e := by
    rw [mem_reportsOf, hr.recorded.mem_reports]
    constructor
    · rintro ⟨⟨task, ht, hreq, hlen, hc⟩, rfl⟩
      exact ⟨task, ht, hreq.symm, rfl, hlen, hc⟩
    · rintro ⟨task, ht, htr, her, hlen, hc⟩
      exact ⟨⟨task, ht, her.trans htr.symm, hlen, hc⟩, her⟩
  queued := hr.taken_append_events
  event p hp := hr.event_of_push hq hp
  once := hr.length_pushesOf_le hq
  complete := hr.length_pushesOf hq hl
  success_iff p hp := hr.success_iff hq hl hp
  last p hp hc := by
    have hd := hr.decision_of_push hq hp
    rw [hc] at hd
    exact (Report.decision_success hd).2
  first p hp hc := by
    have hd := hr.decision_of_push hq hp
    rw [hc] at hd
    obtain ⟨e, he, ht⟩ := Report.decision_fileAccess hd
    rw [he, Option.map_some, ht]
  count t task o ht htr hp := by
    subst htr
    exact ⟨⟨task, ht, hp ▸ trivial⟩, hr.act_count ht hp hq⟩
  push t task o c ht htr hp := by
    subst htr
    exact ⟨⟨task, ht, hp ▸ trivial⟩, act_push ht hp hq⟩

/-- Of two chunks the second fails first: the failure is pushed while the transfer of the first one
runs, and its end pushes nothing. -/
theorem folds_of_failure :
    ∃ h q, Reachable .fours h ∧ h.session.requests[0]? = some q ∧
      q.launch = .answered .success ∧ h.Folds 0 q ∧
      h.pushesOf 0 = [⟨1, 0, ⟨1, .fileAccess⟩⟩] := by
  let h := (new .fours).run (Session.bothRun ++
    [.finish 1 .failed, .advance 1, .advance 1, .finish 0 (.returned 4), .advance 0, .advance 0])
  have hr : Reachable .fours h := .ofRun .fours _ (by decide +kernel) (by decide +kernel)
  have hq : ∃ q ∈ h.session.requests[0]?, q.launch = .answered .success := by decide +kernel
  obtain ⟨q, hq, hl⟩ := hq
  exact ⟨h, q, hr, hq, hl, hr.folds hq hl, by decide +kernel⟩

end History

end RangeFetch
