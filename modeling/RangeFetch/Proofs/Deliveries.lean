import RangeFetch.Proofs.Tally
import RangeFetch.Session.Call

/-!
# What there is to wait for

An accepted request registers one completion, and handing a completion out takes it back, so that
`outstanding` counts the queued events and the requests that are still `due` one. A failed request
has had its event while some of its chunks may run on; nobody waits for these.

Headlines:
* **`Reachable.outstanding_eq`**: what is registered is queued or due.
* **`Reachable.next?_eq_none_iff`**: a consumer waits exactly when nothing is queued and something
  is due.
* **`reaches_waitFor`**: a caller that fills slots takes the completions one after the other.
* **`Reachable.waits`**: when no submitter is on its way, what is due has a chunk that has not
  reported; and when all chunks have reported, hand-outs give the undelivered events and then
  sentinels.
-/

namespace RangeFetch

/-- Numbers below a bound that stand in a list without duplicates, and those that do not. -/
theorem length_add_length_filter {l : List Nat} {n : Nat} (hl : l.Nodup) (hb : ∀ x ∈ l, x < n) :
    l.length + ((List.range n).filter (· ∉ l)).length = n := by
  have hperm : ((List.range n).filter (· ∈ l)).Perm l := by
    refine (List.perm_ext_iff_of_nodup (List.nodup_range.filter _) hl).mpr ?_
    intro x
    rw [List.mem_filter, List.mem_range, decide_eq_true_eq]
    exact ⟨And.right, fun hx => ⟨hb x hx, hx⟩⟩
  have hsum := List.length_eq_length_filter_add (l := List.range n) (decide <| · ∈ l)
  rw [List.length_range, hperm.length_eq] at hsum
  simpa using hsum.symm

instance (l : Launch) : Decidable (∃ code, l = .answered code) :=
  match l with
  | .answered code => isTrue ⟨code, rfl⟩
  | .ready | .entered | .cleared | .barred => isFalse fun ⟨_, h⟩ => Launch.noConfusion h

namespace Session

/-- Every submitter has answered. -/
def AtRest (s : Session) : Prop :=
  ∀ q ∈ s.requests, ∃ code, q.launch = .answered code

instance (s : Session) : Decidable s.AtRest :=
  inferInstanceAs (Decidable (∀ q ∈ s.requests, ∃ code, q.launch = .answered code))

/-- What `n` hand-outs in a row give. -/
def handOuts : (n : Nat) → Session → List (Option Completion)
  | 0, _ => []
  | n + 1, s =>
    match s.next? with
    | none => none :: handOuts n s
    | some (e, s') => some e :: handOuts n s'

theorem handOuts_succ {s s' : Session} {e : Completion} (h : s.next? = some (e, s')) (n : Nat) :
    s.handOuts (n + 1) = some e :: s'.handOuts n := by
  rw [handOuts, h]

/-- When nothing is to be waited for, hand-outs give the queued events and then sentinels. -/
theorem handOuts_eq {s : Session} (hs : s.submitted = false → s.queue.events = [])
    (hq : s.queue.stopped = false) (ho : s.queue.outstanding = s.queue.events.length) (n : Nat) :
    s.handOuts n = (List.range n).map fun i => some (s.queue.events.getD i .finished) := by
  induction n generalizing s with
  | zero => rfl
  | succ n ih =>
    rw [List.range_succ_eq_map, List.map_cons, List.map_map]
    cases he : s.queue.events with
    | nil =>
      have hnext : s.next? = some (.finished, s) := by
        rw [he] at ho
        simp [next?, CompletionQueue.take?, hq, he, ho]
      rw [handOuts_succ hnext, ih hs hq ho, he]
      rfl
    | cons e es =>
      have hsub : s.submitted = true := by
        by_contra hsub
        exact absurd (hs (by simpa using hsub)) (by simp [he])
      have hnext : s.next? = some (e, { s with
          queue := { s.queue with events := es, outstanding := s.queue.outstanding - 1 } }) := by
        simp [next?, CompletionQueue.take?, hsub, hq, he]
      rw [handOuts_succ hnext]
      refine congrArg (some e :: ·) (ih ?_ hq ?_)
      · exact fun hf => absurd hf (by simp [hsub])
      · simp [ho, he]

end Session

namespace History

variable {config : Config} {h k : History}

/-- The accepted requests whose event is not pushed yet. -/
def due (h : History) : List Nat :=
  (List.range h.session.requests.size).filter (· ∉ h.pushes.map (·.request))

theorem mem_due {r : Nat} :
    r ∈ h.due ↔ r < h.session.requests.size ∧ h.pushesOf r = [] := by
  unfold due pushesOf
  rw [List.mem_filter, List.mem_range, decide_eq_true_eq, List.filter_eq_nil_iff, List.mem_map]
  simp only [not_exists, not_and, decide_eq_true_eq]

/-! ## One push for a request -/

theorem Reachable.request_lt (hr : h.Reachable config) {p : Push} (hp : p ∈ h.pushes) :
    p.request < h.session.requests.size := by
  obtain ⟨task, ht, hreq, -, -⟩ := hr.recorded.mem_pushes.mp hp
  exact hreq ▸ hr.coherent.linked _ task ht

theorem Reachable.nodup_requests (hr : h.Reachable config) :
    (h.pushes.map (·.request)).Nodup := by
  refine List.nodup_iff_count.mpr ?_
  intro r
  have hcount : (h.pushes.map (·.request)).count r = (h.pushesOf r).length := by
    rw [List.count, List.countP_map, List.countP_eq_length_filter]
    rfl
  rw [hcount]
  cases hq : h.session.requests[r]? with
  | some q => exact hr.length_pushesOf_le hq
  | none =>
    have hnone : h.pushesOf r = [] := by
      refine List.eq_nil_iff_forall_not_mem.mpr ?_
      intro p hp
      obtain ⟨hm, rfl⟩ := mem_pushesOf.mp hp
      exact absurd (Array.getElem?_eq_none_iff.mp hq) (Nat.not_le.mpr (hr.request_lt hm))
    simp [hnone]

/-- Every request has its event pushed, or it is due one. -/
theorem Reachable.pushes_add_due (hr : h.Reachable config) :
    h.pushes.length + h.due.length = h.session.requests.size := by
  have hsum := length_add_length_filter (n := h.session.requests.size) hr.nodup_requests
    (by
      intro r hm
      obtain ⟨p, hp, rfl⟩ := List.mem_map.mp hm
      exact hr.request_lt hp)
  rwa [List.length_map] at hsum

theorem Reachable.taken_add_events (hr : h.Reachable config) :
    h.taken.length + h.session.queue.events.length = h.pushes.length := by
  rw [← List.length_append, hr.taken_append_events, List.length_map]

/-! ## The outstanding completions -/

/-- Each accepted request was registered, and each hand-out was taken off. -/
structure Balanced (h : History) : Prop where
  outstanding : h.session.queue.outstanding + h.taken.length = h.session.requests.size
  submitted : h.session.submitted = false → h.session.requests.size = 0
  stopped : h.session.queue.stopped = true → h.session.stopped = true
  closers : ∀ (i : Nat) (c : Closer), h.session.closers[i]? = some c →
    c.closing ≠ .raising → h.session.stopped = true

/-- A step that neither registers nor hands out. -/
theorem Balanced.congr (hi : h.Balanced) (hq : k.session.queue = h.session.queue)
    (ht : k.taken = h.taken) (hr : k.session.requests.size = h.session.requests.size)
    (hs : k.session.submitted = h.session.submitted) (hst : k.session.stopped = h.session.stopped)
    (hc : k.session.closers = h.session.closers) : k.Balanced where
  outstanding := by rw [hq, ht, hr]; exact hi.outstanding
  submitted := by rw [hs, hr]; exact hi.submitted
  stopped := by rw [hq, hst]; exact hi.stopped
  closers := by rw [hc, hst]; exact hi.closers

theorem Balanced.step (hr : h.Reachable config) (hi : h.Balanced) (hs : Step h k) :
    k.Balanced := by
  cases hs with
  | accept ha hp =>
    refine ⟨?_, fun hf => absurd hf (by simp [Session.register]), hi.stopped, hi.closers⟩
    have hsum := hi.outstanding
    simp only [Session.register, CompletionQueue.register, Array.size_push]
    omega
  | enter | look | giveUp | launch | write =>
    exact hi.congr rfl rfl (Array.size_modify ..) rfl rfl rfl
  | count =>
    exact hi.congr rfl rfl (Array.size_modify ..) rfl rfl rfl
  | push => exact ⟨hi.outstanding, hi.submitted, hi.stopped, hi.closers⟩
  | close =>
    refine ⟨hi.outstanding, hi.submitted, hi.stopped, forall_push hi.closers ?_⟩
    intro hc
    exact absurd rfl hc
  | raise hc hraise =>
    exact ⟨hi.outstanding, hi.submitted, fun _ => rfl, fun _ _ _ _ => rfl⟩
  | @halt i c hc hh =>
    have hst : h.session.stopped = true := hi.closers i c hc (by rw [hh]; simp)
    exact ⟨hi.outstanding, hi.submitted, fun _ => hst, fun _ _ _ _ => hst⟩
  | @drain i c hc hd h0 =>
    have hst : h.session.stopped = true := hi.closers i c hc (by rw [hd]; simp)
    exact ⟨hi.outstanding, hi.submitted, fun _ => hst, fun _ _ _ _ => hst⟩
  | @take e es hs hq he =>
    refine ⟨?_, hi.submitted, hi.stopped, hi.closers⟩
    have hfin : e.isFinished = false :=
      hr.delivered.isFinished_eq_false (by rw [he]; exact List.mem_cons_self)
    -- a queued event belongs to a request that was registered, so nothing saturates
    have hsum := hi.outstanding
    have hpushed := hr.pushes_add_due
    have htaken := hr.taken_add_events
    rw [he, List.length_cons] at htaken
    simp only [hfin, Bool.false_eq_true, if_false, List.length_append, List.length_singleton]
    omega
  | idle | grant | line | begin | pass | leave | finish | handOver =>
    exact hi.congr rfl rfl rfl rfl rfl rfl

theorem Reachable.balanced (hr : h.Reachable config) : h.Balanced := by
  refine hr.induct ⟨rfl, fun _ => rfl, fun hs => ?_, fun i c hc => ?_⟩
    fun hk _ hi hs => hi.step hk hs
  · exact absurd hs (by simp [new])
  · exact absurd hc (by simp [new])

/-- **What is registered and not handed out is queued or due.** -/
theorem Reachable.outstanding_eq (hr : h.Reachable config) :
    h.session.queue.outstanding = h.session.queue.events.length + h.due.length := by
  have hsum := hr.balanced.outstanding
  have hpushed := hr.pushes_add_due
  have htaken := hr.taken_add_events
  omega

/-- **A consumer waits exactly when nothing is queued and something is due.** -/
theorem Reachable.next?_eq_none_iff (hr : h.Reachable config) (hs : h.session.stopped = false) :
    h.session.next? = none ↔ h.session.queue.events = [] ∧ h.due ≠ [] := by
  have hqueue : h.session.queue.stopped = false :=
    Bool.eq_false_iff.mpr fun hq => absurd (hr.balanced.stopped hq) (by simp [hs])
  have hout := hr.outstanding_eq
  cases hsub : h.session.submitted with
  | false =>
    -- nothing was ever accepted, so nothing can be due
    have hnone : h.due = [] := by
      unfold due
      rw [hr.balanced.submitted hsub]
      rfl
    simp [Session.next?, hsub, hnone]
  | true =>
    rw [Session.next?, hsub, if_pos rfl, Option.map_eq_none_iff,
      CompletionQueue.take?_eq_none_iff, CompletionQueue.Blocks]
    constructor
    · rintro ⟨-, he, h0⟩
      rw [hout, he] at h0
      exact ⟨he, List.ne_nil_of_length_pos (by simpa using h0)⟩
    · rintro ⟨he, hd⟩
      rw [hout]
      exact ⟨hqueue, he, Nat.lt_of_lt_of_le (List.length_pos_iff.mpr hd) (Nat.le_add_left ..)⟩

/-! ## Callers that fill slots -/

/-- A hand-out as a step. -/
theorem act_take {e : Completion} {s : Session} (hn : h.session.next? = some (e, s)) :
    h.Reaches (h.act .take) ∧ (h.act .take).session = s ∧
      (h.act .take).taken = h.taken ++ if e.isFinished then [] else [e] := by
  refine ⟨.step (.refl h) (by rw [Session.Enabled, hn]; rfl), ?_, ?_⟩
  · rw [act, Session.act, hn]
    rfl
  · rw [act, Session.handed?, hn]
    by_cases he : e.isFinished
    · simp [he]
    · simp [he]

/-- Taking many completions is taking one after the other. -/
theorem reaches_takeMany (room : Nat) (hs : h.session.submitted = true) :
    ∃ k, h.Reaches k ∧
      k.session = { h.session with queue := (h.session.queue.takeMany room).2 } ∧
      k.taken = h.taken ++ (h.session.queue.takeMany room).1 := by
  induction room generalizing h with
  | zero => exact ⟨h, .refl h, rfl, (List.append_nil _).symm⟩
  | succ room ih =>
    rw [CompletionQueue.takeMany]
    cases ht : h.session.queue.take? with
    | none => exact ⟨h, .refl h, rfl, (List.append_nil _).symm⟩
    | some p =>
      obtain ⟨e, queue⟩ := p
      have hn : h.session.next? = some (e, { h.session with queue }) := by
        rw [Session.next?, if_pos hs, ht, Option.map_some]
      obtain ⟨hk, hsession, htaken⟩ := act_take hn
      by_cases he : e.isFinished
      · refine ⟨_, hk, by simp [hsession, he], by simp [htaken, he]⟩
      · obtain ⟨m, hm, hms, hmt⟩ := ih (h := h.act .take) (by rw [hsession]; exact hs)
        refine ⟨m, hk.trans hm, by simp [hms, hsession, he], ?_⟩
        simp [hmt, htaken, hsession, he]

/-- An event is handed out only when a request was accepted. -/
theorem submitted_of_next? {s s' : Session} {e : Completion} (hn : s.next? = some (e, s'))
    (he : ¬ e.isFinished) : s'.submitted = true := by
  obtain ⟨e', es, hsub, -, -, hn'⟩ | hn' | hn' := next?_cases s
  · obtain ⟨rfl, rfl⟩ := Prod.mk.inj (Option.some.inj (hn.symm.trans hn'))
    exact hsub
  · obtain ⟨rfl, -⟩ := Prod.mk.inj (Option.some.inj (hn.symm.trans hn'))
    exact absurd rfl he
  · exact absurd (hn.symm.trans hn') (by simp)

/-- **A caller that fills slots takes what it fills them with**, one completion after the other. -/
theorem reaches_waitFor {mode : Session.WaitMode} {slots : List Completion}
    {x : Session.Retrieved} {s : Session} (hw : h.session.waitFor mode slots = some (x, s)) :
    ∃ k, h.Reaches k ∧ k.session = s ∧ k.taken = h.taken ++ x.slots.take x.count := by
  unfold Session.waitFor at hw
  split at hw
  · obtain ⟨rfl, rfl⟩ := Prod.mk.inj (Option.some.inj hw)
    exact ⟨h, .refl h, rfl, by simp⟩
  · split at hw
    · exact absurd hw (by simp)
    · obtain ⟨rfl, rfl⟩ := Prod.mk.inj (Option.some.inj hw)
      exact ⟨h, .refl h, rfl, by simp⟩
    · rename_i e s' hn
      obtain ⟨hk, hsession, htaken⟩ := act_take hn
      by_cases he : e.isFinished
      · rw [if_pos he] at hw
        obtain ⟨rfl, rfl⟩ := Prod.mk.inj (Option.some.inj hw)
        exact ⟨_, hk, hsession, by simp [htaken, he]⟩
      · rw [if_neg he] at hw
        obtain ⟨rfl, rfl⟩ := Prod.mk.inj (Option.some.inj hw)
        obtain ⟨m, hm, hms, hmt⟩ := reaches_takeMany (h := h.act .take) (slots.length - 1)
          (by rw [hsession]; exact submitted_of_next? hn he)
        refine ⟨m, hk.trans hm, by rw [hms, hsession], ?_⟩
        rw [hmt, htaken, hsession, if_neg he, List.take_left, List.append_assoc]
        rfl

/-! ## What is due has a chunk that has not reported -/

theorem Reachable.unreported_of_due (hr : h.Reachable config) (hs : h.session.stopped = false)
    (hrest : h.session.AtRest) {r : Nat} (hd : r ∈ h.due) :
    ∃ t ∈ h.session.tasksOf r, ¬ h.session.Reported t := by
  obtain ⟨hlt, hnone⟩ := mem_due.mp hd
  have hq := Array.getElem?_eq_getElem hlt
  obtain ⟨code, hl⟩ := hrest _ (Array.mem_of_getElem? hq)
  have hsuccess : code = .success := by
    have hn := hr.launches hq
    rw [Request.Launches, hl, hs] at hn
    cases code <;> simp_all
  subst hsuccess
  by_contra hall
  have hone := hr.length_pushesOf hq hl fun t ht => by
    by_contra hrep
    exact hall ⟨t, ht, hrep⟩
  rw [hnone] at hone
  exact absurd hone (by simp)

/-- When every chunk has reported, nothing is due. -/
theorem Reachable.due_eq_nil (hr : h.Reachable config) (hs : h.session.stopped = false)
    (hrest : h.session.AtRest) (hall : ∀ t, t < h.session.tasks.size → h.session.Reported t) :
    h.due = [] := by
  refine List.eq_nil_iff_forall_not_mem.mpr ?_
  intro r hd
  obtain ⟨t, ht, hrep⟩ := hr.unreported_of_due hs hrest hd
  obtain ⟨task, htask, -⟩ := mem_tasksOf.mp ht
  exact hrep (hall t (Array.getElem?_eq_some_iff.mp htask).1)

/-- The events that were pushed and not handed out, in the order in which they were pushed. -/
def undelivered (h : History) : List Completion :=
  (h.pushes.drop h.taken.length).map (·.event)

theorem Reachable.undelivered_eq (hr : h.Reachable config) :
    h.undelivered = h.session.queue.events := by
  rw [undelivered, List.map_drop, ← hr.taken_append_events, List.drop_left]

/-- **A consumer waits for work in flight only.** -/
theorem Reachable.waits (hr : h.Reachable config) (hs : h.session.stopped = false)
    (hrest : h.session.AtRest) :
    h.session.queue.outstanding = h.session.queue.events.length + h.due.length ∧
      (∀ r ∈ h.due, ∃ t ∈ h.session.tasksOf r, ¬ h.session.Reported t) ∧
      (h.session.next? = none ↔ h.session.queue.events = [] ∧
        ∃ r ∈ h.due, ∃ t ∈ h.session.tasksOf r, ¬ h.session.Reported t) ∧
      ((∀ t, t < h.session.tasks.size → h.session.Reported t) → ∀ n,
        h.session.handOuts n =
          (List.range n).map fun i => some (h.undelivered.getD i .finished)) := by
  have hdue : ∀ r ∈ h.due, ∃ t ∈ h.session.tasksOf r, ¬ h.session.Reported t :=
    fun r hd => hr.unreported_of_due hs hrest hd
  refine ⟨hr.outstanding_eq, hdue, ?_, ?_⟩
  · rw [hr.next?_eq_none_iff hs]
    refine and_congr_right fun _ => ⟨?_, fun ⟨r, hd, _⟩ => List.ne_nil_of_mem hd⟩
    intro hne
    obtain ⟨r, hd⟩ := List.exists_mem_of_ne_nil _ hne
    exact ⟨r, hd, hdue r hd⟩
  · intro hall n
    have hnone := hr.due_eq_nil hs hrest hall
    have hqueue : h.session.queue.stopped = false :=
      Bool.eq_false_iff.mpr fun hq => absurd (hr.balanced.stopped hq) (by simp [hs])
    rw [hr.undelivered_eq]
    refine Session.handOuts_eq ?_ hqueue ?_ n
    · intro hsub
      have hsum := hr.pushes_add_due
      have htaken := hr.taken_add_events
      rw [hr.balanced.submitted hsub] at hsum
      exact List.length_eq_zero_iff.mp (by omega)
    · rw [hr.outstanding_eq, hnone]
      rfl

/-- When both chunks have reported, the first of which failed, the failure is handed out and then
sentinels. -/
theorem waits_of_reported :
    ∃ h, Reachable .fours h ∧ h.session.stopped = false ∧ h.session.AtRest ∧
      (∀ t, t < h.session.tasks.size → h.session.Reported t) ∧
      ∀ n, h.session.handOuts n =
        (List.range n).map fun i => some ([⟨1, .fileAccess⟩].getD i .finished) := by
  let h := (new .fours).run (Session.bothRun ++
    [.finish 0 .failed, .advance 0, .advance 0, .finish 1 (.returned 4), .advance 1, .advance 1])
  have hr : Reachable .fours h := .ofRun .fours _ (by decide +kernel) (by decide +kernel)
  have hs : h.session.stopped = false := by decide +kernel
  have hrest : h.session.AtRest := by decide +kernel
  have hall : ∀ t, t < h.session.tasks.size → h.session.Reported t := by decide +kernel
  have hlist : h.undelivered = [⟨1, .fileAccess⟩] := by decide +kernel
  exact ⟨h, hr, hs, hrest, hall, hlist ▸ (hr.waits hs hrest).2.2.2 hall⟩

/-- A failed request is not waited for: the failure of the second chunk has been handed out, the
transfer of the first one still runs, and the next hand-out is a sentinel. A consumer does not wait
for every chunk of an accepted request. -/
theorem next?_of_failure :
    ∃ h, Reachable .fours h ∧ h.session.stopped = false ∧ h.session.AtRest ∧
      h.session.next? = some (.finished, h.session) ∧
      ¬ (h.session.next? = none ↔ h.session.queue.events = [] ∧
        ∃ r, r < h.session.requests.size ∧ ∃ t ∈ h.session.tasksOf r, ¬ h.session.Reported t) := by
  let h := (new .fours).run
    (Session.bothRun ++ [.finish 1 .failed, .advance 1, .advance 1, .take])
  have hr : Reachable .fours h := .ofRun .fours _ (by decide +kernel) (by decide +kernel)
  have hnext : h.session.next? = some (.finished, h.session) := by decide +kernel
  have hrun : h.session.queue.events = [] ∧ 0 < h.session.requests.size ∧
      ∃ t ∈ h.session.tasksOf 0, ¬ h.session.Reported t := by decide +kernel
  refine ⟨h, hr, by decide +kernel, by decide +kernel, hnext, ?_⟩
  intro hiff
  have hnone := hiff.mpr ⟨hrun.1, 0, hrun.2⟩
  rw [hnext] at hnone
  exact absurd hnone (by simp)

end History

end RangeFetch
