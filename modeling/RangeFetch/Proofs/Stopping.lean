import Mathlib.Data.Nat.Init
import RangeFetch.Completion.WaitingRoom
import RangeFetch.Proofs.Deliveries

/-!
# A stop is final

A stop raises the flag of the session and then stops its queue. A stopped queue hands out sentinels
only, and an alarm is on its way to whoever sleeps in front of it. Callers asleep are no part of a
`Session`; an `Attended` session has them, with the steps that a `WaitingRoom` gives them.

Headlines:
* **`Reachable.stopped_eq`**: the two flags agree unless a stop is between the two.
* **`Stopped.step`**: no step leads out of a stopped session, and none hands out an event.
* **`FairRun.eventually_served`**: in a fair run, every caller that is blocked in a stopped session
  leaves with the sentinel.
* **`Attended.Reachable.final`**: all that a stop decides, and that it decides it for good.
-/

namespace RangeFetch

/-! ## What a stopped session answers -/

namespace Session

variable {s : Session}

theorem submit_of_stopped (hs : s.stopped = true) (x : Submission) :
    s.submit x = (s, .refused .finished) := by
  simp [submit, accept, hs]

theorem submitBetween_of_stopped (hs : s.stopped = true) (others : Session → Session)
    (x : Submission) : s.submitBetween others x = (s, some .finished) := by
  rw [submitBetween, submit_of_stopped hs]

theorem next?_of_stopped (hq : s.queue.stopped = true) : s.next? = some (.finished, s) := by
  unfold next? CompletionQueue.take?
  rw [if_pos hq]
  split <;> rfl

/-- What a caller that fills `slots` does when the completion that it waited for is `e`. -/
def proceed (s : Session) (slots : List Completion) (e : Completion) : Retrieved × Session :=
  if e.isFinished then (⟨.finished, 0, slots⟩, s)
  else
    let (more, queue) := s.queue.takeMany (slots.length - 1)
    let taken := e :: more
    (⟨.success, taken.length, taken ++ slots.drop taken.length⟩, { s with queue })

/-- A caller that finds a completion proceeds with it. -/
theorem waitFor_of_next? {s' : Session} {e : Completion} (hn : s.next? = some (e, s'))
    (mode : WaitMode) {slots : List Completion} (hs : slots ≠ []) :
    s.waitFor mode slots = some (s'.proceed slots e) := by
  unfold waitFor
  rw [if_neg (by simpa using hs), hn]
  show (if e.isFinished then _ else _) = some (s'.proceed slots e)
  unfold proceed
  split <;> rfl

theorem waitFor_of_stopped (hq : s.queue.stopped = true) (mode : WaitMode)
    {slots : List Completion} (hs : slots ≠ []) :
    s.waitFor mode slots = some (⟨.finished, 0, slots⟩, s) :=
  waitFor_of_next? (next?_of_stopped hq) mode hs

end Session

/-! ## The two flags -/

namespace History

variable {config : Config} {h k : History}

/-- The stop flag stays up. -/
theorem Step.stopped (hs : Step h k) (hst : h.session.stopped = true) :
    k.session.stopped = true := by
  cases hs with
  | raise => rfl
  | idle | accept | enter | look | giveUp | launch | grant | line | begin | count | push | pass
  | leave | write | finish | handOver | close | halt | drain | take => exact hst

/-- Both flags are up. -/
structure Stopped (h : History) : Prop where
  session : h.session.stopped = true
  queue : h.session.queue.stopped = true

/-- **A stop is final**: the flags stay up, and no event is handed out any more. -/
theorem Stopped.step (hi : h.Stopped) (hs : Step h k) : k.Stopped ∧ k.taken = h.taken := by
  obtain ⟨hst, hq⟩ := hi
  cases hs with
  | raise => exact ⟨⟨rfl, hq⟩, rfl⟩
  | halt => exact ⟨⟨hst, rfl⟩, rfl⟩
  | take _ hq' => exact absurd hq (by simp [hq'])
  | idle | accept | enter | look | giveUp | launch | grant | line | begin | count | push | pass
  | leave | write | finish | handOver | close | drain => exact ⟨⟨hst, hq⟩, rfl⟩

/-- A closer raises the flag first and stops the queue then. -/
structure Signalled (h : History) : Prop where
  past : ∀ (i : Nat) (c : Closer), h.session.closers[i]? = some c →
    c.closing = .draining ∨ c.closing = .returned → h.session.queue.stopped = true
  halting : h.session.stopped = true → h.session.queue.stopped = false →
    ∃ c ∈ h.session.closers, c.closing = .halting

theorem Signalled.step (hi : h.Signalled) (hs : Step h k) : k.Signalled := by
  cases hs with
  | close =>
    refine ⟨forall_push hi.past fun hc => absurd hc (by simp), ?_⟩
    intro hst hq
    obtain ⟨c, hc, hh⟩ := hi.halting hst hq
    exact ⟨c, Array.mem_push_of_mem _ hc, hh⟩
  | @raise i c hc hr =>
    refine ⟨forall_modify hi.past fun c' hc' _ hpast => absurd hpast (by simp), ?_⟩
    intro _ _
    refine ⟨{ c with closing := .halting }, Array.mem_iff_getElem?.mpr ⟨i, ?_⟩, rfl⟩
    rw [Array.getElem?_modify, if_pos rfl, hc]
    rfl
  | halt => exact ⟨fun _ _ _ _ => rfl, fun _ hq => absurd hq (by simp [CompletionQueue.stop])⟩
  | @drain i c hc hd h0 =>
    have hq : h.session.queue.stopped = true := hi.past i c hc (Or.inl hd)
    exact ⟨fun _ _ _ _ => hq, fun _ hn => absurd hq (by simpa using hn)⟩
  | idle | accept | enter | look | giveUp | launch | grant | line | begin | count | push | pass
  | leave | write | finish | handOver | take => exact ⟨hi.past, hi.halting⟩

theorem Reachable.signalled (hr : h.Reachable config) : h.Signalled :=
  hr.induct ⟨fun i c hc => absurd hc (by simp [new]), fun hs => absurd hs (by simp [new])⟩
    fun _ _ hi hs => hi.step hs

/-- **The two flags agree** unless a stop is between the two. -/
theorem Reachable.stopped_eq (hr : h.Reachable config)
    (hb : ∀ c ∈ h.session.closers, c.closing ≠ .halting) :
    h.session.stopped = h.session.queue.stopped := by
  cases hq : h.session.queue.stopped with
  | true => exact hr.balanced.stopped hq
  | false =>
    by_contra hst
    obtain ⟨c, hc, hh⟩ := hr.signalled.halting (by simpa using hst) hq
    exact hb c hc hh

theorem Reachable.stopped_of_queue (hr : h.Reachable config)
    (hq : h.session.queue.stopped = true) : h.Stopped :=
  ⟨hr.balanced.stopped hq, hq⟩

end History

/-! ## Who stops the queue -/

/-- The step stops the queue. -/
def Session.Halts (s : Session) : Session.Action → Prop
  | .closing i => ∃ c ∈ s.closers[i]?, c.closing = .halting
  | _ => False

instance (s : Session) : DecidablePred s.Halts
  | .closing i => inferInstanceAs (Decidable (∃ c ∈ s.closers[i]?, c.closing = .halting))
  | .submit _ | .launch _ | .advance _ | .write .. | .finish .. | .close _ | .take =>
    isFalse id

namespace Session

section

variable (s : Session)

/-- What only closers change: the two flags, and the closers. -/
def flags : Bool × Bool × Array Closer :=
  (s.stopped, s.queue.stopped, s.closers)

theorem flags_submit (x : Submission) : (s.submit x).1.flags = s.flags := by
  unfold submit
  split
  · rfl
  · split <;> rfl

theorem flags_leave : s.leave.flags = s.flags := by
  unfold leave
  split <;> rfl

theorem flags_launch (r : Nat) : (s.launch r).flags = s.flags := by
  fun_cases launch s r
  all_goals first
    | rfl
    | exact flags_leave s

theorem flags_acquire (t : Nat) : (s.acquire t).flags = s.flags := by
  unfold acquire
  split <;> rfl

theorem flags_count (t r length : Nat) (o : Outcome) : (s.count t r length o).flags = s.flags := by
  unfold count
  split <;> rfl

theorem flags_report (t r : Nat) (o : Outcome) (code : Option Code) :
    (s.report t r o code).flags = s.flags := by
  cases code with
  | none => rfl
  | some c =>
    cases hq : s.requests[r]? with
    | none =>
      simp only [report, hq]
      rfl
    | some q =>
      simp only [report, hq]
      rfl

theorem flags_advance (t : Nat) : (s.advance t).flags = s.flags := by
  fun_cases advance s t
  all_goals first
    | rfl
    | exact flags_acquire s t
    | exact flags_count ..
    | exact flags_report ..
    | exact flags_leave s

theorem flags_write (t i : Nat) (bytes : List UInt8) : (s.write t i bytes).flags = s.flags := by
  fun_cases write s t i bytes <;> rfl

theorem flags_finish (t : Nat) (o : Outcome) : (s.finish t o).flags = s.flags := by
  fun_cases finish s t o <;> rfl

end

/-- A hand-out changes no flag. -/
theorem flags_next {s s' : Session} {e : Completion} (hn : s.next? = some (e, s')) :
    s'.flags = s.flags := by
  obtain ⟨e', es, -, -, -, hn'⟩ | hn' | hn' := History.next?_cases s
  · obtain ⟨-, rfl⟩ := Prod.mk.inj (Option.some.inj (hn.symm.trans hn'))
    rfl
  · obtain ⟨-, rfl⟩ := Prod.mk.inj (Option.some.inj (hn.symm.trans hn'))
    rfl
  · exact absurd (hn.symm.trans hn') (by simp)

/-- Only a closer stops the queue. -/
theorem stopped_act {s : Session} {x : Action} (hq : (s.act x).queue.stopped = true) :
    s.queue.stopped = true ∨ s.Halts x := by
  have hold {s' : Session} (hf : s'.flags = s.flags) (hq : s'.queue.stopped = true) :
      s.queue.stopped = true ∨ s.Halts x :=
    Or.inl ((congrArg (·.2.1) hf).symm.trans hq)
  cases x with
  | submit x => exact hold (flags_submit ..) hq
  | launch r => exact hold (flags_launch ..) hq
  | advance t => exact hold (flags_advance ..) hq
  | write t i bytes => exact hold (flags_write ..) hq
  | finish t o => exact hold (flags_finish ..) hq
  | close waits => exact Or.inl hq
  | closing i =>
    change (s.closing i).queue.stopped = true at hq
    unfold closing at hq
    split at hq
    · exact Or.inl hq
    · rename_i c hc
      cases hp : c.closing with
      | halting => exact Or.inr ⟨c, hc, hp⟩
      | raising | returned =>
        rw [hp] at hq
        exact Or.inl hq
      | draining =>
        simp only [hp] at hq
        split at hq <;> exact Or.inl hq
  | take =>
    change ((s.next?.map Prod.snd).getD s).queue.stopped = true at hq
    cases hn : s.next? with
    | none =>
      rw [hn] at hq
      exact Or.inl hq
    | some p =>
      rw [hn] at hq
      exact hold (flags_next hn) hq

end Session

/-! ## Sessions with callers that wait -/

/-- A session, the callers that ask it for a completion and are kept waiting, and the wake-ups that
are on their way to them. -/
structure Attended where
  history : History
  consumers : List Consumer := []
  calls : Nat := 0
  alarms : Nat := 0
  deriving DecidableEq, Repr

namespace Attended

variable {config : Config} (a : Attended)

/-- The session itself. -/
abbrev session : Session :=
  a.history.session

/-- The queue of the session and those who wait in front of it. -/
def room : WaitingRoom :=
  ⟨a.session.queue, a.consumers, a.calls, a.alarms⟩

/-- The consumers and wake-ups of `r`. -/
def seat (r : WaitingRoom) : Attended :=
  { a with consumers := r.consumers, calls := r.calls, alarms := r.alarms }

/-- A step of one party. -/
inductive Action where
  /-- A step of the session. A push calls a consumer, a stop of the queue raises an alarm. -/
  | session (x : Session.Action)
  /-- One more caller asks for a completion. It waits only if a request was accepted before. -/
  | ask
  /-- Consumer `c` looks at the queue. -/
  | look (c : Nat)
  | call (c : Nat)
  | lapse
  | alarm
  deriving DecidableEq, Repr

/-- The state after a step. -/
def act : Action → Attended
  | .session x =>
    { a with
      history := a.history.act x
      calls := a.calls + (a.session.pushed? x).toList.length
      alarms := a.alarms + if a.session.Halts x then 1 else 0 }
  | .ask =>
    { a with
      consumers := a.consumers ++ [if a.session.submitted then .awake else .served .finished] }
  | .look c => { a with history := a.history.act .take }.seat (a.room.act (.look c))
  | .call c => a.seat (a.room.act (.call c))
  | .lapse => a.seat (a.room.act .lapse)
  | .alarm => a.seat (a.room.act .alarm)

/-- The steps that may come next. -/
def Enabled : Action → Prop
  | .session x => a.session.Enabled x
  | .ask => True
  | .look c => a.room.Enabled (.look c)
  | .call c => a.room.Enabled (.call c)
  | .lapse => a.room.Enabled .lapse
  | .alarm => a.room.Enabled .alarm

instance (a : Attended) : DecidablePred a.Enabled
  | .session x => inferInstanceAs (Decidable (a.session.Enabled x))
  | .ask => isTrue trivial
  | .look c => inferInstanceAs (Decidable (a.consumers[c]? = some .awake))
  | .call c => inferInstanceAs (Decidable (0 < a.calls ∧ a.consumers[c]? = some .asleep))
  | .lapse => inferInstanceAs (Decidable (0 < a.calls ∧ .asleep ∉ a.consumers))
  | .alarm => inferInstanceAs (Decidable (0 < a.alarms))

theorem enabled_look {a : Attended} {c : Nat} :
    a.Enabled (.look c) ↔ a.consumers[c]? = some .awake := Iff.rfl

/-- The states that steps lead to from `a`. -/
inductive Reaches : Attended → Attended → Prop where
  | refl (a : Attended) : Reaches a a
  | step {a b : Attended} {x : Action} : Reaches a b → b.Enabled x → Reaches a (b.act x)

/-- The states of a session that was made with `config`, and that nobody waits in at first. -/
def Reachable (config : Config) (a : Attended) : Prop :=
  ∃ s₀, Session.start config = .ok s₀ ∧ Reaches { history := { session := s₀ } } a

variable {a} {b : Attended}

theorem Reaches.trans {c : Attended} (hb : a.Reaches b) (hc : b.Reaches c) : a.Reaches c := by
  induction hc with
  | refl => exact hb
  | step _ he ih => exact .step ih he

/-- The state after some steps. -/
def run (a : Attended) (actions : List Action) : Attended :=
  actions.foldl act a

/-- Each of the steps may be taken when it comes. -/
def Legal : Attended → List Action → Prop
  | _, [] => True
  | a, x :: xs => a.Enabled x ∧ Legal (a.act x) xs

instance Legal.decidable : (a : Attended) → (xs : List Action) → Decidable (a.Legal xs)
  | _, [] => isTrue trivial
  | a, x :: xs =>
    have := Legal.decidable (a.act x) xs
    inferInstanceAs (Decidable (_ ∧ _))

theorem Reaches.run {xs : List Action} (hb : a.Reaches b) (hl : b.Legal xs) :
    a.Reaches (b.run xs) := by
  induction xs generalizing b with
  | nil => exact hb
  | cons x xs ih => exact ih (.step hb hl.1) hl.2

theorem Reachable.reaches (hr : a.Reachable config) (hb : a.Reaches b) : b.Reachable config := by
  obtain ⟨s₀, hs, ha⟩ := hr
  exact ⟨s₀, hs, ha.trans hb⟩

/-! ## Runs of the session -/

theorem history_act {x : Action} (he : a.Enabled x) : a.history.Reaches (a.act x).history := by
  cases x with
  | session y => exact .step (.refl _) he
  | look c =>
    show a.history.Reaches (a.history.act .take)
    cases hn : a.session.next? with
    | some p => exact (History.act_take hn).1
    | none =>
      have hsame : a.history.act .take = a.history := by
        simp [History.act, Session.act, hn]
      rw [hsame]
      exact .refl _
  | ask | call c | lapse | alarm => exact .refl a.history

theorem Reaches.history (hb : a.Reaches b) : a.history.Reaches b.history := by
  induction hb with
  | refl => exact .refl _
  | step _ he ih => exact ih.trans (history_act he)

theorem Reachable.history (hr : a.Reachable config) : a.history.Reachable config := by
  obtain ⟨s₀, hs, ha⟩ := hr
  exact ⟨s₀, hs, ha.history⟩

/-- The queue stays stopped, and what was handed out is all that ever is. -/
theorem Reachable.stopped_reaches (hr : a.Reachable config)
    (hq : a.session.queue.stopped = true) (hb : a.Reaches b) :
    b.history.Stopped ∧ b.history.taken = a.history.taken := by
  refine hb.history.induct (P := fun h => h.Stopped ∧ h.taken = a.history.taken) hr.history
    ⟨hr.history.stopped_of_queue hq, rfl⟩ ?_
  rintro h k - - ⟨hi, ht⟩ hs
  exact ⟨(hi.step hs).1, (hi.step hs).2.trans ht⟩

/-! ## Consumers at a stopped queue -/

/-- What a step makes of a consumer, or of a place that no consumer has, when the queue is
stopped. -/
inductive Moves : Option Consumer → Option Consumer → Prop where
  | stay (k : Option Consumer) : Moves k k
  | enter : Moves none (some .awake)
  | turnedAway : Moves none (some (.served .finished))
  | wake : Moves (some .asleep) (some .awake)
  | leave : Moves (some .awake) (some (.served .finished))

theorem consumers_look (hq : a.session.queue.stopped = true) (c : Nat) :
    (a.act (.look c)).consumers = a.consumers.set c (.served .finished) := by
  have htake : a.room.queue.take? = some (.finished, a.room.queue) := by
    unfold CompletionQueue.take?
    exact if_pos hq
  show (a.room.look c).consumers = _
  unfold WaitingRoom.look
  rw [htake]
  rfl

/-- **A step moves each consumer by at most one place**, and nobody falls asleep. -/
theorem moves_act {x : Action} (he : a.Enabled x) (hq : a.session.queue.stopped = true) (c : Nat) :
    Moves a.consumers[c]? (a.act x).consumers[c]? := by
  cases x with
  | session y => exact .stay _
  | ask =>
    show Moves a.consumers[c]? (a.consumers ++ [_])[c]?
    rw [List.getElem?_append]
    split
    · exact .stay _
    · rename_i hc
      rw [List.getElem?_eq_none (Nat.le_of_not_lt hc)]
      cases c - a.consumers.length with
      | zero =>
        cases a.session.submitted with
        | true => exact .enter
        | false => exact .turnedAway
      | succ n => exact .stay _
  | look c' =>
    rw [consumers_look hq, List.getElem?_set]
    split
    · rename_i hc
      subst hc
      have hawake : a.consumers[c']? = some .awake := he
      rw [if_pos (List.getElem?_eq_some_iff.mp hawake).1, hawake]
      exact .leave
    · exact .stay _
  | call c' =>
    show Moves a.consumers[c]? (a.consumers.set c' .awake)[c]?
    rw [List.getElem?_set]
    split
    · rename_i hc
      subst hc
      have hasleep : a.consumers[c']? = some .asleep := he.2
      rw [if_pos (List.getElem?_eq_some_iff.mp hasleep).1, hasleep]
      exact .wake
    · exact .stay _
  | lapse => exact .stay _
  | alarm =>
    show Moves a.consumers[c]? (a.consumers.map Consumer.wake)[c]?
    rw [List.getElem?_map]
    cases a.consumers[c]? with
    | none => exact .stay _
    | some k =>
      cases k with
      | asleep => exact .wake
      | awake | served e => exact .stay _

/-- Who sleeps in front of a stopped queue will hear an alarm. -/
def Heard (a : Attended) : Prop :=
  a.session.queue.stopped = true → .asleep ∈ a.consumers → 0 < a.alarms

theorem Heard.step {x : Action} (hi : a.Heard) (he : a.Enabled x) : (a.act x).Heard := by
  intro hq hm
  have hold : a.session.queue.stopped = true → 0 < a.alarms := by
    intro hs
    refine hi hs ?_
    obtain ⟨c, hc⟩ := List.mem_iff_getElem?.mp hm
    have hmove := moves_act he hs c
    rw [hc] at hmove
    generalize hk : a.consumers[c]? = k at hmove
    cases hmove
    exact List.mem_of_getElem? hk
  cases x with
  | session y =>
    show 0 < a.alarms + if a.session.Halts y then 1 else 0
    obtain hs | hh := Session.stopped_act hq
    · exact Nat.lt_of_lt_of_le (hold hs) (Nat.le_add_right ..)
    · rw [if_pos hh]
      exact Nat.succ_pos _
  | look c =>
    have halarms : (a.act (.look c)).alarms = a.alarms := by
      show (a.room.look c).alarms = a.room.alarms
      unfold WaitingRoom.look
      split <;> rfl
    rw [halarms]
    obtain hs | hh := Session.stopped_act (x := .take) hq
    · exact hold hs
    · exact absurd hh id
  | ask | call c | lapse => exact hold hq
  | alarm =>
    obtain ⟨k, -, hk⟩ := List.mem_map.mp hm
    cases k <;> exact Consumer.noConfusion hk

theorem Reachable.heard (hr : a.Reachable config) : a.Heard := by
  obtain ⟨s₀, hs, ha⟩ := hr
  induction ha with
  | refl => exact fun _ hm => absurd hm (by simp)
  | step _ he ih => exact ih.step he

/-- In front of a stopped queue nobody is served an event. -/
theorem Reachable.served_reaches (hr : a.Reachable config)
    (hq : a.session.queue.stopped = true) (hb : a.Reaches b) {c : Nat} {e : Completion}
    (he : b.consumers[c]? = some (.served e)) :
    e = .finished ∨ a.consumers[c]? = some (.served e) := by
  induction hb with
  | refl => exact Or.inr he
  | @step b x hm hx ih =>
    have hmove := moves_act hx (hr.stopped_reaches hq hm).1.queue c
    rw [he] at hmove
    generalize hk : b.consumers[c]? = k at hmove ih
    cases hmove with
    | stay => exact ih rfl
    | turnedAway | leave => exact Or.inl rfl

/-! ## Fair runs -/

/-- A step that may come next from some moment on is taken. -/
def Fair (states : Nat → Attended) (actions : Nat → Action) (x : Action) : Prop :=
  ∀ n, (∀ m, n ≤ m → (states m).Enabled x) → ∃ m, n ≤ m ∧ actions m = x

/-- A run without end, in which every alarm is heard and who is awake looks. -/
structure FairRun (states : Nat → Attended) (actions : Nat → Action) : Prop where
  enabled : ∀ n, (states n).Enabled (actions n)
  step : ∀ n, states (n + 1) = (states n).act (actions n)
  alarm : Fair states actions .alarm
  look : ∀ c, Fair states actions (.look c)

variable {states : Nat → Attended} {actions : Nat → Action}

theorem FairRun.reaches (hf : FairRun states actions) {n m : Nat} (hnm : n ≤ m) :
    (states n).Reaches (states m) := by
  induction m, hnm using Nat.le_induction with
  | base => exact .refl _
  | succ m _ ih => exact hf.step m ▸ .step ih (hf.enabled m)

/-- What holds until a fair step makes something else of it. -/
theorem Fair.leads_to {x : Action} (hx : Fair states actions x) {P Q : Nat → Prop} {n : Nat}
    (keep : ∀ m, n ≤ m → P m → P (m + 1) ∨ Q (m + 1))
    (enabled : ∀ m, n ≤ m → P m → (states m).Enabled x)
    (effect : ∀ m, n ≤ m → P m → actions m = x → Q (m + 1)) (hn : P n) :
    ∃ m, n ≤ m ∧ Q m := by
  by_contra hnone
  have hkept : ∀ m, n ≤ m → P m := by
    intro m hm
    induction m, hm using Nat.le_induction with
    | base => exact hn
    | succ m hm ih =>
      refine (keep m hm ih).resolve_right fun hQ => hnone ⟨m + 1, ?_, hQ⟩
      exact Nat.le_succ_of_le hm
  obtain ⟨m, hm, ha⟩ := hx n fun m hm => enabled m hm (hkept m hm)
  exact hnone ⟨m + 1, Nat.le_succ_of_le hm, effect m hm (hkept m hm) ha⟩

namespace FairRun

variable {n c : Nat}

theorem moves (hf : FairRun states actions) (hq : (states n).session.queue.stopped = true)
    (c : Nat) : Moves (states n).consumers[c]? (states (n + 1)).consumers[c]? := by
  rw [hf.step]
  exact moves_act (hf.enabled n) hq c

theorem stopped (hf : FairRun states actions) (hr : (states n).Reachable config)
    (hq : (states n).session.queue.stopped = true) {m : Nat} (hm : n ≤ m) :
    (states m).session.queue.stopped = true :=
  (hr.stopped_reaches hq (hf.reaches hm)).1.queue

/-- Who sleeps hears the alarm. -/
theorem eventually_awake (hf : FairRun states actions) (hr : (states n).Reachable config)
    (hq : (states n).session.queue.stopped = true)
    (hc : (states n).consumers[c]? = some .asleep) :
    ∃ m, n ≤ m ∧ (states m).consumers[c]? = some .awake := by
  refine hf.alarm.leads_to (P := fun m => (states m).consumers[c]? = some .asleep)
    ?keep ?enabled ?effect hc
  case keep =>
    intro m hm hasleep
    have hmove := hf.moves (hf.stopped hr hq hm) c
    rw [hasleep] at hmove
    generalize (states (m + 1)).consumers[c]? = k at hmove ⊢
    cases hmove with
    | stay => exact Or.inl rfl
    | wake => exact Or.inr rfl
  case enabled =>
    intro m hm hasleep
    exact (hr.reaches (hf.reaches hm)).heard (hf.stopped hr hq hm) (List.mem_of_getElem? hasleep)
  case effect =>
    intro m hm hasleep ha
    rw [hf.step, ha]
    show ((states m).consumers.map Consumer.wake)[c]? = some .awake
    rw [List.getElem?_map, hasleep]
    rfl

/-- Who is awake looks, and leaves. -/
theorem eventually_left (hf : FairRun states actions) (hr : (states n).Reachable config)
    (hq : (states n).session.queue.stopped = true)
    (hc : (states n).consumers[c]? = some .awake) :
    ∃ m, n ≤ m ∧ (states m).consumers[c]? = some (.served .finished) := by
  refine (hf.look c).leads_to (P := fun m => (states m).consumers[c]? = some .awake)
    ?keep ?enabled ?effect hc
  case keep =>
    intro m hm hawake
    have hmove := hf.moves (hf.stopped hr hq hm) c
    rw [hawake] at hmove
    generalize (states (m + 1)).consumers[c]? = k at hmove ⊢
    cases hmove with
    | stay => exact Or.inl rfl
    | leave => exact Or.inr rfl
  case enabled => exact fun m _ hawake => hawake
  case effect =>
    intro m hm hawake ha
    rw [hf.step, ha, consumers_look (hf.stopped hr hq hm),
      List.getElem?_set_self (List.getElem?_eq_some_iff.mp hawake).1]

/-- **Who is blocked in a stopped session leaves with the sentinel.** -/
theorem eventually_served (hf : FairRun states actions) (hr : (states n).Reachable config)
    (hq : (states n).session.queue.stopped = true)
    (hc : (states n).consumers[c]? = some .awake ∨ (states n).consumers[c]? = some .asleep) :
    ∃ m, n ≤ m ∧ ∀ k, m ≤ k → (states k).consumers[c]? = some (.served .finished) := by
  have hawake : ∃ m, n ≤ m ∧ (states m).consumers[c]? = some .awake :=
    hc.elim (fun h => ⟨n, Nat.le_refl n, h⟩) (hf.eventually_awake hr hq)
  obtain ⟨m, hnm, hm⟩ := hawake
  obtain ⟨l, hml, hl⟩ := hf.eventually_left (hr.reaches (hf.reaches hnm)) (hf.stopped hr hq hnm) hm
  have hnl := Nat.le_trans hnm hml
  refine ⟨l, hnl, ?_⟩
  intro k hk
  induction k, hk using Nat.le_induction with
  | base => exact hl
  | succ k hk ih =>
    have hmove := hf.moves (hf.stopped hr hq (Nat.le_trans hnl hk)) c
    rw [ih] at hmove
    generalize (states (k + 1)).consumers[c]? = k' at hmove ⊢
    cases hmove
    rfl

end FairRun

/-! ## What a stop decides -/

/-- What holds from a stop of the queue on, in every state that `a` leads to. -/
structure Final (a : Attended) : Prop where
  /-- Both flags stay up. -/
  flags : ∀ b, a.Reaches b → b.session.stopped = true ∧ b.session.queue.stopped = true
  /-- Every submission is answered `finished` and launches nothing. -/
  submits : ∀ b, a.Reaches b → ∀ others x,
    b.session.submitBetween others x = (b.session, some .finished)
  /-- Every hand-out is the sentinel. -/
  nexts : ∀ b, a.Reaches b → b.session.next? = some (.finished, b.session)
  /-- Slots stay empty, also those of a caller that was blocked and has the sentinel now. -/
  fills : ∀ b, a.Reaches b → ∀ slots, slots ≠ [] →
    (∀ mode, b.session.waitFor mode slots = some (⟨.finished, 0, slots⟩, b.session)) ∧
      b.session.proceed slots .finished = (⟨.finished, 0, slots⟩, b.session)
  /-- No event is handed out any more. -/
  taken : ∀ b, a.Reaches b → b.history.taken = a.history.taken
  served : ∀ b, a.Reaches b → ∀ (c : Nat) (e : Completion), b.consumers[c]? = some (.served e) →
    e = .finished ∨ a.consumers[c]? = some (.served e)
  /-- Who is blocked, now or later, leaves with the sentinel. -/
  blocked : ∀ (states : Nat → Attended) (actions : Nat → Action), FairRun states actions →
    states 0 = a → ∀ n c : Nat,
      (states n).consumers[c]? = some .awake ∨ (states n).consumers[c]? = some .asleep →
        ∃ m, n ≤ m ∧ ∀ k, m ≤ k → (states k).consumers[c]? = some (.served .finished)

theorem Reachable.final_of_queue (hr : a.Reachable config)
    (hq : a.session.queue.stopped = true) : a.Final where
  flags b hb := ⟨(hr.stopped_reaches hq hb).1.session, (hr.stopped_reaches hq hb).1.queue⟩
  submits b hb others x :=
    Session.submitBetween_of_stopped (hr.stopped_reaches hq hb).1.session others x
  nexts b hb := Session.next?_of_stopped (hr.stopped_reaches hq hb).1.queue
  fills b hb slots hs :=
    ⟨fun mode => Session.waitFor_of_stopped (hr.stopped_reaches hq hb).1.queue mode hs, rfl⟩
  taken b hb := (hr.stopped_reaches hq hb).2
  served b hb c e := hr.served_reaches hq hb
  blocked states actions hf h0 n c := by
    subst h0
    have hn := hf.reaches (Nat.zero_le n)
    exact hf.eventually_served (hr.reaches hn) (hr.stopped_reaches hq hn).1.queue

/-- **A stop is final and wakes everyone.** -/
theorem Reachable.final (hr : a.Reachable config) :
    ((∀ c ∈ a.session.closers, c.closing ≠ .halting) →
        a.session.stopped = a.session.queue.stopped) ∧
      (∀ (i : Nat) (c : Closer), a.session.closers[i]? = some c →
        c.closing = .draining ∨ c.closing = .returned → a.session.queue.stopped = true) ∧
      (a.session.queue.stopped = true → a.Final) :=
  ⟨hr.history.stopped_eq, hr.history.signalled.past, hr.final_of_queue⟩

/-- A consumer falls asleep while a chunk is on its way, and the session is stopped: the consumer
hears the alarm, looks, and leaves with the sentinel, whatever is submitted from then on. -/
theorem final_of_stop :
    ∃ a states actions, Reachable .fours a ∧ a.consumers = [.asleep] ∧
      a.session.closers[0]? = some ⟨false, .returned⟩ ∧ a.session.tasks.size = 1 ∧ a.Final ∧
      FairRun states actions ∧ states 0 = a ∧
      ∃ m, ∀ k, m ≤ k → (states k).consumers[0]? = some (.served .finished) := by
  let a := run { history := .new .fours } [.session (.submit .eight), .session (.launch 0),
    .session (.launch 0), .session (.launch 0), .ask, .look 0, .session (.close false),
    .session (.closing 0), .session (.closing 0)]
  have hr : Reachable .fours a := ⟨(History.new .fours).session, rfl, .run (.refl _)
    (by decide +kernel)⟩
  have hasleep : a.consumers = [.asleep] := by decide +kernel
  have hc : a.session.closers[0]? = some ⟨false, .returned⟩ := by decide +kernel
  obtain ⟨-, hpast, hfinal⟩ := hr.final
  have hf := hfinal (hpast 0 _ hc (Or.inr rfl))
  let last := (a.act .alarm).act (.look 0)
  let states : Nat → Attended
    | 0 => a
    | 1 => a.act .alarm
    | _ => last
  let actions : Nat → Action
    | 0 => .alarm
    | 1 => .look 0
    | _ => .session (.submit .eight)
  have hserved : last.consumers = [.served .finished] := by decide +kernel
  have hrun : FairRun states actions := by
    refine ⟨?_, ?_, ?_, ?_⟩
    · rintro (_ | _ | n)
      · exact (by decide +kernel : a.Enabled .alarm)
      · exact (by decide +kernel : (a.act .alarm).Enabled (.look 0))
      · trivial
    · rintro (_ | _ | n)
      · rfl
      · rfl
      · exact (by decide +kernel : last = last.act (.session (.submit .eight)))
    · intro n hn
      exact absurd (hn (n + 2) (Nat.le_add_right ..)) (by decide +kernel : ¬ last.Enabled .alarm)
    · intro c n hn
      have hlast : states (n + 2) = last := rfl
      have hawake := enabled_look.mp (hn (n + 2) (Nat.le_add_right ..))
      rw [hlast, hserved] at hawake
      cases c <;> simp at hawake
  obtain ⟨m, -, hm⟩ := hf.blocked states actions hrun rfl 0 0 (Or.inr (by
    show a.consumers[0]? = _
    rw [hasleep]
    rfl))
  exact ⟨a, states, actions, hr, hasleep, hc, by decide +kernel, hf, hrun, rfl, m, hm⟩

end Attended

end RangeFetch
