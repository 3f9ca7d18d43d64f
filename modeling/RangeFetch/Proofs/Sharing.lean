import RangeFetch.Proofs.Wakeups

/-!
# Sharing among sleepers

Some consumers sleep in front of a queue that holds nothing and expects something, nobody else asks,
and completions are registered and pushed, until the queue is stopped perhaps. Each push calls one
sleeper, but the calls arrive when they like, and whoever is awake looks when it gets to it: the
second push may be there before the first call, and the second consumer called may look first. Each
of them leaves with an event all the same. What is on its way and who is awake are never more than
the queued events, so that nobody who is woken finds the queue empty; and by `Attentive` they are
never fewer while somebody sleeps, so that nobody sleeps beside an event for good.

The steps that others take (register, push, stop) are told apart from those that the wake-ups and
the consumers take themselves. The latter come to an end, whatever their order, and the consumers
have what they wait for then.

Headlines:
* **`Owed.look_cases`**: who is woken finds an event, or a stopped queue.
* **`Owed.remaining_act`**: each step of a wake-up or of a consumer brings the end nearer.
* **`shared_of_blocked`**: the first pushes go to the sleepers, one each, and the others stay
  queued.
-/

namespace RangeFetch

/-! ## Who left with what -/

/-- The completion that a consumer left with. -/
def Consumer.completion? : Consumer → Option Completion
  | .served e => some e
  | _ => none

namespace WaitingRoom

variable {r s : WaitingRoom} {a : Action} {c k : Nat} {q : CompletionQueue}
  {pushed : List Completion} {as : List Action}

theorem served_eq (r : WaitingRoom) : r.served = r.consumers.filterMap Consumer.completion? := by
  unfold served
  congr 1

/-- Each consumer sleeps, is awake, or left. -/
theorem length_consumers (r : WaitingRoom) :
    r.consumers.count .asleep + r.consumers.count .awake + r.served.length =
      r.consumers.length := by
  rw [served_eq]
  induction r.consumers with
  | nil => rfl
  | cons x cs ih => cases x <;> simp [List.filterMap_cons, Consumer.completion?] <;> omega

theorem length_served_le (r : WaitingRoom) : r.served.length ≤ r.consumers.length :=
  List.length_filterMap_le ..

/-- A consumer that had not left changes its place, and may leave by that. -/
theorem served_of_set {x y : Consumer} (hc : r.consumers[c]? = some x) (hx : x.completion? = none)
    (hs : s.consumers = r.consumers.set c y) :
    s.served.Perm (y.completion?.toList ++ r.served) := by
  obtain ⟨others, hbefore, hafter⟩ := exists_perm_set hc y
  have hr : r.served.Perm (others.filterMap Consumer.completion?) := by
    have hbefore := hbefore.filterMap Consumer.completion?
    rwa [List.filterMap_cons_none hx, ← served_eq] at hbefore
  have hy : (y :: others).filterMap Consumer.completion? =
      y.completion?.toList ++ others.filterMap Consumer.completion? := by
    cases y <;> rfl
  rw [served_eq, hs]
  exact ((hafter.filterMap _).trans (.of_eq hy)).trans (hr.symm.append_left _)

/-- Nobody leaves by an alarm. -/
theorem served_alarm (r : WaitingRoom) : (r.act .alarm).served = r.served := by
  rw [served_eq, served_eq]
  show (r.consumers.map Consumer.wake).filterMap _ = _
  rw [List.filterMap_map]
  congr 1
  funext x
  cases x <;> rfl

/-! ## The steps of a run -/

/-- A step of a wake-up or of a consumer. -/
def Action.Inner : Action → Prop
  | .look _ | .call _ | .lapse | .alarm => True
  | _ => False

/-- A step of a run in which nobody else asks for a completion. -/
def Action.Inside : Action → Prop
  | .enter | .take => False
  | _ => True

instance : DecidablePred Action.Inner
  | .look _ | .call _ | .lapse | .alarm => .isTrue trivial
  | .enter | .register _ | .push _ | .take | .stop => .isFalse id

instance : DecidablePred Action.Inside
  | .look _ | .register _ | .push _ | .stop | .call _ | .lapse | .alarm => .isTrue trivial
  | .enter | .take => .isFalse id

theorem Action.Inner.inside (ha : a.Inner) : a.Inside := by
  cases a with
  | enter | take => exact ha
  | look | register | push | stop | call | lapse | alarm => trivial

/-- What the steps push, in their order. -/
def pushes (actions : List Action) : List Completion :=
  actions.filterMap fun
    | .push e => some e
    | _ => none

theorem pushes_append (as bs : List Action) : pushes (as ++ bs) = pushes as ++ pushes bs :=
  List.filterMap_append

theorem pushes_of_inner (has : ∀ a ∈ as, a.Inner) : pushes as = [] := by
  rw [pushes, List.filterMap_eq_nil_iff]
  intro a ha
  have hin := has a ha
  cases a with
  | push e => exact absurd hin (by simp [Action.Inner])
  | enter | look | register | take | stop | call | lapse | alarm => rfl

/-- Only a stop stops the queue. -/
theorem stopped_act (r : WaitingRoom) (a : Action) :
    (r.act a).queue.stopped = true ↔ r.queue.stopped = true ∨ a = .stop := by
  cases a with
  | look c =>
    obtain ⟨-, h⟩ | ⟨-, h⟩ | ⟨e, es, -, -, h⟩ := r.look_cases c <;> simp [h]
  | take =>
    obtain h | ⟨e, es, -, -, h⟩ := r.take_cases <;> simp [h]
  | stop => exact iff_of_true rfl (Or.inr rfl)
  | enter | register | push | call | lapse | alarm => simp [act, CompletionQueue.register,
      CompletionQueue.push]

theorem stopped_run (r : WaitingRoom) (as : List Action) :
    (r.run as).queue.stopped = true ↔ r.queue.stopped = true ∨ .stop ∈ as := by
  induction as generalizing r with
  | nil => simp [run]
  | cons a as ih =>
    show ((r.act a).run as).queue.stopped = true ↔ _
    rw [ih, stopped_act, or_assoc, List.mem_cons, eq_comm (a := Action.stop)]

/-! ## Who is woken finds something -/

/-- Unless the queue is stopped there is an event for each call that is on its way and for each
consumer that is awake. -/
structure Owed (r : WaitingRoom) : Prop where
  quiet : r.queue.stopped = false → r.alarms = 0
  events : r.queue.stopped = false → r.calls + r.consumers.count .awake ≤ r.queue.events.length

/-- **Who is woken** finds an event, or a stopped queue. -/
theorem Owed.look_cases (hi : r.Owed) (hc : r.consumers[c]? = some .awake) :
    (r.queue.stopped = true ∧
        r.act (.look c) = { r with consumers := r.consumers.set c (.served .finished) }) ∨
      ∃ e es, r.queue.stopped = false ∧ r.queue.events = e :: es ∧ r.act (.look c) =
        { r with
          queue := { r.queue with events := es, outstanding := r.queue.outstanding - 1 }
          consumers := r.consumers.set c (.served e) } := by
  have hpos : 0 < r.consumers.count .awake := List.count_pos_iff.mpr (List.mem_of_getElem? hc)
  have hevents : r.queue.stopped = false → r.queue.events ≠ [] := by
    intro hs he
    have := hi.events hs
    rw [he, List.length_nil] at this
    omega
  obtain ⟨⟨hs, he, -⟩, -⟩ | ⟨hp, h⟩ | h := WaitingRoom.look_cases r c
  · exact absurd he (hevents hs)
  · obtain hs | ⟨he, -⟩ := hp
    · exact Or.inl ⟨hs, h⟩
    · exact Or.inl ⟨by_contra fun hs => hevents (by simpa using hs) he, h⟩
  · exact Or.inr h

theorem Owed.step (hi : r.Owed) (ha : r.Enabled a) (hin : a.Inside) : (r.act a).Owed := by
  cases a with
  | enter | take => exact absurd hin (by simp [Action.Inside])
  | look c =>
    have hc : r.consumers[c]? = some .awake := ha
    obtain ⟨hs, h⟩ | ⟨e, es, hs, he, h⟩ := hi.look_cases hc
    · rw [h]
      exact ⟨fun hn => absurd hs (by simp [show r.queue.stopped = false from hn]),
        fun hn => absurd hs (by simp [show r.queue.stopped = false from hn])⟩
    · rw [h]
      refine ⟨hi.quiet, fun _ => ?_⟩
      have hle := hi.events hs
      rw [he, List.length_cons, ← count_awake_of_leaves hc e] at hle
      exact Nat.le_of_succ_le_succ hle
  | register n => exact ⟨hi.quiet, hi.events⟩
  | push e =>
    refine ⟨hi.quiet, fun hs => ?_⟩
    have hle := hi.events hs
    show r.calls + 1 + r.consumers.count .awake ≤ (r.queue.events ++ [e]).length
    rw [List.length_append, List.length_singleton]
    omega
  | stop =>
    have hst : (r.act .stop).queue.stopped ≠ false := by simp [act, CompletionQueue.stop]
    exact ⟨fun hn => absurd hn hst, fun hn => absurd hn hst⟩
  | call c =>
    obtain ⟨hcalls, hc⟩ : 0 < r.calls ∧ r.consumers[c]? = some .asleep := ha
    refine ⟨hi.quiet, fun hs => ?_⟩
    have hle := hi.events hs
    show r.calls - 1 + (r.consumers.set c .awake).count .awake ≤ r.queue.events.length
    rw [count_awake_of_called hc]
    omega
  | lapse =>
    exact ⟨hi.quiet, fun hs =>
      Nat.le_trans (Nat.add_le_add_right (Nat.sub_le r.calls 1) _) (hi.events hs)⟩
  | alarm =>
    -- only a stop sends an alarm
    have hst : r.queue.stopped ≠ false := fun hs => Nat.ne_of_gt ha (hi.quiet hs)
    exact ⟨fun hs => absurd hs hst, fun hs => absurd hs hst⟩

/-! ## What is handed out -/

/-- Those who left have a part of the pushes from the front, one each, and the sentinel once the
queue is stopped; the rest of the pushes is queued. -/
def Dealt (pushed : List Completion) (r : WaitingRoom) : Prop :=
  ∃ handed n, handed ++ r.queue.events = pushed ∧
    r.served.Perm (handed ++ List.replicate n .finished) ∧ (r.queue.stopped = false → n = 0)

theorem Dealt.step (hi : r.Dealt pushed) (ho : r.Owed) (ha : r.Enabled a) (hin : a.Inside) :
    (r.act a).Dealt (pushed ++ pushes [a]) := by
  obtain ⟨handed, n, rfl, hserved, hn⟩ := hi
  cases a with
  | enter | take => exact absurd hin (by simp [Action.Inside])
  | look c =>
    have hc : r.consumers[c]? = some .awake := ha
    show Dealt (handed ++ r.queue.events ++ []) _
    rw [List.append_nil]
    obtain ⟨hs, h⟩ | ⟨e, es, hs, he, h⟩ := ho.look_cases hc
    · refine ⟨handed, n + 1, by rw [h], ?_, fun hs' => ?_⟩
      · have hleft : (r.act (.look c)).served.Perm (.finished :: r.served) :=
          served_of_set hc rfl (congrArg consumers h)
        rw [List.replicate_succ]
        exact (hleft.trans (hserved.cons _)).trans List.perm_middle.symm
      · rw [h] at hs'
        exact absurd hs (by simp [show r.queue.stopped = false from hs'])
    · refine ⟨handed ++ [e], n, by rw [h, he, List.append_assoc, List.singleton_append], ?_, ?_⟩
      · have hleft : (r.act (.look c)).served.Perm (e :: r.served) :=
          served_of_set hc rfl (congrArg consumers h)
        rw [List.append_assoc, List.singleton_append]
        exact (hleft.trans (hserved.cons e)).trans List.perm_middle.symm
      · rw [h]
        exact hn
  | push e => exact ⟨handed, n, (List.append_assoc ..).symm, hserved, hn⟩
  | register m => exact ⟨handed, n, (List.append_nil _).symm, hserved, hn⟩
  | stop =>
    exact ⟨handed, n, (List.append_nil _).symm, hserved,
      fun hs => absurd hs (by simp [act, CompletionQueue.stop])⟩
  | call c =>
    have hserved' : (r.act (.call c)).served.Perm r.served :=
      served_of_set (y := .awake) ha.2 rfl rfl
    exact ⟨handed, n, (List.append_nil _).symm, hserved'.trans hserved, hn⟩
  | lapse => exact ⟨handed, n, (List.append_nil _).symm, hserved, hn⟩
  | alarm => exact ⟨handed, n, (List.append_nil _).symm, by rw [served_alarm]; exact hserved, hn⟩

/-! ## The end of a run -/

/-- No wake-up and no consumer has a step to take. -/
def Settled (r : WaitingRoom) : Prop :=
  ∀ a : Action, a.Inner → ¬ r.Enabled a

/-- What the wake-ups and the consumers can still do: each wake-up arrives, and each consumer
leaves. -/
def remaining (r : WaitingRoom) : Nat :=
  r.calls + r.alarms + (r.consumers.length - r.served.length)

/-- The first `k` consumers have left. -/
def Returned (k : Nat) (r : WaitingRoom) : Prop :=
  ∀ c < k, ∃ e, r.consumers[c]? = some (.served e)

/-- A room is settled when no wake-up is on its way and nobody is awake. -/
theorem settled_iff : r.Settled ↔ r.calls = 0 ∧ r.alarms = 0 ∧ .awake ∉ r.consumers := by
  constructor
  · refine fun hs => ⟨?_, Nat.eq_zero_of_not_pos (hs .alarm trivial), fun hm => ?_⟩
    · by_contra hne
      have hpos := Nat.pos_of_ne_zero hne
      by_cases hm : .asleep ∈ r.consumers
      · obtain ⟨c, hc⟩ := List.mem_iff_getElem?.mp hm
        exact hs (.call c) trivial ⟨hpos, hc⟩
      · exact hs .lapse trivial ⟨hpos, hm⟩
    · obtain ⟨c, hc⟩ := List.mem_iff_getElem?.mp hm
      exact hs (.look c) trivial hc
  · rintro ⟨hcalls, halarms, hawake⟩ a hin ha
    cases a with
    | enter | register | push | take | stop => exact hin
    | look c => exact hawake (List.mem_of_getElem? ha)
    | call | lapse => exact Nat.ne_of_gt ha.1 hcalls
    | alarm => exact Nat.ne_of_gt ha halarms

instance (r : WaitingRoom) : Decidable r.Settled :=
  decidable_of_iff _ settled_iff.symm

/-- **Each step of a wake-up or of a consumer** brings the end nearer. -/
theorem Owed.remaining_act (hi : r.Owed) (ha : r.Enabled a) (hin : a.Inner) :
    (r.act a).remaining + 1 = r.remaining := by
  cases a with
  | enter | register | push | take | stop => exact absurd hin id
  | look c =>
    have hc : r.consumers[c]? = some .awake := ha
    have hgone : ∃ q e, r.act (.look c) = { r with
        queue := q, consumers := r.consumers.set c (.served e) } := by
      obtain ⟨-, h⟩ | ⟨e, es, -, -, h⟩ := hi.look_cases hc
      · exact ⟨_, _, h⟩
      · exact ⟨_, _, h⟩
    obtain ⟨q, e, h⟩ := hgone
    have hserved : (r.act (.look c)).served.length = r.served.length + 1 :=
      (served_of_set hc rfl (congrArg consumers h)).length_eq
    have hle := length_served_le (r.act (.look c))
    have hlength : (r.act (.look c)).consumers.length = r.consumers.length := by
      rw [h]
      exact List.length_set
    rw [hserved, hlength] at hle
    have hcalls : (r.act (.look c)).calls = r.calls := by rw [h]
    have halarms : (r.act (.look c)).alarms = r.alarms := by rw [h]
    rw [remaining, remaining, hserved, hlength, hcalls, halarms]
    omega
  | call c =>
    have hserved : (r.act (.call c)).served.length = r.served.length :=
      (served_of_set (y := .awake) ha.2 rfl rfl).length_eq
    have hlength : (r.act (.call c)).consumers.length = r.consumers.length := List.length_set
    have hcalls : (r.act (.call c)).calls + 1 = r.calls := Nat.sub_add_cancel ha.1
    rw [remaining, remaining, hserved, hlength, ← hcalls]
    show _ + r.alarms + _ + 1 = _
    omega
  | lapse =>
    show r.calls - 1 + r.alarms + (r.consumers.length - r.served.length) + 1 = r.remaining
    have hpos : 0 < r.calls := ha.1
    rw [remaining]
    omega
  | alarm =>
    have hlength : (r.act .alarm).consumers.length = r.consumers.length := List.length_map _
    have halarms : (r.act .alarm).alarms + 1 = r.alarms := Nat.sub_add_cancel ha
    rw [remaining, remaining, served_alarm, hlength, ← halarms]
    show r.calls + _ + _ + 1 = _
    omega

/-! ## Runs -/

/-- What is kept while `pushed` is pushed to `k` sleepers. -/
structure Sharing (k : Nat) (pushed : List Completion) (r : WaitingRoom) : Prop where
  size : r.consumers.length = k
  attentive : r.Attentive
  owed : r.Owed
  dealt : r.Dealt pushed

theorem length_act (ha : a.Inside) : (r.act a).consumers.length = r.consumers.length := by
  cases a with
  | enter | take => exact absurd ha id
  | look c =>
    obtain ⟨-, h⟩ | ⟨-, h⟩ | ⟨e, es, -, -, h⟩ := r.look_cases c <;> rw [h] <;> exact List.length_set
  | call c => exact List.length_set
  | alarm => exact List.length_map _
  | register | push | stop | lapse => rfl

theorem Sharing.step (hi : r.Sharing k pushed) (ha : r.Enabled a) (hin : a.Inside) :
    (r.act a).Sharing k (pushed ++ pushes [a]) :=
  ⟨(length_act hin).trans hi.size, hi.attentive.step ha, hi.owed.step ha hin,
    hi.dealt.step hi.owed ha hin⟩

theorem Sharing.run (hi : r.Sharing k pushed) (hl : r.Legal as) (hin : ∀ a ∈ as, a.Inside) :
    (r.run as).Sharing k (pushed ++ pushes as) := by
  induction as generalizing r pushed with
  | nil => exact (List.append_nil pushed).symm ▸ hi
  | cons a as ih =>
    obtain ⟨hnow, hlater⟩ := List.forall_mem_cons.mp hin
    have hrest := ih (hi.step hl.1 hnow) hl.2 hlater
    rw [List.append_assoc, ← pushes_append] at hrest
    exact hrest

/-- **The wake-ups and the consumers come to an end**, whatever their order. -/
theorem Sharing.length_le_remaining (hi : r.Sharing k pushed) (hl : r.Legal as)
    (hin : ∀ a ∈ as, a.Inner) : as.length ≤ r.remaining := by
  induction as generalizing r pushed with
  | nil => exact Nat.zero_le _
  | cons a as ih =>
    obtain ⟨hnow, hlater⟩ := List.forall_mem_cons.mp hin
    have hle := ih (hi.step hl.1 hnow.inside) hl.2 hlater
    have hleft := hi.owed.remaining_act hl.1 hnow
    rw [List.length_cons]
    omega

theorem Sharing.exists_settled (hi : r.Sharing k pushed) :
    ∃ bs, (∀ b ∈ bs, b.Inner) ∧ r.Legal bs ∧ (r.run bs).Settled := by
  induction hn : r.remaining generalizing r pushed with
  | zero =>
    refine ⟨[], by simp, trivial, fun a hin ha => ?_⟩
    have hleft := hi.owed.remaining_act ha hin
    omega
  | succ n ih =>
    by_cases hs : r.Settled
    · exact ⟨[], by simp, trivial, hs⟩
    · simp only [Settled, not_forall, not_not] at hs
      obtain ⟨a, hin, ha⟩ := hs
      have hleft := hi.owed.remaining_act ha hin
      obtain ⟨bs, hbs, hl, hend⟩ := ih (hi.step ha hin.inside) (by omega)
      exact ⟨a :: bs, List.forall_mem_cons.mpr ⟨hin, hbs⟩, ⟨ha, hl⟩, hend⟩

/-- **Everybody left** when there is nothing more to do, if there were enough pushes or a stop. -/
theorem Sharing.returned (hi : r.Sharing k pushed) (hs : r.Settled)
    (hk : k ≤ pushed.length ∨ r.queue.stopped = true) : r.Returned k := by
  obtain ⟨hcalls, halarms, hawake⟩ := settled_iff.mp hs
  have hcount := r.length_consumers
  rw [List.count_eq_zero.mpr hawake, hi.size] at hcount
  have hnone : .asleep ∉ r.consumers := by
    intro hm
    by_cases hst : r.queue.stopped = true
    · exact Nat.ne_of_gt (hi.attentive.alarmed hst hm) halarms
    · -- no event is queued, so all of them were handed out, one to each that left
      have hst : r.queue.stopped = false := by simpa using hst
      have hle := hi.attentive.called hst hm
      rw [hcalls, List.count_eq_zero.mpr hawake] at hle
      obtain ⟨handed, n, rfl, hserved, hn⟩ := hi.dealt
      have hlen := hserved.length_eq
      rw [hn hst, List.replicate_zero, List.append_nil] at hlen
      have henough := hk.resolve_right (by simp [hst])
      rw [List.length_append] at henough
      have hpos := List.count_pos_iff.mpr hm
      omega
  intro c hc
  rw [← hi.size] at hc
  have hm : r.consumers[c] ∈ r.consumers := List.getElem_mem hc
  cases hx : r.consumers[c] with
  | served e => exact ⟨e, by rw [List.getElem?_eq_getElem hc, hx]⟩
  | asleep => exact absurd (hx ▸ hm) hnone
  | awake => exact absurd (hx ▸ hm) hawake

/-- Without a stop, those who left have the first pushes when all have left. -/
theorem Sharing.firsts (hi : r.Sharing k pushed) (hs : r.queue.stopped = false)
    (hr : r.Returned k) :
    r.served.Perm (pushed.take k) ∧ r.queue.events = pushed.drop k := by
  have hnone : ∀ x : Consumer, x = .asleep ∨ x = .awake → r.consumers.count x = 0 := by
    intro x hx
    rw [List.count_eq_zero]
    intro hm
    obtain ⟨c, hlt, hc⟩ := List.mem_iff_getElem.mp hm
    obtain ⟨e, he⟩ := hr c (hi.size ▸ hlt)
    rw [List.getElem?_eq_getElem hlt, hc] at he
    obtain rfl := Option.some.inj he
    simp at hx
  have hcount := r.length_consumers
  rw [hnone _ (Or.inl rfl), hnone _ (Or.inr rfl), hi.size] at hcount
  obtain ⟨handed, n, rfl, hserved, hn⟩ := hi.dealt
  rw [hn hs, List.replicate_zero, List.append_nil] at hserved
  have hlen : handed.length = k := by rw [← hserved.length_eq]; omega
  rw [List.take_left' hlen, List.drop_left' hlen]
  exact ⟨hserved, rfl⟩

/-! ## Blocked consumers -/

/-- `k` consumers are asleep in front of the queue, and nothing is on its way to them. -/
def blocked (q : CompletionQueue) (k : Nat) : WaitingRoom :=
  ⟨q, List.replicate k .asleep, 0, 0⟩

/-- It comes to this when `k` consumers ask a queue that blocks. -/
theorem reaches_blocked (hq : q.Blocks) (k : Nat) : Reaches ⟨q, [], 0, 0⟩ (blocked q k) := by
  induction k with
  | zero => exact .refl
  | succ k ih =>
    have hlook : (((blocked q k).act .enter).act (.look k)) = blocked q (k + 1) := by
      show look ⟨q, List.replicate k .asleep ++ [.awake], 0, 0⟩ k = _
      rw [look, (CompletionQueue.take?_eq_none_iff q).mpr hq]
      simp [blocked, List.replicate_succ']
    rw [← hlook]
    refine (ih.step (a := .enter) trivial).step ?_
    show (List.replicate k Consumer.asleep ++ [.awake])[k]? = some .awake
    simp

theorem sharing_blocked (hq : q.Blocks) (k : Nat) : (blocked q k).Sharing k [] := by
  obtain ⟨hs, he, -⟩ := hq
  have hnone : (List.replicate k Consumer.asleep).count .awake = 0 := by
    rw [List.count_eq_zero]
    simp
  have hserved : (blocked q k).served = [] := by
    rw [served_eq, List.filterMap_eq_nil_iff]
    intro x hx
    rw [List.eq_of_mem_replicate hx]
    rfl
  exact ⟨List.length_replicate,
    ⟨fun hst => absurd hst (by simp [blocked, hs]), fun _ _ => by simp [blocked, he]⟩,
    ⟨fun _ => rfl, fun _ => by simp [blocked, hnone]⟩,
    [], 0, he, by rw [hserved]; exact .refl _, fun _ => rfl⟩

/-- What `k` blocked consumers have when the steps `as` were taken. -/
structure Shared (k : Nat) (as : List Action) (r : WaitingRoom) : Prop where
  /-- Those who left have pushes from the front, one each, and after a stop the sentinel. The other
  pushes are queued, in order. -/
  dealt : ∃ handed n, handed ++ r.queue.events = pushes as ∧
    r.served.Perm (handed ++ List.replicate n .finished) ∧ (.stop ∉ as → n = 0)
  /-- The wake-ups and the consumers come to an end whatever their order. -/
  ends : ∀ bs, (∀ b ∈ bs, b.Inner) → r.Legal bs → bs.length ≤ r.remaining
  settles : ∃ bs, (∀ b ∈ bs, b.Inner) ∧ r.Legal bs ∧ (r.run bs).Settled
  /-- After `k` pushes or a stop, everybody has left then. -/
  returned : k ≤ (pushes as).length ∨ .stop ∈ as →
    ∀ bs, (∀ b ∈ bs, b.Inner) → r.Legal bs → (r.run bs).Settled → (r.run bs).Returned k
  /-- Where all have left and nobody stopped the queue, they have exactly the first `k` pushes, and
  exactly the others are queued. -/
  firsts : .stop ∉ as → r.Returned k →
    r.served.Perm ((pushes as).take k) ∧ r.queue.events = (pushes as).drop k

/-- **Sleepers share what is pushed.** -/
theorem shared_of_blocked (hq : q.Blocks) (k : Nat) :
    Reaches ⟨q, [], 0, 0⟩ (blocked q k) ∧
      ∀ as, (blocked q k).Legal as → (∀ a ∈ as, a.Inside) →
        Shared k as ((blocked q k).run as) := by
  refine ⟨reaches_blocked hq k, fun as hl hin => ?_⟩
  have hi : ((blocked q k).run as).Sharing k (pushes as) := (sharing_blocked hq k).run hl hin
  have hstopped : ((blocked q k).run as).queue.stopped = true ↔ .stop ∈ as := by
    rw [stopped_run]
    simp [blocked, hq.1]
  have hrunning : .stop ∉ as → ((blocked q k).run as).queue.stopped = false := fun hn => by
    simpa [hn] using hstopped
  obtain ⟨handed, n, hpushed, hserved, hn⟩ := hi.dealt
  refine ⟨⟨handed, n, hpushed, hserved, fun h => hn (hrunning h)⟩,
    fun bs hbs hbl => hi.length_le_remaining hbl hbs, hi.exists_settled,
    fun hk bs hbs hbl hend => ?_, fun h => hi.firsts (hrunning h)⟩
  have hj := hi.run hbl fun b hb => (hbs b hb).inside
  rw [pushes_of_inner hbs, List.append_nil] at hj
  exact hj.returned hend (hk.imp_right fun h => (stopped_run ..).mpr (Or.inl (hstopped.mpr h)))

/-- The second of two consumers is called first and leaves with the first push; the third push
stays queued. Where the queue is stopped after one push, one consumer leaves with it and the other
one with the sentinel. -/
theorem shared_of_two :
    let q := CompletionQueue.expecting 1
    let pushed : List Action := [.push ⟨1, .success⟩, .push ⟨2, .fileAccess⟩, .call 1, .register 2,
      .push ⟨3, .success⟩, .look 1, .call 0]
    let stopped : List Action := [.push ⟨1, .success⟩, .call 0, .look 0, .stop, .push ⟨2, .success⟩]
    q.Blocks ∧ Shared 2 pushed ((blocked q 2).run pushed) ∧
      ((blocked q 2).run (pushed ++ [.look 0, .lapse])).Returned 2 ∧
      ((blocked q 2).run (pushed ++ [.look 0, .lapse])).served =
        [⟨2, .fileAccess⟩, ⟨1, .success⟩] ∧
      ((blocked q 2).run (stopped ++ [.alarm, .look 1, .lapse])).Returned 2 ∧
      ((blocked q 2).run (stopped ++ [.alarm, .look 1, .lapse])).served =
        [⟨1, .success⟩, .finished] := by
  intro q pushed stopped
  obtain ⟨-, hrun⟩ := shared_of_blocked (q := q) (by decide) 2
  have hpushed := hrun pushed (by decide) (by decide)
  have hstopped := hrun stopped (by decide) (by decide)
  exact ⟨by decide, hpushed,
    hpushed.returned (Or.inl (by decide)) [.look 0, .lapse] (by decide) (by decide) (by decide),
    by decide,
    hstopped.returned (Or.inr (by decide)) [.alarm, .look 1, .lapse] (by decide) (by decide)
      (by decide),
    by decide⟩

end WaitingRoom

end RangeFetch
