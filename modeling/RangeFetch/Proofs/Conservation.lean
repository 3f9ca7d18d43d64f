import RangeFetch.Completion.WaitingRoom

/-!
# What goes through a queue

A queue is handed completions by those who push and gives them to those who ask, and beside it a
count of what is still to be handed out is kept. The two are held apart on purpose: nobody checks
that what is pushed was registered. A `Journal` is a queue with a record of both sides.

A pushed completion may look like the sentinel. What is handed out counts as an event when it leaves
the queue, and as the sentinel when the queue has none to give and stays as it is.

Headlines:
* **`CompletionQueue.take?_cases`**: a hand-out finds that there is one to wait for, gives the
  sentinel, or gives the first event.
* **`Journal.entered_append`**: what was handed out and what is queued are the pushes, in order.
* **`Journal.Covered.balanced`**: where no more is pushed than registered, the count is exact.
* **`Journal.conserved`** puts these together.
-/

namespace RangeFetch

/-! ## What a hand-out finds -/

namespace CompletionQueue

variable {q q' : CompletionQueue} {e : Completion}

/-- There is no event to be had from the queue, and none to wait for. -/
def Spent (q : CompletionQueue) : Prop :=
  q.stopped = true ∨ q.events = [] ∧ q.outstanding = 0

instance (q : CompletionQueue) : Decidable q.Spent :=
  inferInstanceAs (Decidable (_ ∨ _ ∧ _))

theorem take?_of_spent (h : q.Spent) : q.take? = some (.finished, q) := by
  unfold take?
  obtain hs | ⟨he, h0⟩ := h
  · rw [if_pos hs]
  · rw [he, if_pos h0]
    split <;> rfl

theorem take?_of_cons {es : List Completion} (hs : q.stopped = false) (he : q.events = e :: es) :
    q.take? = some (e, { q with events := es, outstanding := q.outstanding - 1 }) := by
  rw [take?, if_neg (by simp [hs]), he]

/-- **A hand-out** finds that there is one to wait for, gives the sentinel, or gives the first
event. -/
theorem take?_cases (q : CompletionQueue) :
    q.Blocks ∧ q.take? = none ∨ q.Spent ∧ q.take? = some (.finished, q) ∨
      ∃ e es, q.stopped = false ∧ q.events = e :: es ∧
        q.take? = some (e, { q with events := es, outstanding := q.outstanding - 1 }) := by
  by_cases hb : q.Blocks
  · exact Or.inl ⟨hb, (take?_eq_none_iff q).mpr hb⟩
  by_cases hp : q.Spent
  · exact Or.inr (Or.inl ⟨hp, take?_of_spent hp⟩)
  refine Or.inr (Or.inr ?_)
  unfold Spent at hp
  unfold Blocks at hb
  have hs : q.stopped = false := by simpa using fun h => hp (Or.inl h)
  cases he : q.events with
  | nil => exact absurd ⟨hs, he, Nat.pos_of_ne_zero fun h0 => hp (Or.inr ⟨he, h0⟩)⟩ hb
  | cons e es => exact ⟨e, es, hs, rfl, take?_of_cons hs he⟩

/-- **The sentinel changes nothing**, and what changes nothing is the sentinel. -/
theorem take?_eq_self_iff : q.take? = some (.finished, q) ↔ q.Spent := by
  refine ⟨fun h => ?_, take?_of_spent⟩
  obtain ⟨-, h'⟩ | ⟨hp, -⟩ | ⟨e, es, -, he, h'⟩ := take?_cases q
  · exact absurd (h.symm.trans h') (by simp)
  · exact hp
  · have hq := congrArg CompletionQueue.events (Prod.mk.inj (Option.some.inj (h.symm.trans h'))).2
    rw [he] at hq
    exact absurd hq (List.cons_ne_self e es)

end CompletionQueue

/-! ## The record of a queue -/

/-- A queue, the completions that were registered with it, and those that went in and out, each in
the order in which they did. -/
structure Journal where
  queue : CompletionQueue
  registered : Nat := 0
  pushed : List Completion := []
  /-- The events that left the queue. -/
  handed : List Completion := []
  deriving DecidableEq, Repr

namespace Journal

/-- What is done to a queue. -/
inductive Operation where
  | register (n : Nat)
  | push (e : Completion)
  /-- A caller asks for a completion. Where there is one to wait for it goes away with nothing, or
  it waits; the queue stays as it is either way. -/
  | take
  | stop
  deriving DecidableEq, Repr

/-- A new queue that `expected` completions are registered with. -/
def opened (expected : Nat) : Journal where
  queue := .expecting expected
  registered := expected

variable (j : Journal)

/-- The journal after an operation. -/
def act : Operation → Journal
  | .register n => { j with queue := j.queue.register n, registered := j.registered + n }
  | .push e => { j with queue := j.queue.push e, pushed := j.pushed ++ [e] }
  | .take =>
    match j.queue.take? with
    | none => j
    | some (e, queue) =>
      { j with queue, handed := j.handed ++ if j.queue.Spent then [] else [e] }
  | .stop => { j with queue := j.queue.stop }

/-- The journal after some operations. -/
def run (ops : List Operation) : Journal :=
  ops.foldl act j

/-- At no moment of the run have more completions been pushed than registered. -/
def Covered : Journal → List Operation → Prop
  | j, [] => j.pushed.length ≤ j.registered
  | j, op :: ops => j.pushed.length ≤ j.registered ∧ Covered (j.act op) ops

instance Covered.decidable : (j : Journal) → (ops : List Operation) → Decidable (j.Covered ops)
  | j, [] => inferInstanceAs (Decidable (j.pushed.length ≤ j.registered))
  | j, op :: ops =>
    have := Covered.decidable (j.act op) ops
    inferInstanceAs (Decidable (_ ∧ _))

variable {j}

/-- What asking for a completion does. -/
theorem act_take : j.act .take = j ∨
    ∃ e es, j.queue.stopped = false ∧ j.queue.events = e :: es ∧ j.act .take =
      { j with
        queue := { j.queue with events := es, outstanding := j.queue.outstanding - 1 }
        handed := j.handed ++ [e] } := by
  obtain ⟨-, ht⟩ | ⟨hp, ht⟩ | ⟨e, es, hs, he, ht⟩ := j.queue.take?_cases
  · exact Or.inl (by rw [act, ht])
  · exact Or.inl (by simp [act, ht, hp])
  · have hp : ¬ j.queue.Spent := by simp [CompletionQueue.Spent, hs, he]
    exact Or.inr ⟨e, es, hs, he, by simp [act, ht, hp]⟩

/-- What holds at first and is kept by every operation holds after each run. -/
theorem run_induct {P : Journal → Prop}
    (step : ∀ {j : Journal} (op : Operation), P j → P (j.act op)) (hj : P j)
    (ops : List Operation) : P (j.run ops) := by
  induction ops generalizing j with
  | nil => exact hj
  | cons op ops ih => exact ih (step op hj)

/-! ## Events -/

/-- What was handed out and what is queued are the pushes, and the count stays within the
registrations. -/
structure Entered (j : Journal) : Prop where
  append : j.handed ++ j.queue.events = j.pushed
  bounded : j.queue.outstanding ≤ j.registered

theorem Entered.act (hi : j.Entered) (op : Operation) : (j.act op).Entered := by
  cases op with
  | register n => exact ⟨hi.append, Nat.add_le_add_right hi.bounded n⟩
  | push e =>
    refine ⟨?_, hi.bounded⟩
    show j.handed ++ (j.queue.events ++ [e]) = j.pushed ++ [e]
    rw [← List.append_assoc, hi.append]
  | take =>
    obtain h | ⟨e, es, -, he, h⟩ := j.act_take
    · rw [h]
      exact hi
    · rw [h]
      refine ⟨?_, Nat.le_trans (Nat.sub_le ..) hi.bounded⟩
      rw [List.append_assoc, List.singleton_append, ← he]
      exact hi.append
  | stop => exact ⟨hi.append, hi.bounded⟩

/-- **Nothing is lost, doubled or put out of order.** -/
theorem entered_append (expected : Nat) (ops : List Operation) :
    ((opened expected).run ops).Entered :=
  run_induct (fun op hi => hi.act op) ⟨rfl, Nat.le_of_eq (Nat.zero_add expected)⟩ ops

/-! ## A stopped queue -/

/-- A queue that was stopped at `j` hands out nothing more, and keeps what it holds. -/
structure Closed (j k : Journal) : Prop where
  stopped : k.queue.stopped = true
  handed : k.handed = j.handed
  kept : j.queue.events <+: k.queue.events

theorem Closed.act {k : Journal} (hi : j.Closed k) (op : Operation) : j.Closed (k.act op) := by
  cases op with
  | register n => exact ⟨hi.stopped, hi.handed, hi.kept⟩
  | push e => exact ⟨hi.stopped, hi.handed, hi.kept.trans (List.prefix_append ..)⟩
  | take =>
    obtain h | ⟨e, es, hs, -⟩ := k.act_take
    · rw [h]
      exact hi
    · exact absurd hi.stopped (by simp [hs])
  | stop => exact ⟨rfl, hi.handed, hi.kept⟩

theorem closed_run (hs : j.queue.stopped = true) (ops : List Operation) : j.Closed (j.run ops) :=
  run_induct (fun op hi => hi.act op) ⟨hs, rfl, List.prefix_refl _⟩ ops

/-! ## The count -/

/-- The count is what was registered and not handed out, and it covers what is queued. -/
structure Balanced (j : Journal) : Prop where
  outstanding : j.queue.outstanding + j.handed.length = j.registered
  /-- A hand-out finds the count above zero. -/
  unsaturated : j.queue.events.length ≤ j.queue.outstanding
  /-- After as many hand-outs as registrations nobody waits. -/
  last : j.handed.length = j.registered → j.queue.take? = some (.finished, j.queue)

/-- Where the count is exact and no more is pushed than registered, it covers what is queued. -/
theorem Entered.balanced (hi : j.Entered)
    (hb : j.queue.outstanding + j.handed.length = j.registered)
    (hc : j.pushed.length ≤ j.registered) : j.Balanced := by
  have hlen : j.handed.length + j.queue.events.length = j.pushed.length := by
    rw [← List.length_append, hi.append]
  refine ⟨hb, by omega, fun hl => CompletionQueue.take?_of_spent (Or.inr ⟨?_, by omega⟩)⟩
  exact List.length_eq_zero_iff.mp (by omega)

/-- **The count is exact** in a run that pushes no more than is registered. -/
theorem Covered.balanced {ops : List Operation} (hc : j.Covered ops) (hi : j.Entered)
    (hb : j.queue.outstanding + j.handed.length = j.registered) : (j.run ops).Balanced := by
  induction ops generalizing j with
  | nil => exact hi.balanced hb hc
  | cons op ops ih =>
    obtain ⟨hnow, hrest⟩ := hc
    refine ih hrest (hi.act op) ?_
    cases op with
    | register n =>
      show j.queue.outstanding + n + j.handed.length = j.registered + n
      omega
    | push e | stop => exact hb
    | take =>
      obtain h | ⟨e, es, -, he, h⟩ := j.act_take
      · rw [h]
        exact hb
      · -- an event that leaves the queue was counted, so one can be taken off the count
        have hpos := (hi.balanced hb hnow).unsaturated
        rw [he, List.length_cons] at hpos
        rw [h]
        simp only [List.length_append, List.length_singleton]
        omega

/-! ## The law of the queue -/

/-- What a queue with a record answers, and what its record says. -/
structure Conserved (j : Journal) : Prop where
  /-- What was handed out, followed by what is queued, is what was pushed. -/
  order : j.handed ++ j.queue.events = j.pushed
  /-- The count fits wherever the registrations fit. -/
  bounded : j.queue.outstanding ≤ j.registered
  /-- A caller goes away with nothing exactly when there is a completion to wait for. -/
  waits : j.queue.take? = none ↔
    j.queue.stopped = false ∧ j.queue.events = [] ∧ 0 < j.queue.outstanding
  /-- A caller that would wait falls asleep then, and only then. -/
  sleeps : ∀ (r : WaitingRoom) (c : Nat), r.queue = j.queue → r.consumers[c]? = some .awake →
    ((r.act (.look c)).consumers[c]? = some .asleep ↔ j.queue.take? = none)
  /-- The sentinel is given exactly when the queue is stopped or has nothing and expects nothing,
  and giving it changes nothing. -/
  sentinel : j.queue.take? = some (.finished, j.queue) ↔
    j.queue.stopped = true ∨ j.queue.events = [] ∧ j.queue.outstanding = 0
  /-- In all other cases the first event is given, and nothing else changes but the count. -/
  event : ∀ e q, j.queue.take? = some (e, q) → ¬ j.queue.Spent →
    j.queue.events = e :: q.events ∧ q.outstanding = j.queue.outstanding - 1 ∧ q.stopped = false
  /-- Unless somebody pushed one, what looks like a sentinel is one. -/
  told : (∀ e ∈ j.pushed, e.isFinished = false) → ∀ e q, j.queue.take? = some (e, q) →
    (e.isFinished = true ↔ j.queue.Spent)
  /-- From a stop on only sentinels are given, and nothing leaves the queue. -/
  closed : j.queue.stopped = true → ∀ ops,
    (j.run ops).handed = j.handed ∧ j.queue.events <+: (j.run ops).queue.events ∧
      (j.run ops).queue.take? = some (.finished, (j.run ops).queue)

/-- A caller that looks falls asleep exactly when there is a completion to wait for. -/
theorem asleep_look_iff {r : WaitingRoom} {c : Nat} (hc : r.consumers[c]? = some .awake) :
    (r.act (.look c)).consumers[c]? = some .asleep ↔ r.queue.take? = none := by
  have hlt := (List.getElem?_eq_some_iff.mp hc).1
  show (r.look c).consumers[c]? = some .asleep ↔ _
  unfold WaitingRoom.look
  cases r.queue.take? with
  | none => simp [List.getElem?_set_self hlt]
  | some p => simp [List.getElem?_set_self hlt]

theorem Entered.law (hi : j.Entered) : j.Conserved where
  order := hi.append
  bounded := hi.bounded
  waits := j.queue.take?_eq_none_iff
  sleeps r c hr hc := hr ▸ asleep_look_iff hc
  sentinel := CompletionQueue.take?_eq_self_iff
  event e q ht hn := by
    obtain ⟨-, h⟩ | ⟨hp, -⟩ | ⟨e', es, hs, he, h⟩ := j.queue.take?_cases
    · exact absurd (ht.symm.trans h) (by simp)
    · exact absurd hp hn
    · obtain ⟨rfl, rfl⟩ := Prod.mk.inj (Option.some.inj (ht.symm.trans h))
      exact ⟨he, rfl, hs⟩
  told hp e q ht := by
    obtain ⟨-, h⟩ | ⟨hs, h⟩ | ⟨e', es, hs, he, h⟩ := j.queue.take?_cases
    · exact absurd (ht.symm.trans h) (by simp)
    · obtain ⟨rfl, -⟩ := Prod.mk.inj (Option.some.inj (ht.symm.trans h))
      exact iff_of_true rfl hs
    · obtain ⟨rfl, -⟩ := Prod.mk.inj (Option.some.inj (ht.symm.trans h))
      have hmem : e ∈ j.pushed := by
        rw [← hi.append, he]
        exact List.mem_append_right _ List.mem_cons_self
      have hn : ¬ j.queue.Spent := by simp [CompletionQueue.Spent, hs, he]
      exact iff_of_false (by simp [hp e hmem]) hn
  closed hs ops :=
    have hk := closed_run hs ops
    ⟨hk.handed, hk.kept, CompletionQueue.take?_of_spent (Or.inl hk.stopped)⟩

/-- **A queue conserves what is pushed**, at every moment of every run; and in a run that pushes no
more than is registered its count is what was registered and not handed out. -/
theorem conserved (expected : Nat) (ops : List Operation) :
    ((opened expected).run ops).Conserved ∧
      ((opened expected).Covered ops → ((opened expected).run ops).Balanced) :=
  have hopened : (opened expected).Entered := entered_append expected []
  ⟨(entered_append expected ops).law, fun hc =>
    hc.balanced hopened (Nat.zero_add expected)⟩

/-- Three completions are registered, one of them late, and as many are pushed before the queue is
stopped; a fourth one is pushed into the stopped queue and stays there. -/
theorem conserved_of_stop :
    let j := (opened 2).run [.push ⟨1, .success⟩, .take, .take, .push ⟨2, .fileAccess⟩, .register 1,
      .push ⟨3, .success⟩, .take, .stop, .take]
    j.Conserved ∧ j.Balanced ∧ j.handed = [⟨1, .success⟩, ⟨2, .fileAccess⟩] ∧
      j.queue.events = [⟨3, .success⟩] ∧ j.queue.outstanding = 1 ∧
      ((j.run [.register 1, .push ⟨4, .success⟩, .take]).queue.take?).map Prod.fst =
        some .finished := by
  intro j
  obtain ⟨hlaw, hcount⟩ := conserved 2 [.push ⟨1, .success⟩, .take, .take, .push ⟨2, .fileAccess⟩,
    .register 1, .push ⟨3, .success⟩, .take, .stop, .take]
  have hclosed := (hlaw.closed rfl [.register 1, .push ⟨4, .success⟩, .take]).2.2
  exact ⟨hlaw, hcount (by decide), by decide, by decide, by decide, by rw [hclosed]; rfl⟩

/-- Where more is pushed than registered, the count is no longer what is registered and not handed
out. -/
example :
    let j := (opened 1).run [.push ⟨1, .success⟩, .push ⟨2, .success⟩, .take, .take, .register 1]
    j.handed.length = 2 ∧ j.registered = 2 ∧ j.queue.outstanding = 1 := by
  decide

end Journal

end RangeFetch
