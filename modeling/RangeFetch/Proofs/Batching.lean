import RangeFetch.Proofs.Conservation
import RangeFetch.Proofs.Stopping

/-!
# Completions in batches

A caller may take completions one by one or fill slots with them. Filling slots is a loop that takes
the first completion as a single call does and goes on while there are more; it ends at a sentinel,
at an empty queue or at the last slot. In a session, where every queued completion was registered
and none looks like a sentinel, this comes to the completions that are there, as far as there is
room.

A `Turn` is a step of others or a call that takes completions, with nobody in between; a run of
turns may cut what is taken in any way.

Headlines:
* **`Reachable.waitFor_some`**, **`waitFor_spent`**, **`waitFor_pending`**: what a caller that fills
  slots comes back with.
* **`Reachable.waitFor_blocked_iff`**: who blocks waits for the first push.
* **`Reachable.turns_eq`**: a call is as many hand-outs as it has completions.
* **`Abreast.turns`**: what others do and push does not depend on who takes what and when.
* **`Reachable.batched`** puts these together.
-/

namespace RangeFetch

/-! ## The completions that are there -/

namespace CompletionQueue

variable {q : CompletionQueue} {e : Completion} {es : List Completion} {n : Nat}

/-- The completions that can be handed out at once. -/
def ready (q : CompletionQueue) : List Completion :=
  if q.stopped then [] else q.events

/-- The queue after its first `n` completions are handed out. -/
def after (q : CompletionQueue) (n : Nat) : CompletionQueue :=
  { q with events := q.events.drop n, outstanding := q.outstanding - n }

@[simp] theorem after_zero (q : CompletionQueue) : q.after 0 = q := rfl

theorem after_after (q : CompletionQueue) (m n : Nat) : (q.after m).after n = q.after (m + n) := by
  simp [after, Nat.sub_sub]

theorem ready_after (q : CompletionQueue) (n : Nat) : (q.after n).ready = q.ready.drop n := by
  unfold ready after
  split <;> simp

theorem mem_events_of_ready (h : e ∈ q.ready) : e ∈ q.events := by
  unfold ready at h
  split at h
  · exact absurd h (by simp)
  · exact h

/-- A completion that is there is handed out. -/
theorem take?_of_ready (h : q.ready = e :: es) : q.take? = some (e, q.after 1) := by
  unfold ready at h
  split at h
  · exact absurd h (by simp)
  · rename_i hs
    rw [take?_of_cons (by simpa using hs) h, after, h]
    rfl

/-- **Taking many** takes the completions that are there, as far as there is room. -/
theorem takeMany_eq (room : Nat) (hf : ∀ e ∈ q.events, e.isFinished = false) :
    q.takeMany room = (q.ready.take room, q.after (q.ready.take room).length) := by
  induction room generalizing q with
  | zero => rfl
  | succ room ih =>
    rw [takeMany]
    cases hr : q.ready with
    | nil =>
      obtain ⟨-, h⟩ | ⟨-, h⟩ | ⟨e, es, hs, he, -⟩ := q.take?_cases
      · rw [h]
        rfl
      · rw [h]
        rfl
      · rw [ready, if_neg (by simp [hs]), he] at hr
        exact absurd hr (by simp)
    | cons e es =>
      have hfin : e.isFinished = false :=
        hf e (mem_events_of_ready (hr ▸ List.mem_cons_self))
      have hrest : (q.after 1).ready = es := by rw [ready_after, hr, List.drop_one, List.tail_cons]
      have hstep := ih (q := q.after 1) fun e' he' => hf e' (List.mem_of_mem_drop he')
      rw [take?_of_ready hr]
      simp only [hfin, Bool.false_eq_true, if_false, hstep, hrest, after_after, List.take_succ_cons,
        List.length_cons, Nat.add_comm 1]

end CompletionQueue

namespace Session

/-- The session after the first `n` completions of its queue are handed out. -/
def after (s : Session) (n : Nat) : Session :=
  { s with queue := s.queue.after n }

/-! ## Calls that take completions -/

/-- A call that takes completions. -/
inductive Retrieval where
  /-- Takes one, and waits for it. -/
  | await
  /-- Takes one, if it is there. -/
  | tryNext
  /-- Fills slots. -/
  | fill (mode : WaitMode) (slots : List Completion)
  deriving DecidableEq, Repr

/-- The events that a caller has which took `e`. -/
def eventsOf (e : Completion) : List Completion :=
  if e.isFinished then [] else [e]

/-- The events that a call comes back with, or nothing when the caller has to wait. -/
def retrieve (s : Session) : Retrieval → Option (List Completion × Session)
  | .await => s.next?.map fun (e, s') => (eventsOf e, s')
  | .tryNext => some ((s.next?.map fun (e, s') => (eventsOf e, s')).getD ([], s))
  | .fill mode slots => (s.waitFor mode slots).map fun (x, s') => (x.slots.take x.count, s')

end Session

namespace History

variable {config : Config} {h k : History} {slots : List Completion} {mode : Session.WaitMode}

/-! ## Filling slots -/

theorem Reachable.finished_of_ready (hr : h.Reachable config) {e : Completion}
    (he : e ∈ h.session.queue.ready) : e.isFinished = false :=
  hr.delivered.isFinished_eq_false (CompletionQueue.mem_events_of_ready he)

/-- What is there was registered. -/
theorem Reachable.ready_le (hr : h.Reachable config) :
    h.session.queue.ready.length ≤ h.session.queue.outstanding := by
  rw [hr.outstanding_eq]
  refine Nat.le_trans ?_ (Nat.le_add_right ..)
  unfold CompletionQueue.ready
  split <;> simp

/-- Before the first accepted request nothing is there, and nothing is expected. -/
theorem Reachable.events_of_submitted (hr : h.Reachable config)
    (hs : h.session.submitted = false) :
    h.session.queue.events = [] ∧ h.session.queue.outstanding = 0 := by
  have hnone := hr.balanced.submitted hs
  have hsum := hr.balanced.outstanding
  have hout := hr.outstanding_eq
  exact ⟨List.length_eq_zero_iff.mp (by omega), by omega⟩

theorem Reachable.submitted_of_ready (hr : h.Reachable config)
    (hne : h.session.queue.ready ≠ []) : h.session.submitted = true := by
  by_contra hs
  have hnone := (hr.events_of_submitted (by simpa using hs)).1
  unfold CompletionQueue.ready at hne
  rw [hnone, ite_self] at hne
  exact hne rfl

/-- One call takes the first completion that is there. -/
theorem Reachable.next?_of_ready (hr : h.Reachable config) {e : Completion} {es : List Completion}
    (he : h.session.queue.ready = e :: es) :
    h.session.next? = some (e, h.session.after 1) := by
  rw [Session.next?, if_pos (hr.submitted_of_ready (by simp [he])),
    CompletionQueue.take?_of_ready he]
  rfl

/-- One call has the sentinel where there is nothing to be had. -/
theorem next?_of_spent (hp : h.session.queue.Spent) :
    h.session.next? = some (.finished, h.session) := by
  unfold Session.next?
  split
  · rw [CompletionQueue.take?_of_spent hp]
    rfl
  · rfl

/-- **A caller has the completions that are there**, as far as it has room. -/
theorem Reachable.waitFor_some (hr : h.Reachable config) (mode : Session.WaitMode)
    (hs : slots ≠ []) (hne : h.session.queue.ready ≠ []) :
    let taken := h.session.queue.ready.take slots.length
    h.session.waitFor mode slots =
      some (⟨.success, taken.length, taken ++ slots.drop taken.length⟩,
        h.session.after taken.length) := by
  obtain ⟨e, es, he⟩ := List.exists_cons_of_ne_nil hne
  obtain ⟨x, xs, rfl⟩ := List.exists_cons_of_ne_nil hs
  have hfin : e.isFinished = false := hr.finished_of_ready (he ▸ List.mem_cons_self)
  have hmany := CompletionQueue.takeMany_eq (q := h.session.queue.after 1) xs.length fun e' he' =>
    hr.delivered.isFinished_eq_false (List.mem_of_mem_drop he')
  rw [CompletionQueue.ready_after, he, List.drop_one, List.tail_cons] at hmany
  unfold Session.waitFor
  rw [if_neg (by simp), hr.next?_of_ready he]
  simp only [hfin, Bool.false_eq_true, if_false, Session.after, List.length_cons,
    Nat.add_sub_cancel, hmany, he, CompletionQueue.after_after, List.take_succ_cons,
    Nat.add_comm 1]

/-- **A caller has nothing**, and is told so, where there is nothing to be had. -/
theorem waitFor_spent (hs : slots ≠ []) (hp : h.session.queue.Spent) :
    h.session.waitFor mode slots = some (⟨.finished, 0, slots⟩, h.session) := by
  unfold Session.waitFor
  rw [if_neg (by simpa using hs), next?_of_spent hp]
  rfl

/-- **A caller waits**, or goes away with nothing, where there is a completion to wait for. -/
theorem Reachable.waitFor_pending (hr : h.Reachable config) (hs : slots ≠ [])
    (hb : h.session.queue.Blocks) :
    h.session.waitFor .nonBlocking slots = some (⟨.success, 0, slots⟩, h.session) ∧
      h.session.waitFor .blocking slots = none := by
  have hsub : h.session.submitted = true := by
    by_contra hsub
    have h0 := (hr.events_of_submitted (by simpa using hsub)).2
    exact absurd hb.2.2 (by omega)
  have hn : h.session.next? = none := by
    rw [Session.next?, if_pos hsub, (CompletionQueue.take?_eq_none_iff _).mpr hb]
    rfl
  unfold Session.waitFor
  rw [if_neg (by simpa using hs), if_neg (by simpa using hs), hn]
  exact ⟨rfl, rfl⟩

/-! ## Waiting -/

theorem Reaches.pushes_prefix (hk : h.Reaches k) : h.pushes <+: k.pushes := by
  induction hk with
  | refl => exact List.prefix_refl _
  | step _ _ ih => exact ih.trans (List.prefix_append ..)

theorem Reaches.requests_size_le (hr : h.Reachable config) (hk : h.Reaches k) :
    h.session.requests.size ≤ k.session.requests.size := by
  refine hk.induct (P := fun k => h.session.requests.size ≤ k.session.requests.size) hr
    (Nat.le_refl _) ?_
  intro a b _ _ hi hs
  refine Nat.le_trans hi ?_
  cases hs <;> simp [Session.modifyRequest, Session.modifyTask]

/-- While nobody takes a completion, what is pushed is queued. -/
theorem Reachable.events_of_taken (hr : h.Reachable config) (hk : h.Reaches k)
    (he : h.session.queue.events = []) (ht : k.taken = h.taken) :
    k.session.queue.events = (k.pushes.drop h.pushes.length).map (·.event) := by
  have hlen : h.taken.length = h.pushes.length := by
    have hsum := hr.taken_add_events
    rw [he] at hsum
    exact hsum
  rw [List.map_drop, ← (hr.reaches hk).taken_append_events, ht, ← hlen, List.drop_left]

/-- **Who blocks waits for the first push**: as long as nobody else takes a completion and the queue
is not stopped. -/
theorem Reachable.waitFor_blocked_iff (hr : h.Reachable config) (hs : slots ≠ [])
    (hb : h.session.waitFor .blocking slots = none) (hk : h.Reaches k) (ht : k.taken = h.taken)
    (hq : k.session.queue.stopped = false) :
    k.session.waitFor .blocking slots = none ↔ k.pushes = h.pushes := by
  have hblocks : h.session.queue.Blocks := by
    have hn := ((h.session.waitFor_eq_none_iff _ _).mp hb).2.2
    rw [Session.next?] at hn
    split at hn
    · exact (CompletionQueue.take?_eq_none_iff _).mp (Option.map_eq_none_iff.mp hn)
    · exact absurd hn (by simp)
  have hrk := hr.reaches hk
  have hevents := hr.events_of_taken hk hblocks.2.1 ht
  have hpos : 0 < k.session.queue.outstanding := by
    have hsize := hk.requests_size_le hr
    have hh := hr.balanced.outstanding
    have hh' := hrk.balanced.outstanding
    rw [ht] at hh'
    have := hblocks.2.2
    omega
  obtain ⟨new, hnew⟩ := hk.pushes_prefix
  rw [← hnew, List.drop_left] at hevents
  rw [← hnew, List.append_right_eq_self]
  cases new with
  | nil => exact iff_of_true (hrk.waitFor_pending hs ⟨hq, hevents, hpos⟩).2 rfl
  | cons p ps =>
    have hready : k.session.queue.ready ≠ [] := by
      rw [CompletionQueue.ready, if_neg (by simp [hq]), hevents]
      simp
    refine iff_of_false ?_ (by simp)
    rw [hrk.waitFor_some _ hs hready]
    simp

/-! ## Turns -/

/-- The call has the first completions that are there, and nothing else happened. -/
def Hands (s : Session) (es : List Completion) (s' : Session) : Prop :=
  es = s.queue.ready.take es.length ∧ s' = s.after es.length

theorem hands_nil (s : Session) : Hands s [] s := ⟨rfl, rfl⟩

theorem Reachable.hands_next (hr : h.Reachable config) {e : Completion} {s : Session}
    (hn : h.session.next? = some (e, s)) : Hands h.session (Session.eventsOf e) s := by
  cases he : h.session.queue.ready with
  | nil =>
    obtain ⟨e', es, -, hq, hev, -⟩ | hn' | hn' := next?_cases h.session
    · rw [CompletionQueue.ready, if_neg (by simp [hq]), hev] at he
      exact absurd he (by simp)
    · obtain ⟨rfl, rfl⟩ := Prod.mk.inj (Option.some.inj (hn.symm.trans hn'))
      exact hands_nil _
    · exact absurd (hn.symm.trans hn') (by simp)
  | cons e' es =>
    obtain ⟨rfl, rfl⟩ := Prod.mk.inj (Option.some.inj (hn.symm.trans (hr.next?_of_ready he)))
    have hfin := hr.finished_of_ready (he ▸ List.mem_cons_self)
    rw [Session.eventsOf, if_neg (by simp [hfin]), Hands, he]
    exact ⟨rfl, rfl⟩

theorem Reachable.hands_waitFor (hr : h.Reachable config) {x : Session.Retrieved} {s : Session}
    (hw : h.session.waitFor mode slots = some (x, s)) :
    Hands h.session (x.slots.take x.count) s := by
  by_cases hs : slots = []
  · subst hs
    obtain ⟨rfl, rfl⟩ := Prod.mk.inj (Option.some.inj hw)
    exact hands_nil _
  by_cases hne : h.session.queue.ready = []
  · obtain ⟨hb, -⟩ | ⟨hp, -⟩ | ⟨e, es, hq, he, -⟩ := h.session.queue.take?_cases
    · cases mode with
      | blocking => exact absurd (hw.symm.trans (hr.waitFor_pending hs hb).2) (by simp)
      | nonBlocking =>
        have heq := hw.symm.trans (hr.waitFor_pending hs hb).1
        obtain ⟨rfl, rfl⟩ := Prod.mk.inj (Option.some.inj heq)
        exact hands_nil _
    · obtain ⟨rfl, rfl⟩ := Prod.mk.inj (Option.some.inj (hw.symm.trans (waitFor_spent hs hp)))
      exact hands_nil _
    · rw [CompletionQueue.ready, if_neg (by simp [hq]), he] at hne
      exact absurd hne (by simp)
  · obtain ⟨rfl, rfl⟩ := Prod.mk.inj (Option.some.inj (hw.symm.trans (hr.waitFor_some _ hs hne)))
    simp only [List.take_left]
    refine ⟨?_, rfl⟩
    rw [List.length_take, ← List.take_take, List.take_length]

/-- **A call has the first completions that are there.** -/
theorem Reachable.hands (hr : h.Reachable config) {c : Session.Retrieval} {es : List Completion}
    {s : Session} (hc : h.session.retrieve c = some (es, s)) : Hands h.session es s := by
  cases c with
  | await =>
    obtain ⟨⟨e, s'⟩, hn, heq⟩ := Option.map_eq_some_iff.mp hc
    obtain ⟨rfl, rfl⟩ := Prod.mk.inj heq
    exact hr.hands_next hn
  | tryNext =>
    rw [Session.retrieve] at hc
    cases hn : h.session.next? with
    | none =>
      rw [hn] at hc
      obtain ⟨rfl, rfl⟩ := Prod.mk.inj (Option.some.inj hc)
      exact hands_nil _
    | some p =>
      rw [hn] at hc
      obtain ⟨rfl, rfl⟩ := Prod.mk.inj (Option.some.inj hc)
      exact hr.hands_next hn
  | fill mode slots =>
    obtain ⟨⟨x, s'⟩, hw, heq⟩ := Option.map_eq_some_iff.mp hc
    obtain ⟨rfl, rfl⟩ := Prod.mk.inj heq
    exact hr.hands_waitFor hw

/-- A step of somebody, or a call that takes completions with nobody in between. -/
inductive Turn where
  | step (a : Session.Action)
  | call (c : Session.Retrieval)
  deriving DecidableEq, Repr

/-- The history after a turn. A caller that has to wait has not had its turn yet. -/
def turn (h : History) : Turn → History
  | .step a => h.act a
  | .call c =>
    match h.session.retrieve c with
    | none => h
    | some (es, s) => { h with session := s, taken := h.taken ++ es }

/-- The history after some turns. -/
def turns (h : History) (ts : List Turn) : History :=
  ts.foldl turn h

/-- The turn may come next: completions are taken by calls only, and no caller has to wait. -/
def Allows (h : History) : Turn → Prop
  | .step a => a ≠ .take ∧ h.session.Enabled a
  | .call c => (h.session.retrieve c).isSome

instance (h : History) : DecidablePred h.Allows
  | .step a => inferInstanceAs (Decidable (a ≠ .take ∧ h.session.Enabled a))
  | .call c => inferInstanceAs (Decidable ((h.session.retrieve c).isSome = true))

/-- Each of the turns may come when it does. -/
def Proceeds : History → List Turn → Prop
  | _, [] => True
  | h, t :: ts => h.Allows t ∧ Proceeds (h.turn t) ts

instance Proceeds.decidable : (h : History) → (ts : List Turn) → Decidable (h.Proceeds ts)
  | _, [] => isTrue trivial
  | h, t :: ts =>
    have := Proceeds.decidable (h.turn t) ts
    inferInstanceAs (Decidable (_ ∧ _))

/-- The steps of a turn when every completion is taken by a hand-out of its own. -/
def single (h : History) : Turn → List Session.Action
  | .step a => [a]
  | .call c => List.replicate ((h.session.retrieve c).elim 0 (·.1.length)) .take

/-- The steps of some turns when every completion is taken by a hand-out of its own. -/
def singly : History → List Turn → List Session.Action
  | _, [] => []
  | h, t :: ts => h.single t ++ singly (h.turn t) ts

theorem run_append (h : History) (as bs : List Session.Action) :
    h.run (as ++ bs) = (h.run as).run bs :=
  List.foldl_append

theorem legal_append {as bs : List Session.Action} :
    h.Legal (as ++ bs) ↔ h.Legal as ∧ (h.run as).Legal bs := by
  induction as generalizing h with
  | nil => exact ⟨fun hl => ⟨trivial, hl⟩, And.right⟩
  | cons a as ih =>
    show h.session.Enabled a ∧ (h.act a).Legal (as ++ bs) ↔
      (h.session.Enabled a ∧ (h.act a).Legal as) ∧ ((h.act a).run as).Legal bs
    rw [ih, and_assoc]

/-- **Hand-outs one by one** take the first completions that are there. -/
theorem Reachable.run_take (hr : h.Reachable config) {n : Nat}
    (hn : n ≤ h.session.queue.ready.length) :
    h.Legal (List.replicate n .take) ∧ h.run (List.replicate n .take) =
      { h with
        session := h.session.after n
        taken := h.taken ++ h.session.queue.ready.take n } := by
  induction n generalizing h with
  | zero => exact ⟨trivial, by simp [run, Session.after]⟩
  | succ n ih =>
    cases he : h.session.queue.ready with
    | nil => exact absurd (he ▸ hn) (by simp)
    | cons e es =>
      have hnext := hr.next?_of_ready he
      have hfin := hr.finished_of_ready (he ▸ List.mem_cons_self)
      have hen : h.session.Enabled .take := by
        rw [Session.Enabled, hnext]
        rfl
      have hact : h.act .take =
          { h with session := h.session.after 1, taken := h.taken ++ [e] } := by
        simp [act, Session.act, hnext, hfin]
      have hready : (h.act .take).session.queue.ready = es := by
        rw [hact]
        show (h.session.queue.after 1).ready = es
        rw [CompletionQueue.ready_after, he, List.drop_one, List.tail_cons]
      rw [he, List.length_cons] at hn
      obtain ⟨hlegal, hrun⟩ := ih (hr.reaches (.step (.refl h) hen))
        (by rw [hready]; exact Nat.le_of_succ_le_succ hn)
      rw [List.replicate_succ]
      refine ⟨⟨hen, hlegal⟩, ?_⟩
      show (h.act .take).run _ = _
      rw [hrun, hready, hact]
      simp only [Session.after, CompletionQueue.after_after, Nat.add_comm 1, List.append_assoc,
        List.singleton_append, List.take_succ_cons]

/-- **A turn is the hand-outs that it makes.** -/
theorem Reachable.turn_eq (hr : h.Reachable config) {t : Turn} (ha : h.Allows t) :
    h.Legal (h.single t) ∧ h.run (h.single t) = h.turn t := by
  cases t with
  | step a => exact ⟨⟨ha.2, trivial⟩, rfl⟩
  | call c =>
    obtain ⟨⟨es, s⟩, hc⟩ := Option.isSome_iff_exists.mp ha
    obtain ⟨hes, hs⟩ := hr.hands hc
    have hle : es.length ≤ h.session.queue.ready.length := by
      have hlen := congrArg List.length hes
      rw [List.length_take] at hlen
      omega
    obtain ⟨hlegal, hrun⟩ := hr.run_take hle
    rw [single, turn, hc]
    exact ⟨hlegal, by rw [Option.elim, hrun, ← hes, ← hs]⟩

/-- **Turns are the hand-outs that they make**, however they cut them. -/
theorem Reachable.turns_eq (hr : h.Reachable config) {ts : List Turn} (hp : h.Proceeds ts) :
    h.Legal (h.singly ts) ∧ h.run (h.singly ts) = h.turns ts := by
  induction ts generalizing h with
  | nil => exact ⟨trivial, rfl⟩
  | cons t ts ih =>
    obtain ⟨hlegal, hrun⟩ := hr.turn_eq hp.1
    have hnext : (h.turn t).Reachable config := hrun ▸ hr.reaches (.run (.refl h) hlegal)
    obtain ⟨hlegals, hruns⟩ := ih hnext hp.2
    refine ⟨legal_append.mpr ⟨hlegal, hrun.symm ▸ hlegals⟩, ?_⟩
    rw [singly, run_append, hrun, hruns]
    rfl

end History

/-! ## What others do -/

namespace Session

/-- A session without the completions of its queue, which only those who take completions read. -/
def beside (s : Session) : Session :=
  { s with queue := {} }

variable (s : Session)

theorem beside_modifyRequest (r : Nat) (f : Request → Request) :
    (s.modifyRequest r f).beside = s.beside.modifyRequest r f := rfl

theorem beside_modifyTask (t : Nat) (f : Task → Task) :
    (s.modifyTask t f).beside = s.beside.modifyTask t f := rfl

theorem beside_leave : s.beside.leave.beside = s.leave.beside := by
  unfold leave
  show (if s.inflight = 0 then _ else _ : Session).beside = _
  split <;> rfl

theorem beside_submit (x : Submission) : (s.beside.submit x).1.beside = (s.submit x).1.beside := by
  unfold submit
  rw [show s.beside.accept x = s.accept x from rfl, show s.beside.config = s.config from rfl]
  cases s.accept x with
  | error code => rfl
  | ok l => cases partition x.range s.config.chunkSize x.buffer.size <;> rfl

theorem beside_launch (r : Nat) : (s.beside.launch r).beside = (s.launch r).beside := by
  unfold launch
  rw [show s.beside.requests = s.requests from rfl]
  cases s.requests[r]? with
  | none => rfl
  | some q =>
    cases hl : q.launch with
    | barred =>
      simp only [hl]
      rw [beside_modifyRequest, beside_modifyRequest, beside_leave]
    | cleared => cases hp : q.pieces[q.launched]? <;> simp only [hl, hp] <;> rfl
    | ready | entered | answered => simp only [hl]; rfl

theorem beside_advance (t : Nat) : (s.beside.advance t).beside = (s.advance t).beside := by
  unfold advance
  rw [show s.beside.tasks = s.tasks from rfl]
  cases s.tasks[t]? with
  | none => rfl
  | some task =>
    cases hp : task.phase with
    | launched =>
      simp only [hp]
      unfold acquire
      rw [show s.beside.permits = s.permits from rfl]
      split <;> rfl
    | ended o =>
      simp only [hp]
      unfold count
      rw [show s.beside.requests = s.requests from rfl]
      cases s.requests[task.request]? <;> rfl
    | counted o code => simp only [hp]; rfl
    | reported o code =>
      simp only [hp]
      rw [beside_modifyTask, beside_modifyTask, beside_leave]
    | granted | waiting | running | finished => simp only [hp]; rfl

theorem beside_write (t i : Nat) (bytes : List UInt8) :
    (s.beside.write t i bytes).beside = (s.write t i bytes).beside := by
  unfold write
  rw [show s.beside.tasks = s.tasks from rfl]
  cases s.tasks[t]? with
  | none => rfl
  | some task => cases hp : task.phase <;> simp only [hp] <;> rfl

theorem beside_finish (t : Nat) (o : Outcome) :
    (s.beside.finish t o).beside = (s.finish t o).beside := by
  unfold finish
  rw [show s.beside.tasks = s.tasks from rfl]
  cases s.tasks[t]? with
  | none => rfl
  | some task =>
    cases hp : task.phase with
    | running =>
      simp only [hp, beside, modifyTask, Permits.release]
      cases s.permits.line <;> rfl
    | _ => simp only [hp]; rfl

theorem beside_closing (i : Nat) : (s.beside.closing i).beside = (s.closing i).beside := by
  unfold closing
  rw [show s.beside.closers = s.closers from rfl]
  cases s.closers[i]? with
  | none => rfl
  | some c =>
    cases hc : c.closing with
    | draining =>
      simp only [hc]
      rw [show s.beside.inflight = s.inflight from rfl]
      split <;> rfl
    | raising | halting | returned => simp only [hc]; rfl

theorem beside_take : (s.beside.act .take).beside = (s.act .take).beside := by
  have hbeside : s.beside.next? = some (.finished, s.beside) := by
    unfold next?
    split <;> rfl
  unfold act
  rw [hbeside]
  obtain ⟨e, es, -, -, -, hn⟩ | hn | hn := History.next?_cases s
  · rw [hn]
    rfl
  · rw [hn]
    rfl
  · rw [hn]
    rfl

/-- **No step but a hand-out depends on the completions of the queue.** -/
theorem beside_act (a : Action) : (s.beside.act a).beside = (s.act a).beside := by
  cases a with
  | submit x => exact s.beside_submit x
  | launch r => exact s.beside_launch r
  | advance t => exact s.beside_advance t
  | write t i bytes => exact s.beside_write t i bytes
  | finish t o => exact s.beside_finish t o
  | close waits => rfl
  | closing i => exact s.beside_closing i
  | take => exact s.beside_take

theorem pushed?_beside (a : Action) : s.beside.pushed? a = s.pushed? a := by
  cases a <;> rfl

end Session

namespace History

variable {config : Config} {h k : History}

/-- The histories differ at most in who took which completions. -/
structure Abreast (h k : History) : Prop where
  session : h.session.beside = k.session.beside
  pushes : h.pushes = k.pushes

theorem Abreast.act (hk : h.Abreast k) (a : Session.Action) : (h.act a).Abreast (k.act a) where
  session := by
    show (h.session.act a).beside = (k.session.act a).beside
    rw [← h.session.beside_act, ← k.session.beside_act, hk.session]
  pushes := by
    show h.pushes ++ (h.session.pushed? a).toList = k.pushes ++ (k.session.pushed? a).toList
    rw [← h.session.pushed?_beside, ← k.session.pushed?_beside, hk.session, hk.pushes]

/-- The steps of others in a turn. -/
def Turn.steps : Turn → List Session.Action
  | .step a => [a]
  | .call _ => []

/-- A call leaves everything but the queue as it is. -/
theorem Abreast.turn (hr : h.Reachable config) (hk : h.Abreast k) (t : Turn) :
    (h.turn t).Abreast (k.run t.steps) := by
  cases t with
  | step a => exact hk.act a
  | call c =>
    unfold History.turn
    cases hc : h.session.retrieve c with
    | none =>
      simp only [hc]
      exact hk
    | some p =>
      obtain ⟨es, s⟩ := p
      obtain ⟨-, rfl⟩ := hr.hands hc
      simp only [hc]
      exact ⟨hk.session, hk.pushes⟩

/-- **Who takes what and when changes nothing for the others.** -/
theorem Abreast.turns (hr : h.Reachable config) (hk : h.Abreast k) {ts : List Turn}
    (hp : h.Proceeds ts) : (h.turns ts).Abreast (k.run (ts.flatMap Turn.steps)) := by
  induction ts generalizing h k with
  | nil => exact hk
  | cons t ts ih =>
    obtain ⟨hlegal, hrun⟩ := hr.turn_eq hp.1
    have hnext : (h.turn t).Reachable config := hrun ▸ hr.reaches (.run (.refl h) hlegal)
    rw [List.flatMap_cons, run_append]
    exact ih hnext (hk.turn hr t) hp.2

/-! ## Any cut -/

/-- What callers come back with that take the completions of a session in batches. -/
structure Batched (h : History) : Prop where
  /-- Unless a stop is between its two steps, the session is stopped where its queue is. -/
  flags : (∀ c ∈ h.session.closers, c.closing ≠ .halting) →
    h.session.stopped = h.session.queue.stopped
  /-- A caller has the first completions that are there, as far as it has room. They leave the queue
  and the count, and the other slots stay as they are. -/
  filled : ∀ mode slots, let k := min slots.length h.session.queue.ready.length
    1 ≤ k → k ≤ h.session.queue.outstanding ∧ h.session.waitFor mode slots = some
      (⟨.success, k, h.session.queue.ready.take k ++ slots.drop k⟩, h.session.after k)
  /-- A caller is told so when there is nothing to be had. -/
  finished : ∀ mode slots, slots ≠ [] → h.session.queue.ready = [] →
    h.session.queue.stopped = true ∨ h.session.queue.outstanding = 0 →
      h.session.waitFor mode slots = some (⟨.finished, 0, slots⟩, h.session)
  /-- Otherwise a caller that does not block goes away with nothing, and one that blocks waits. -/
  pending : ∀ slots, slots ≠ [] → h.session.queue.ready = [] →
    ¬ (h.session.queue.stopped = true ∨ h.session.queue.outstanding = 0) →
      h.session.waitFor .nonBlocking slots = some (⟨.success, 0, slots⟩, h.session) ∧
        h.session.waitFor .blocking slots = none
  /-- It waits for the first push. -/
  waits : ∀ slots k, slots ≠ [] → h.session.waitFor .blocking slots = none → h.Reaches k →
    k.taken = h.taken → k.session.queue.stopped = false →
      (k.session.waitFor .blocking slots = none ↔ k.pushes = h.pushes)
  /-- A run with calls of any kind is the run with a hand-out for each completion. -/
  singly : ∀ ts, h.Proceeds ts → h.Legal (h.singly ts) ∧ h.run (h.singly ts) = h.turns ts
  /-- Two runs with the same steps of others push the same, whatever is taken when, and what was
  taken in one of them is the beginning of it. -/
  cut : ∀ ts ts', h.Proceeds ts → h.Proceeds ts' →
    ts.flatMap Turn.steps = ts'.flatMap Turn.steps →
      (h.turns ts).pushes = (h.turns ts').pushes ∧ (h.turns ts).taken =
        ((h.turns ts').pushes.map (·.event)).take (h.turns ts).taken.length

/-- **Batches lose and reorder nothing.** -/
theorem Reachable.batched (hr : h.Reachable config) : h.Batched where
  flags := hr.stopped_eq
  filled mode slots hk := by
    have hs : slots ≠ [] := by
      rintro rfl
      exact absurd hk (by simp)
    have hne : h.session.queue.ready ≠ [] := by
      intro hnil
      rw [hnil] at hk
      exact absurd hk (by simp)
    have hwait := hr.waitFor_some mode hs hne
    simp only [List.length_take] at hwait
    refine ⟨Nat.le_trans (Nat.min_le_right ..) hr.ready_le, ?_⟩
    rw [hwait, ← List.take_take, List.take_length]
  finished mode slots hs hready hspent := by
    refine waitFor_spent hs (hspent.imp_right fun h0 => ⟨?_, h0⟩)
    have hout := hr.outstanding_eq
    exact List.length_eq_zero_iff.mp (by omega)
  pending slots hs hready hspent := by
    obtain ⟨hq, h0⟩ := not_or.mp hspent
    refine hr.waitFor_pending hs ⟨by simpa using hq, ?_, Nat.pos_of_ne_zero h0⟩
    rwa [CompletionQueue.ready, if_neg hq] at hready
  waits slots k hs hb hk ht hq := hr.waitFor_blocked_iff hs hb hk ht hq
  singly ts hp := hr.turns_eq hp
  cut ts ts' hp hp' hsteps := by
    have hself : h.Abreast h := ⟨rfl, rfl⟩
    have hpushes : (h.turns ts).pushes = (h.turns ts').pushes := by
      rw [(hself.turns hr hp).pushes, (hself.turns hr hp').pushes, hsteps]
    refine ⟨hpushes, ?_⟩
    obtain ⟨hlegal, hrun⟩ := hr.turns_eq hp
    have hreach : (h.turns ts).Reachable config := hrun ▸ hr.reaches (.run (.refl h) hlegal)
    rw [← hpushes, ← hreach.taken_append_events, List.take_left]

/-- Two requests have failed, each at its second chunk, and neither event is taken: a caller with
three slots has both at once, and callers with one slot each have one after the other. -/
theorem batched_of_two :
    ∃ h, Reachable .fours h ∧ h.Batched ∧
      (h.session.waitFor .blocking (List.replicate 3 .finished)).map Prod.fst =
        some ⟨.success, 2, [⟨1, .fileAccess⟩, ⟨3, .fileAccess⟩, .finished]⟩ ∧
      (h.turns [.call (.fill .nonBlocking [.finished]), .step (.close false),
        .call .await]).taken = [⟨1, .fileAccess⟩, ⟨3, .fileAccess⟩] := by
  let second : Submission := { Submission.eight with id := 3 }
  let h := (new .fours).run (Session.bothRun ++ [.finish 1 .failed, .advance 1, .advance 1,
    .submit second, .launch 1, .launch 1, .launch 1, .launch 1, .launch 1, .launch 1, .advance 3,
    .advance 3, .finish 3 .failed, .advance 3, .advance 3])
  have hr : Reachable .fours h := .ofRun .fours _ (by decide +kernel) (by decide +kernel)
  have hready : h.session.queue.ready = [⟨1, .fileAccess⟩, ⟨3, .fileAccess⟩] := by decide +kernel
  have hb := hr.batched
  refine ⟨h, hr, hb, ?_, ?_⟩
  · obtain ⟨-, hwait⟩ := hb.filled .blocking (List.replicate 3 .finished) (by
      rw [hready]
      decide)
    rw [hwait, hready]
    rfl
  · obtain ⟨-, hrun⟩ := hb.singly [.call (.fill .nonBlocking [.finished]), .step (.close false),
      .call .await] (by decide +kernel)
    rw [← hrun]
    decide +kernel

end History

end RangeFetch
