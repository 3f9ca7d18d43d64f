import RangeFetch.Proofs.Cutting
import RangeFetch.Proofs.Drain

/-!
# No check of the engine fails

The engine asserts what it relies on where it cuts a range and deals out a buffer, its counters must
not go below zero, and a caller that fills slots must not ask for one that there is not. A check
that fails would leave a fault, or no result. What makes each of them hold was decided elsewhere: a
configuration has chunks of at least one byte, a submission is accepted only when its range fits and
its buffer is as long, a task counts its chunk once, and who leaves the in-flight count is in it.

Headlines:
* **`Session.exists_fill?`**: whatever completions a caller that fills slots is handed, it stays
  within them; `fill?_of_waitFor` says that this is the loop of `waitFor`.
* **`Reachable.remaining_pos`**, **`Reachable.inflight_pos_of_task`** and
  **`Reachable.inflight_pos_of_submitter`**: no counter is taken below zero.
* **`Reachable.unbroken`** puts these together.
-/

namespace RangeFetch

/-! ## Slots -/

namespace Session

/-- What a caller that fills slots does, of which the first `filled` are filled, when the hand-outs
that it gets are `hands`, in order and whatever others do between them. A hand-out that it would have
to wait for is `none`. It has no result when it asks for a slot that there is not. -/
def fill? : (slots : List Completion) → (filled : Nat) → (hands : List (Option Completion)) →
    Option Retrieved
  | slots, filled, [] => some ⟨.success, filled, slots⟩
  | slots, filled, none :: _ => some ⟨.success, filled, slots⟩
  | slots, filled, some e :: hands =>
    if e.isFinished then
      some (if filled = 0 then ⟨.finished, 0, slots⟩ else ⟨.success, filled, slots⟩)
    else if filled < slots.length then
      if filled + 1 = slots.length then some ⟨.success, filled + 1, slots.set filled e⟩
      else fill? (slots.set filled e) (filled + 1) hands
    else none

/-- A caller that had filled the first `filled` of `slots` comes back with `w`: it filled some more
and left the others as they were. -/
structure Retrieved.Within (slots : List Completion) (filled : Nat) (w : Retrieved) : Prop where
  filled_le : filled ≤ w.count
  count_le : w.count ≤ slots.length
  length_eq : w.slots.length = slots.length
  rest : w.slots.drop w.count = slots.drop w.count

variable {slots : List Completion} {filled : Nat}

theorem Retrieved.Within.refl (code : Code) (h : filled < slots.length) :
    Retrieved.Within slots filled ⟨code, filled, slots⟩ :=
  ⟨Nat.le_refl filled, Nat.le_of_lt h, rfl, rfl⟩

/-- One slot is filled, and the caller goes on behind it. -/
theorem Retrieved.Within.of_set {e : Completion} {w : Retrieved}
    (h : Retrieved.Within (slots.set filled e) (filled + 1) w) :
    Retrieved.Within slots filled w where
  filled_le := Nat.le_of_succ_le h.filled_le
  count_le := Nat.le_trans h.count_le (Nat.le_of_eq List.length_set)
  length_eq := h.length_eq.trans List.length_set
  rest := by rw [h.rest, List.drop_set_of_lt h.filled_le]

/-- **A caller that has room stays within its slots**, whatever it is handed. -/
theorem exists_fill? (hands : List (Option Completion)) (hroom : filled < slots.length) :
    ∃ w, fill? slots filled hands = some w ∧ w.Within slots filled := by
  induction hands generalizing slots filled with
  | nil => exact ⟨_, rfl, .refl .success hroom⟩
  | cons hand hands ih =>
    cases hand with
    | none => exact ⟨_, rfl, .refl .success hroom⟩
    | some e =>
      rw [fill?]
      by_cases he : e.isFinished
      · rw [if_pos he]
        by_cases h0 : filled = 0
        · subst h0
          exact ⟨_, rfl, .refl .finished hroom⟩
        · rw [if_neg h0]
          exact ⟨_, rfl, .refl .success hroom⟩
      · rw [if_neg he, if_pos hroom]
        have hlen : (slots.set filled e).length = slots.length := List.length_set
        by_cases hlast : filled + 1 = slots.length
        · rw [if_pos hlast]
          exact ⟨_, rfl, .of_set ⟨Nat.le_refl _, Nat.le_of_eq (hlast.trans hlen.symm), rfl, rfl⟩⟩
        · rw [if_neg hlast]
          have hroom' : filled + 1 < (slots.set filled e).length := by omega
          obtain ⟨w, hw, hwithin⟩ := ih hroom'
          exact ⟨w, hw, hwithin.of_set⟩

/-- Behind the first slots, a caller that nobody gets in the way of takes what taking many takes. -/
theorem fill?_handOuts {s : Session} {pre post : List Completion} (hpre : 0 < pre.length)
    (hs : s.submitted = true) :
    fill? (pre ++ post) pre.length (s.handOuts post.length) =
      some ⟨.success, pre.length + (s.queue.takeMany post.length).1.length,
        pre ++ (s.queue.takeMany post.length).1 ++
          post.drop (s.queue.takeMany post.length).1.length⟩ := by
  induction post generalizing pre s with
  | nil => simp [handOuts, fill?, CompletionQueue.takeMany]
  | cons c post ih =>
    rw [List.length_cons, handOuts, next?, if_pos hs, CompletionQueue.takeMany]
    cases ht : s.queue.take? with
    | none => simp [fill?]
    | some p =>
      obtain ⟨e, queue⟩ := p
      show fill? _ _ (some e :: _) = _
      rw [fill?]
      by_cases he : e.isFinished
      · simp [he, Nat.ne_of_gt hpre]
      · have hset : (pre ++ c :: post).set pre.length e = pre ++ [e] ++ post := by
          simp
        have hroom : pre.length < (pre ++ c :: post).length := by simp
        have hpre' : 0 < (pre ++ [e]).length := by simp
        have hrest := ih (s := { s with queue }) hpre' hs
        rw [if_neg he, if_pos hroom, hset]
        by_cases hlast : pre.length + 1 = (pre ++ c :: post).length
        · have hpost : post = [] := by simpa using hlast
          subst hpost
          rw [if_pos hlast]
          simp [he, CompletionQueue.takeMany]
        · rw [if_neg hlast]
          rw [List.length_append, List.length_singleton] at hrest
          simpa [he, Nat.add_assoc, Nat.add_comm 1] using hrest

/-- **The loop of a caller that is not kept waiting** comes back with what `waitFor` gives. -/
theorem fill?_of_waitFor {s s' : Session} {mode : WaitMode} {slots : List Completion} {w : Retrieved}
    (hslots : slots ≠ []) (hw : s.waitFor mode slots = some (w, s')) :
    fill? slots 0 (s.handOuts slots.length) = some w := by
  obtain ⟨c, post, rfl⟩ := List.exists_cons_of_ne_nil hslots
  unfold waitFor at hw
  rw [if_neg (by simp)] at hw
  rw [List.length_cons, handOuts]
  cases hn : s.next? with
  | none =>
    rw [hn] at hw
    cases mode with
    | blocking => exact absurd hw (by simp)
    | nonBlocking =>
      obtain ⟨rfl, rfl⟩ := Prod.mk.inj (Option.some.inj hw)
      rfl
  | some p =>
    obtain ⟨e, s₁⟩ := p
    rw [hn] at hw
    simp only at hw
    show fill? _ _ (some e :: _) = _
    rw [fill?]
    by_cases he : e.isFinished
    · rw [if_pos he] at hw
      obtain ⟨rfl, rfl⟩ := Prod.mk.inj (Option.some.inj hw)
      rw [if_pos he, if_pos rfl]
    · rw [if_neg he] at hw
      obtain ⟨rfl, rfl⟩ := Prod.mk.inj (Option.some.inj hw)
      rw [if_neg he, if_pos (show 0 < (c :: post).length by simp)]
      have hsub : s₁.submitted = true := History.submitted_of_next? hn he
      have hrest := @fill?_handOuts s₁ [e] post Nat.zero_lt_one hsub
      by_cases hlast : 0 + 1 = (c :: post).length
      · have hpost : post = [] := by simpa using hlast
        subst hpost
        rw [if_pos hlast]
        simp [CompletionQueue.takeMany]
      · rw [if_neg hlast]
        simpa [Nat.add_comm 1] using hrest

end Session

/-! ## Counters -/

namespace History

variable {config : Config} {h k : History} {r t : Nat} {q : Request} {task : Task}

/-- A chunk that was not counted is one that its request still counts on. -/
theorem Reachable.remaining_pos (hr : h.Reachable config) (ht : h.session.tasks[t]? = some task)
    (hp : task.phase.count? = none) (hq : h.session.requests[task.request]? = some q) :
    0 < q.remaining := by
  have hlt := hr.recorded.length_reportsOf_lt ht rfl hp
  rw [hr.length_tasksOf hq] at hlt
  have hle := (hr.launches hq).launched_le
  have hexact : (h.reportsOf task.request).countP (·.Exact) ≤
      (h.reportsOf task.request).length := List.countP_le_length
  have hsum := (hr.tallies hq).remaining
  omega

/-- A task that is not finished is in the in-flight count. -/
theorem Reachable.inflight_pos_of_task (hr : h.Reachable config)
    (ht : h.session.tasks[t]? = some task) (hp : ¬ task.phase.Finished) :
    0 < h.session.inflight := by
  have hpos : 0 < h.session.unfinished :=
    Array.countP_pos_iff.mpr ⟨task, Array.mem_of_getElem? ht, by simpa using hp⟩
  rw [hr.inflight_eq]
  omega

/-- A submitter that has entered the in-flight count is in it. -/
theorem Reachable.inflight_pos_of_submitter (hr : h.Reachable config)
    (hq : h.session.requests[r]? = some q) (hl : q.launch.Inside) : 0 < h.session.inflight := by
  have hpos : 0 < h.session.entering :=
    Array.countP_pos_iff.mpr ⟨q, Array.mem_of_getElem? hq, by simpa using hl⟩
  rw [hr.inflight_eq]
  omega

theorem faults_of_leave {s : Session} {n : Nat} {faults : List Fault}
    (hv : s.leave = { s with inflight := n, faults }) (h0 : 0 < s.inflight) :
    faults = s.faults := by
  have hf : s.leave.faults = faults := congrArg Session.faults hv
  rw [← hf, Session.leave, if_neg (Nat.ne_of_gt h0)]

/-- No step meets a check that fails. -/
theorem Step.faults (hr : h.Reachable config) (hs : Step h k) :
    k.session.faults = h.session.faults := by
  cases hs with
  | giveUp hq hl hv =>
    exact faults_of_leave hv (hr.inflight_pos_of_submitter hq (by rw [hl]; trivial))
  | leave ht hp hv =>
    exact faults_of_leave hv (hr.inflight_pos_of_task ht (by rw [hp]; exact id))
  | count ht hp hq hlen hc hf =>
    have hpos := hr.remaining_pos ht (by rw [hp]; rfl) hq
    exact hf.trans (if_neg fun hzero => absurd hzero.2 (Nat.ne_of_gt hpos))
  | idle | accept | enter | look | launch | grant | line | begin | push | pass | write | finish
  | handOver | close | raise | halt | drain | take => rfl

theorem Reachable.faults_eq_nil (hr : h.Reachable config) : h.session.faults = [] :=
  hr.induct (P := (·.session.faults = [])) rfl fun hk _ hi hs => (hs.faults hk).trans hi

/-! ## All checks -/

/-- Every check of the engine holds, of what has happened and of whatever may happen next. -/
structure Unbroken (config : Config) (h : History) : Prop where
  /-- No check has failed so far. -/
  faults : h.session.faults = []
  /-- No submission breaks. -/
  submit : ∀ x f, (h.session.submit x).2 ≠ .broken f
  /-- An accepted submission has a buffer as long as its range, which is cut into chunks of at least
  one byte by sums and differences that are words, and dealt out without asking for a slice that is
  longer than what is left. -/
  cut : ∀ x l, h.session.accept x = .ok l →
    config.chunkSize ≠ 0 ∧ x.buffer.size = x.range.length.toNat ∧
      x.range.cutChecked? config.chunkSize = some (x.range.chunks config.chunkSize) ∧
      ∃ pieces, partition x.range config.chunkSize x.buffer.size = .ok pieces
  /-- A chunk is not counted off a countdown at zero. -/
  countdown : ∀ (t : Nat) (task : Task) (o : Outcome) (q : Request),
    h.session.tasks[t]? = some task → task.phase = .ended o →
    h.session.requests[task.request]? = some q → 0 < q.remaining
  /-- Neither a task nor a submitter leaves an in-flight count at zero. -/
  tasks : ∀ (t : Nat) (task : Task) (o : Outcome) (code : Option Code),
    h.session.tasks[t]? = some task → task.phase = .reported o code → 0 < h.session.inflight
  submitters : ∀ (r : Nat) (q : Request), h.session.requests[r]? = some q → q.launch = .barred →
    0 < h.session.inflight
  /-- No more completions are outstanding than were registered. -/
  outstanding : h.session.queue.outstanding ≤ h.accepted.length
  /-- A caller that fills slots stays within them, whatever it is handed. -/
  slots : ∀ slots hands, slots ≠ [] →
    ∃ w, Session.fill? slots 0 hands = some w ∧ w.Within slots 0
  waits : ∀ mode slots w s, slots ≠ [] → h.session.waitFor mode slots = some (w, s) →
    Session.fill? slots 0 (h.session.handOuts slots.length) = some w

/-- **No check of the engine fails**, in any state that a session can reach. -/
theorem Reachable.unbroken (hr : h.Reachable config) : h.Unbroken config where
  faults := hr.faults_eq_nil
  submit x f hx := by
    cases ha : h.session.accept x with
    | error code => simp [Session.submit, ha] at hx
    | ok l =>
      obtain ⟨pieces, -, -, hsubmit⟩ := submit_of_accept ha
      simp [hsubmit] at hx
  cut x l ha := by
    obtain ⟨hfits, hsize, -, pieces, hp, -, -⟩ := partition_of_accept ha
    rw [hr.config_eq] at hp
    exact ⟨config.chunkSize_ne_zero, hsize, ByteRange.cutChecked?_eq hfits _, pieces, hp⟩
  countdown t task o q ht hp hq := hr.remaining_pos ht (by rw [hp]; rfl) hq
  tasks t task o code ht hp := hr.inflight_pos_of_task ht (by rw [hp]; exact id)
  submitters r q hq hl := hr.inflight_pos_of_submitter hq (by rw [hl]; trivial)
  outstanding := by
    have hsum := hr.balanced.outstanding
    rw [hr.orderly.length_accepted]
    omega
  slots slots hands hs := Session.exists_fill? hands (List.length_pos_iff.mpr hs)
  waits mode slots w s hs hw := Session.fill?_of_waitFor hs hw

/-- A session in which a chunk is about to be counted, and a submitter about to leave the in-flight
count that it shares with the task. -/
theorem unbroken_of_stop :
    ∃ h, Reachable .fours h ∧ h.Unbroken .fours ∧
      h.session.phaseOf? 0 = some (.ended (.returned 4)) ∧
      (h.session.requests.toList.map fun q => (q.launch, q.remaining)) = [(.barred, 2)] ∧
      h.session.inflight = 2 := by
  let h := (new .fours).run
    [.submit .eight, .launch 0, .launch 0, .launch 0, .advance 0, .advance 0, .launch 0,
      .close true, .closing 0, .launch 0, .finish 0 (.returned 4)]
  have hr : Reachable .fours h := .ofRun .fours _ (by decide +kernel) (by decide +kernel)
  exact ⟨h, hr, hr.unbroken, by decide +kernel, by decide +kernel, by decide +kernel⟩

end History

end RangeFetch
