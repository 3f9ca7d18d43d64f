import Mathlib.Algebra.GroupWithZero.Nat
import RangeFetch.Proofs.Calls
import RangeFetch.Proofs.Retention

/-!
# What becomes of a submission

A submission is refused by a stopped session, and by any other when it is `Malformed`; else it is
registered as the next request. A refusal leaves no trace: a run goes on as if the refused
submissions had not been made. The submitter of a registered request is never held up. It answers
within three steps a chunk, and only a stop makes it answer anything but `success`.

Headlines:
* **`submit_eq`**: the decision, and what it leaves of the session.
* **`run_sift`**: the refused submissions can be left out of a run.
* **`Reachable.answer_of_ahead`**: a submitter that has taken its steps has answered.
* **`submit_decides`** puts these together.
-/

namespace RangeFetch

open Session (Action)

/-- A submission that no session accepts. -/
def Submission.Malformed (x : Submission) : Prop :=
  (∃ e, Location.ofUri x.path = .error e) ∨ x.buffer.size ≠ x.range.length.toNat ∨
    2 ^ 64 - 1 < x.range.offset.toNat + x.range.length.toNat

/-- Where the blob of a submission is, unless the submission is malformed. -/
def Submission.location? (x : Submission) : Option Location :=
  match Location.ofUri x.path with
  | .error _ => none
  | .ok l => if x.buffer.size = x.range.length.toNat ∧ x.range.Fits then some l else none

theorem Submission.location?_eq_none (x : Submission) : x.location? = none ↔ x.Malformed := by
  unfold location? Malformed
  cases Location.ofUri x.path with
  | error e => simp
  | ok l =>
    have hfits : x.range.Fits ↔
        ¬ 2 ^ 64 - 1 < x.range.offset.toNat + x.range.length.toNat := by
      rw [ByteRange.Fits, show UInt64.size = 2 ^ 64 from rfl]
      omega
    simp only [hfits, reduceCtorEq, exists_false, false_or, ite_eq_right_iff, imp_false]
    rw [not_and_or, not_not]

namespace Session

variable {s : Session}

/-! ## The decision -/

theorem accept_eq (s : Session) (x : Submission) :
    s.accept x = if s.stopped then .error .finished else
      x.location?.elim (.error .invalidParameter) .ok := by
  unfold accept Submission.location?
  cases s.stopped with
  | true => rfl
  | false =>
    cases Location.ofUri x.path with
    | error e => rfl
    | ok l =>
      simp only [Bool.false_eq_true, if_false]
      split <;> rfl

/-- **The decision over a submission**, from the stop flag and the submission alone. -/
theorem submit_eq (s : Session) (x : Submission) :
    (s.submit x).2 = if s.stopped then .refused .finished else
      x.location?.elim (.refused .invalidParameter) fun _ => .accepted s.requests.size := by
  unfold submit
  cases ha : s.accept x with
  | error code =>
    rw [accept_eq] at ha
    cases hs : s.stopped with
    | true =>
      simp only [hs, if_true, Except.error.injEq] at ha
      simp [ha]
    | false =>
      cases hl : x.location? with
      | none =>
        simp only [hs, hl, Option.elim, Bool.false_eq_true, if_false, Except.error.injEq] at ha
        simp [ha]
      | some l => simp [hs, hl] at ha
  | ok l =>
    obtain ⟨-, -, -, pieces, hp, -, -⟩ := History.partition_of_accept ha
    rw [accept_eq] at ha
    cases hs : s.stopped with
    | true => simp [hs] at ha
    | false =>
      cases hl : x.location? with
      | none => simp [hs, hl] at ha
      | some l => simp [hp]

/-- A refused submission changes nothing. -/
theorem submit_of_refused {x : Submission} {code : Code} (hc : (s.submit x).2 = .refused code) :
    s.submit x = (s, .refused code) := by
  cases ha : s.accept x with
  | error c => simpa [submit, ha] using hc
  | ok l =>
    obtain ⟨pieces, -, -, hsubmit⟩ := History.submit_of_accept ha
    simp [hsubmit] at hc

theorem submitBetween_of_refused {x : Submission} {code : Code}
    (hc : (s.submit x).2 = .refused code) (others : Session → Session) :
    s.submitBetween others x = (s, some code) := by
  rw [submitBetween, submit_of_refused hc]

theorem finished_iff {x : Submission} :
    (s.submit x).2 = .refused .finished ↔ s.stopped = true := by
  rw [submit_eq]
  cases s.stopped <;> cases x.location? <;> simp

theorem invalidParameter_iff {x : Submission} :
    (s.submit x).2 = .refused .invalidParameter ↔ s.stopped = false ∧ x.Malformed := by
  rw [submit_eq, ← x.location?_eq_none]
  cases s.stopped <;> cases x.location? <;> simp

theorem accepted_iff {x : Submission} :
    (s.submit x).2 = .accepted s.requests.size ↔ s.stopped = false ∧ ¬ x.Malformed := by
  rw [submit_eq, ← x.location?_eq_none]
  cases s.stopped <;> cases x.location? <;> simp

/-! ## What a party is told -/

/-- What a step tells the party that takes it. -/
inductive Told where
  | nothing
  | admission (a : Admission)
  /-- The answer of a submitter, when it has one. -/
  | answer (code : Option Code)
  /-- A completion, or that there is one to wait for. -/
  | completion (e : Option Completion)
  deriving DecidableEq, Repr

/-- What a step tells the party that takes it. -/
def tells (s : Session) : Action → Told
  | .submit x => .admission (s.submit x).2
  | .launch r => .answer ((s.launch r).answer? r)
  | .take => .completion (s.next?.map Prod.fst)
  | .advance _ | .write .. | .finish .. | .close _ | .closing _ => .nothing

/-- The step was a submission that was refused. -/
def Told.Refusal : Told → Prop
  | .admission (.refused _) => True
  | _ => False

instance : DecidablePred Told.Refusal
  | .admission (.refused _) => isTrue trivial
  | .admission (.accepted _) | .admission (.broken _) | .nothing | .answer _ | .completion _ =>
    isFalse id

end Session

namespace History

variable {config : Config} {h k : History} {r : Nat} {q : Request} {x : Submission}

/-! ## Refusals -/

/-- A refused submission leaves the history as it is. -/
theorem act_of_refusal {a : Action} (ha : (h.session.tells a).Refusal) : h.act a = h := by
  cases a with
  | submit x =>
    cases hx : (h.session.submit x).2 with
    | refused code => simp [act, Session.act, Session.submit_of_refused hx]
    | accepted r => simp [Session.tells, Session.Told.Refusal, hx] at ha
    | broken f => simp [Session.tells, Session.Told.Refusal, hx] at ha
  | launch | advance | write | finish | close | closing | take => exact absurd ha id

/-- The steps of a run without the submissions that are refused when they come. -/
def sift : History → List Action → List Action
  | _, [] => []
  | h, a :: as =>
    if (h.session.tells a).Refusal then sift h as else a :: sift (h.act a) as

/-- What the steps of a run tell, in order. -/
def told : History → List Action → List Session.Told
  | _, [] => []
  | h, a :: as => h.session.tells a :: told (h.act a) as

/-- **A run is the same without its refused submissions.** -/
theorem run_sift (h : History) (as : List Action) : h.run (h.sift as) = h.run as := by
  induction as generalizing h with
  | nil => rfl
  | cons a as ih =>
    rw [sift]
    split
    · rename_i ha
      rw [ih]
      exact congrArg (run · as) (act_of_refusal ha).symm
    · exact ih (h.act a)

/-- The other steps can be taken as before, and tell the same. -/
theorem told_sift (h : History) (as : List Action) :
    h.told (h.sift as) = (h.told as).filter fun m => ¬ m.Refusal := by
  induction as generalizing h with
  | nil => rfl
  | cons a as ih =>
    rw [sift, told]
    split
    · rename_i ha
      rw [List.filter_cons_of_neg (by simpa using ha), act_of_refusal ha, ih]
    · rename_i ha
      rw [List.filter_cons_of_pos (by simpa using ha), told, ih]

theorem legal_sift {as : List Action} (hl : h.Legal as) : h.Legal (h.sift as) := by
  induction as generalizing h with
  | nil => trivial
  | cons a as ih =>
    rw [sift]
    split
    · rename_i ha
      exact ih (act_of_refusal ha ▸ hl.2)
    · exact ⟨hl.1, ih hl.2⟩

/-- As long as no submission is accepted, there is nothing to wait for. -/
theorem Reachable.next?_of_none_accepted (hr : h.Reachable config) (ha : h.accepted = []) :
    h.session.next? = some (.finished, h.session) := by
  have hnone : h.session.requests.size = 0 := by
    rw [← hr.orderly.length_accepted, ha, List.length_nil]
  have hpushes : h.pushes = [] := List.eq_nil_iff_forall_not_mem.mpr fun p hp => by
    have hlt := hr.request_lt hp
    omega
  have hevents : h.session.queue.events = [] := by
    have hsum := hr.taken_append_events
    rw [hpushes, List.map_nil, List.append_eq_nil_iff] at hsum
    exact hsum.2
  have hdue : h.due = [] := by
    rw [due, hnone]
    rfl
  have hout : h.session.queue.outstanding = 0 := by
    rw [hr.outstanding_eq, hevents, hdue]
    rfl
  simp [Session.next?, CompletionQueue.take?, hevents, hout]

theorem Reachable.waitFor_of_none_accepted (hr : h.Reachable config) (ha : h.accepted = [])
    (mode : Session.WaitMode) {slots : List Completion} (hs : slots ≠ []) :
    h.session.waitFor mode slots = some (⟨.finished, 0, slots⟩, h.session) := by
  unfold Session.waitFor
  rw [if_neg (by simpa using hs), hr.next?_of_none_accepted ha]
  rfl

end History

/-! ## The way to the answer -/

/-- How many steps the submitter of a request takes at most until it answers. -/
def Request.ahead (q : Request) : Nat :=
  match q.launch with
  | .ready => 3 * (q.pieces.size - q.launched)
  | .entered => 3 * (q.pieces.size - q.launched) - 1
  | .cleared => 3 * (q.pieces.size - q.launched) - 2
  | .barred => 1
  | .answered _ => 0

namespace History

variable {config : Config} {h k : History} {r : Nat} {q : Request} {x : Submission}

/-- No step of anybody leads the submitter of a request back. -/
theorem Step.ahead (hr : h.Reachable config) (hs : Step h k)
    (hq : h.session.requests[r]? = some q) :
    ∃ q', k.session.requests[r]? = some q' ∧ q'.ahead ≤ q.ahead := by
  have hmodify {r' : Nat} {f : Request → Request}
      (hk : k.session.requests = h.session.requests.modify r' f)
      (hf : r' = r → (f q).ahead ≤ q.ahead) :
      ∃ q', k.session.requests[r]? = some q' ∧ q'.ahead ≤ q.ahead := by
    rw [hk, Array.getElem?_modify, hq]
    by_cases hrr : r' = r
    · rw [if_pos hrr]
      exact ⟨f q, rfl, hf hrr⟩
    · rw [if_neg hrr]
      exact ⟨q, rfl, Nat.le_refl _⟩
  have hn := hr.launches hq
  cases hs with
  | accept =>
    refine ⟨q, ?_, Nat.le_refl _⟩
    rw [Array.getElem?_push, if_neg (Nat.ne_of_lt (Array.getElem?_eq_some_iff.mp hq).1)]
    exact hq
  | enter hq' hl =>
    refine hmodify (requests_modifyRequest ..) ?_
    rintro rfl
    obtain rfl := Option.some.inj (hq.symm.trans hq')
    simp only [Request.ahead, hl]
    omega
  | look hq' hl =>
    refine hmodify (requests_modifyRequest ..) ?_
    rintro rfl
    obtain rfl := Option.some.inj (hq.symm.trans hq')
    rw [Request.Launches, hl] at hn
    cases h.session.stopped <;>
      simp only [Request.ahead, hl, if_true, Bool.false_eq_true, if_false] <;> omega
  | giveUp hq' hl =>
    refine hmodify (requests_modifyRequest ..) fun _ => ?_
    exact Nat.zero_le _
  | launch hq' hl hp =>
    refine hmodify (requests_modifyRequest ..) ?_
    rintro rfl
    obtain rfl := Option.some.inj (hq.symm.trans hq')
    by_cases hlast : q.launched + 1 < q.pieces.size
    · simp only [Request.ahead, hl, if_pos hlast]
      omega
    · simp only [Request.ahead, if_neg hlast]
      omega
  | count =>
    refine hmodify ((requests_modifyTask ..).trans (requests_modifyRequest ..)) fun _ => ?_
    rw [tally_eq]
    exact Nat.le_refl _
  | write => exact hmodify (requests_modifyRequest ..) fun _ => Nat.le_refl _
  | idle | grant | line | begin | push | pass | leave | finish | handOver | close | raise | halt
  | drain | take => exact ⟨q, hq, Nat.le_refl _⟩

/-- A step of the submitter brings it nearer to its answer. -/
theorem Reachable.ahead_launch (hr : h.Reachable config) (hq : h.session.requests[r]? = some q)
    (hl : ∀ code, q.launch ≠ .answered code) :
    ∃ q', (h.act (.launch r)).session.requests[r]? = some q' ∧ q'.ahead < q.ahead := by
  have hn := hr.launches hq
  unfold Request.Launches at hn
  simp only [act, Session.act, Session.launch, hq]
  cases hlaunch : q.launch with
  | ready =>
    simp only [hlaunch] at hn
    refine ⟨_, requests_modifyRequest_self (s := { h.session with
      inflight := h.session.inflight + 1 }) hq _, ?_⟩
    simp only [Request.ahead, hlaunch]
    omega
  | entered =>
    simp only [hlaunch] at hn
    refine ⟨_, requests_modifyRequest_self hq _, ?_⟩
    cases h.session.stopped <;>
      simp only [Request.ahead, hlaunch, if_true, Bool.false_eq_true, if_false] <;> omega
  | barred =>
    obtain ⟨n, faults, hv⟩ := leave_eq h.session
    rw [hv]
    refine ⟨_, requests_modifyRequest_self (s := { h.session with inflight := n, faults }) hq _, ?_⟩
    simp [Request.ahead, hlaunch]
  | cleared =>
    simp only [hlaunch] at hn
    simp only [Array.getElem?_eq_getElem hn]
    refine ⟨_, requests_modifyRequest_self (s := { h.session with
      tasks := h.session.tasks.push { request := r, piece := q.pieces[q.launched] } }) hq _, ?_⟩
    by_cases hlast : q.launched + 1 < q.pieces.size
    · simp only [Request.ahead, hlaunch, if_pos hlast]
      omega
    · simp only [Request.ahead, hlaunch, if_neg hlast]
      omega
  | answered code => exact absurd hlaunch (hl code)

/-- **Steps of the submitter are counted off**, whatever happens between them. -/
theorem Reachable.count_launch (hr : h.Reachable config) (hq : h.session.requests[r]? = some q)
    {as : List Action} (hl : h.Legal as) :
    ∃ q', (h.run as).session.requests[r]? = some q' ∧
      as.count (.launch r) + q'.ahead ≤ q.ahead := by
  induction as generalizing h q with
  | nil => exact ⟨q, hq, by simp⟩
  | cons a as ih =>
    have hr' : (h.act a).Reachable config := hr.reaches (.step (.refl h) hl.1)
    by_cases ha : a = .launch r
    · subst ha
      obtain ⟨q₀, hq₀, hopen⟩ := hl.1
      obtain rfl := Option.some.inj (hq.symm.trans hq₀)
      obtain ⟨q', hq', hlt⟩ := hr.ahead_launch hq hopen
      obtain ⟨q'', hq'', hle⟩ := ih hr' hq' hl.2
      refine ⟨q'', hq'', ?_⟩
      rw [List.count_cons_self]
      omega
    · obtain ⟨q', hq', hle'⟩ := (step_act hr.coherent hl.1).ahead hr hq
      obtain ⟨q'', hq'', hle⟩ := ih hr' hq' hl.2
      refine ⟨q'', hq'', ?_⟩
      rw [List.count_cons_of_ne ha]
      omega

/-- A submitter with no step ahead has answered. -/
theorem Reachable.answer_of_ahead (hr : h.Reachable config)
    (hq : h.session.requests[r]? = some q) (h0 : q.ahead = 0) :
    (h.session.answer? r).isSome := by
  have hn := hr.launches hq
  unfold Request.Launches at hn
  unfold Request.ahead at h0
  rw [Session.answer?, hq, Option.bind_some]
  cases hl : q.launch with
  | answered code => rfl
  | ready | entered | cleared | barred =>
    simp only [hl] at hn h0
    omega

/-- A submitter that has not answered can take a step. -/
theorem enabled_launch (hq : h.session.requests[r]? = some q)
    (hn : h.session.answer? r = none) : h.session.Enabled (.launch r) := by
  refine ⟨q, hq, ?_⟩
  intro code hl
  simp [Session.answer?, hq, hl] at hn

/-- **Success means that all chunks are launched**, and anything else that the session was
stopped. -/
theorem Reachable.launched_of_answer (hr : h.Reachable config)
    (hq : h.session.requests[r]? = some q) {code : Code} (hc : h.session.answer? r = some code) :
    code = .success ∧ (h.session.tasksOf r).length = q.pieces.size ∨
      code = .finished ∧ h.session.stopped = true := by
  have hl : q.launch = .answered code := by
    rw [Session.answer?, hq, Option.bind_some] at hc
    split at hc
    · rename_i hlaunch
      rw [hlaunch, Option.some.inj hc]
    · exact absurd hc (by simp)
  have hn := hr.launches hq
  rw [hr.length_tasksOf hq]
  unfold Request.Launches at hn
  rw [hl] at hn
  cases code with
  | success => exact Or.inl ⟨rfl, hn⟩
  | finished => exact Or.inr ⟨rfl, hn.2.2⟩
  | fileAccess | invalidParameter | unknown => exact absurd hn.1 (by simp)

end History

/-- A submitter that is through, or that there is not, changes nothing. -/
theorem Session.launch_of_not_enabled {s : Session} {r : Nat} (he : ¬ s.Enabled (.launch r)) :
    s.launch r = s := by
  unfold launch
  cases hq : s.requests[r]? with
  | none => rfl
  | some q =>
    cases hl : q.launch with
    | answered code => simp [hl]
    | ready | entered | cleared | barred => exact absurd ⟨q, hq, by simp [hl]⟩ he

namespace History

variable {config : Config} {h k : History} {r : Nat} {q : Request} {x : Submission}

/-- The steps of one submitter in a row are steps of the session. -/
theorem reaches_repeat (h : History) (r n : Nat) :
    ∃ k, h.Reaches k ∧ k.session = Nat.repeat (Session.launch · r) n h.session := by
  induction n with
  | zero => exact ⟨h, .refl h, rfl⟩
  | succ n ih =>
    obtain ⟨k, hk, hs⟩ := ih
    show ∃ m, h.Reaches m ∧ m.session = (Nat.repeat (Session.launch · r) n h.session).launch r
    by_cases he : k.session.Enabled (.launch r)
    · exact ⟨k.act (.launch r), .step hk he, congrArg (Session.launch · r) hs⟩
    · exact ⟨k, hk, by rw [← hs, Session.launch_of_not_enabled he]⟩

/-! ## Every submission -/

/-- What comes of the request that `x`, accepted by the session of `h`, is registered as. -/
structure Dispatches (config : Config) (h : History) (x : Submission) : Prop where
  /-- Its submitter answers `success` when all chunks are launched, or the session was stopped
  meanwhile. -/
  answers : ∀ k, (h.act (.submit x)).Reaches k →
    ∀ code, k.session.answer? h.session.requests.size = some code →
      code = .success ∧ (k.session.tasksOf h.session.requests.size).length =
        max 1 (x.range.length / config.chunkSize).toNat ∨
      code = .finished ∧ k.session.stopped = true
  /-- Until then it can go on at any time. -/
  goesOn : ∀ k, (h.act (.submit x)).Reaches k →
    k.session.answer? h.session.requests.size = none →
      k.session.Enabled (.launch h.session.requests.size)
  /-- It answers within three steps a chunk, whoever takes steps between them. -/
  returns : ∀ as, (h.act (.submit x)).Legal as →
    3 * max 1 (x.range.length / config.chunkSize).toNat ≤
      as.count (.launch h.session.requests.size) →
    (((h.act (.submit x)).run as).session.answer? h.session.requests.size).isSome
  /-- When nobody does, the answer is `success`. -/
  alone : (h.session.read x).2 = some .success ∧
    ((h.session.read x).1.tasksOf h.session.requests.size).length =
      max 1 (x.range.length / config.chunkSize).toNat

/-- What the session of `h` makes of submissions. -/
structure Admits (config : Config) (h : History) : Prop where
  finished : ∀ x, (h.session.submit x).2 = .refused .finished ↔ h.session.stopped = true
  invalidParameter : ∀ x, (h.session.submit x).2 = .refused .invalidParameter ↔
    h.session.stopped = false ∧ x.Malformed
  accepted : ∀ x, (h.session.submit x).2 = .accepted h.session.requests.size ↔
    h.session.stopped = false ∧ ¬ x.Malformed
  dispatches : ∀ x, (h.session.submit x).2 = .accepted h.session.requests.size →
    h.Dispatches config x
  /-- A refusal leaves the session and its history as they are, and ends the call at once. -/
  refused : ∀ x code, (h.session.submit x).2 = .refused code →
    h.act (.submit x) = h ∧ ∀ others, h.session.submitBetween others x = (h.session, some code)
  /-- Later steps can be taken and tell the same as if refused submissions had not been made. -/
  sifted : ∀ as, h.run (h.sift as) = h.run as ∧ (h.Legal as → h.Legal (h.sift as)) ∧
    h.told (h.sift as) = (h.told as).filter fun m => ¬ m.Refusal
  /-- With refused submissions only, the sentinel comes at once. -/
  sentinel : h.accepted = [] → ∀ mode slots, slots ≠ [] →
    h.session.waitFor mode slots = some (⟨.finished, 0, slots⟩, h.session)

/-- The request that an accepted submission is registered as. -/
theorem Reachable.exists_registered (hr : h.Reachable config)
    (ha : (h.session.submit x).2 = .accepted h.session.requests.size)
    (hk : (h.act (.submit x)).Reaches k) :
    ∃ q, k.session.requests[h.session.requests.size]? = some q ∧ q.Answers config x := by
  have hacc : (h.act (.submit x)).accepted = h.accepted ++ [x] := by
    simp [act, ha]
  have hx : k.accepted[h.session.requests.size]? = some x := by
    refine hk.accepted ?_
    rw [hacc, ← hr.orderly.length_accepted, List.getElem?_concat_length]
  have hk₀ : h.Reaches (h.act (.submit x)) := (Reaches.refl h).step trivial
  have hr' := hr.reaches (hk₀.trans hk)
  have hlt : h.session.requests.size < k.session.requests.size := by
    rw [← hr'.orderly.length_accepted]
    exact (List.getElem?_eq_some_iff.mp hx).1
  obtain ⟨y, hy, hay⟩ := hr'.answers (Array.getElem?_eq_getElem hlt)
  obtain rfl := Option.some.inj (hy.symm.trans hx)
  exact ⟨_, Array.getElem?_eq_getElem hlt, hay⟩

theorem Reachable.dispatches (hr : h.Reachable config)
    (ha : (h.session.submit x).2 = .accepted h.session.requests.size) :
    h.Dispatches config x := by
  have hk₀ : h.Reaches (h.act (.submit x)) := (Reaches.refl h).step trivial
  have hanswers : ∀ k, (h.act (.submit x)).Reaches k →
      ∀ code, k.session.answer? h.session.requests.size = some code →
        code = .success ∧ (k.session.tasksOf h.session.requests.size).length =
          max 1 (x.range.length / config.chunkSize).toNat ∨
        code = .finished ∧ k.session.stopped = true := by
    intro k hk code hc
    obtain ⟨q, hq, hqx⟩ := hr.exists_registered ha hk
    have hcases := (hr.reaches (hk₀.trans hk)).launched_of_answer hq hc
    rwa [hqx.size_pieces] at hcases
  refine ⟨hanswers, ?_, ?_, ?_⟩
  · intro k hk hn
    obtain ⟨q, hq, -⟩ := hr.exists_registered ha hk
    exact enabled_launch hq hn
  · intro as hl hcount
    obtain ⟨q, hq, hqx⟩ := hr.exists_registered ha (.refl _)
    have hr' := hr.reaches hk₀
    obtain ⟨q', hq', hle⟩ := hr'.count_launch hq hl
    have hstart : q.ahead ≤ 3 * max 1 (x.range.length / config.chunkSize).toNat := by
      have hsize := hqx.size_pieces
      rw [ByteRange.chunkCount] at hsize
      have hpos := hqx.pieces_pos
      rw [← hsize, Request.ahead]
      split <;> omega
    exact (hr'.reaches (.run (.refl _) hl)).answer_of_ahead hq' (by omega)
  · obtain ⟨l, hl⟩ := accept_of_submit ha
    have hread := Session.read_of_accept hl
    refine ⟨hread, ?_⟩
    obtain ⟨s, hs⟩ : ∃ s, h.session.submit x = (s, .accepted h.session.requests.size) :=
      ⟨_, Prod.ext rfl ha⟩
    have hact : (h.act (.submit x)).session = s := congrArg Prod.fst hs
    obtain ⟨k, hk, hks⟩ := reaches_repeat (h.act (.submit x)) h.session.requests.size
      (s.launchSteps h.session.requests.size)
    have heq : h.session.read x =
        (k.session, k.session.answer? h.session.requests.size) := by
      rw [hks, hact, Session.read, Session.submitBetween, hs]
      rfl
    rw [heq] at hread ⊢
    obtain ⟨-, hcount⟩ | ⟨hcode, -⟩ := hanswers k hk _ hread
    · exact hcount
    · exact absurd hcode (by simp)

/-- **What becomes of a submission, in every state that a session can reach.** It is refused as
`finished` exactly by a stopped session, as `invalidParameter` exactly when the path does not parse,
the buffer is not as long as the range, or the range ends behind the last 64-bit position, and else
its chunks are launched. A refusal has no effect whatever. -/
theorem submit_decides (hr : h.Reachable config) : h.Admits config where
  finished _ := Session.finished_iff
  invalidParameter _ := Session.invalidParameter_iff
  accepted _ := Session.accepted_iff
  dispatches _ := hr.dispatches
  refused x code hc := by
    refine ⟨act_of_refusal ?_, Session.submitBetween_of_refused hc⟩
    rw [Session.tells, hc]
    trivial
  sifted as := ⟨run_sift h as, legal_sift, told_sift h as⟩
  sentinel ha mode _ hs := hr.waitFor_of_none_accepted ha mode hs

/-- A session with two transfers running refuses a path without a blob. -/
theorem submit_decides_bothRun :
    ((new .fours).run Session.bothRun).Admits .fours ∧
      (((new .fours).run Session.bothRun).session.submit
        { Submission.eight with path := "az://c" }).2 = .refused .invalidParameter :=
  ⟨submit_decides (.ofRun .fours Session.bothRun (by decide +kernel) (by decide +kernel)),
    by decide +kernel⟩

end History

end RangeFetch
