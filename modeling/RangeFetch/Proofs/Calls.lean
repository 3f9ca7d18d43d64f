import RangeFetch.Proofs.Progress
import RangeFetch.Proofs.Stopping

/-!
# What one call does

A call of a session is a run of steps that nobody takes a step between. A session that is not
stopped launches every chunk of a submission that it accepts, and only a stop raises its flags.

Headlines:
* **`read_of_accept`**: an accepted submission is answered `success`.
* **`flags_read`**, **`flags_waitFor`**: reading and waiting raise no flag.
* **`Quiet`**: no closer is between its two flags; every call and every step of a task keeps this.
-/

namespace RangeFetch.Session

variable {s : Session}

/-! ## Submitting -/

theorem flags_repeat (s : Session) (r n : Nat) :
    (Nat.repeat (launch · r) n s).flags = s.flags := by
  induction n with
  | zero => rfl
  | succ n ih => exact (flags_launch _ r).trans ih

theorem flags_read (s : Session) (x : Submission) : (s.read x).1.flags = s.flags := by
  have hsubmit := flags_submit s x
  unfold read submitBetween
  cases hx : s.submit x with
  | mk s' admission =>
    rw [hx] at hsubmit
    cases admission with
    | refused code => exact hsubmit
    | broken f => exact hsubmit
    | accepted r => exact (flags_repeat ..).trans hsubmit

/-- Three steps of a submitter launch one chunk. -/
theorem launch_chunk {r : Nat} {q : Request} (hs : s.stopped = false)
    (hq : s.requests[r]? = some q) (hl : q.launch = .ready) (hn : q.launched < q.pieces.size) :
    ∃ q', (((s.launch r).launch r).launch r).requests[r]? = some q' ∧ q'.pieces = q.pieces ∧
      q'.launched = q.launched + 1 ∧
      q'.launch = if q.launched + 1 < q.pieces.size then .ready else .answered .success := by
  have henter : (s.launch r).requests[r]? = some { q with launch := .entered } := by
    simp only [launch, hq, hl]
    exact History.requests_modifyRequest_self (s := { s with inflight := s.inflight + 1 }) hq _
  have hstop : (s.launch r).stopped = false := (congrArg Prod.fst (flags_launch s r)).trans hs
  have hlook : ((s.launch r).launch r).requests[r]? = some { q with launch := .cleared } := by
    rw [launch, henter]
    simp only [hstop]
    exact History.requests_modifyRequest_self henter _
  refine ⟨{ q with
    launched := q.launched + 1
    launch := if q.launched + 1 < q.pieces.size then .ready else .answered .success }, ?_, rfl, rfl,
    rfl⟩
  rw [launch, hlook]
  simp only [Array.getElem?_eq_getElem hn]
  rw [requests_modifyRequest, Array.getElem?_modify, if_pos rfl]
  show Option.map _ ((s.launch r).launch r).requests[r]? = _
  rw [hlook]
  rfl

/-- A submitter that is at its first chunk launches all, if nobody stops the session. -/
theorem launch_chunks {r n : Nat} {q : Request} (hs : s.stopped = false)
    (hq : s.requests[r]? = some q) (hl : q.launch = .ready) (h0 : q.launched = 0)
    (hpos : 0 < q.pieces.size) (hn : n ≤ q.pieces.size) :
    ∃ q', (Nat.repeat (launch · r) (3 * n) s).requests[r]? = some q' ∧ q'.pieces = q.pieces ∧
      q'.launched = n ∧ q'.launch = if n < q.pieces.size then .ready else .answered .success := by
  induction n with
  | zero => exact ⟨q, hq, rfl, h0, by rw [if_pos hpos, hl]⟩
  | succ n ih =>
    obtain ⟨q', hq', hp', hn', hl'⟩ := ih (Nat.le_of_succ_le hn)
    rw [if_pos (Nat.lt_of_succ_le hn)] at hl'
    have hstop : (Nat.repeat (launch · r) (3 * n) s).stopped = false :=
      (congrArg Prod.fst (flags_repeat s r (3 * n))).trans hs
    obtain ⟨q'', hq'', hp'', hn'', hl''⟩ := launch_chunk hstop hq' hl' (by rw [hn', hp']; exact hn)
    refine ⟨q'', hq'', hp''.trans hp', by rw [hn'', hn'], ?_⟩
    rw [hl'', hn', hp']

/-- **An accepted submission is answered `success`.** -/
theorem read_of_accept {x : Submission} {l : Location} (ha : s.accept x = .ok l) :
    (s.read x).2 = some .success := by
  obtain ⟨pieces, -, hchunks, hsubmit⟩ := History.submit_of_accept ha
  have hs : s.stopped = false := by
    unfold accept at ha
    by_contra hstop
    rw [if_pos (by simpa using hstop)] at ha
    exact absurd ha (by simp)
  have hpos : 0 < pieces.length := by
    rw [← List.length_map (f := Piece.range), hchunks, ByteRange.length_chunks]
    exact ByteRange.chunkCount_pos ..
  unfold read submitBetween
  rw [hsubmit]
  simp only [id]
  unfold launchAll launchSteps
  have hq : (s.requests.push (.ofSubmission x l pieces))[s.requests.size]? =
      some (.ofSubmission x l pieces) := Array.getElem?_push_size
  rw [hq]
  obtain ⟨q, hq', -, -, hl⟩ := launch_chunks (s := { s.register with
      requests := s.requests.push (.ofSubmission x l pieces) }) hs hq rfl rfl hpos (Nat.le_refl _)
  rw [if_neg (Nat.lt_irrefl _)] at hl
  show answer? _ _ = _
  unfold answer?
  simp only [Option.elim]
  rw [hq', Option.bind_some, hl]

/-! ## Waiting -/

theorem stopped_take? {q q' : CompletionQueue} {e : Completion} (h : q.take? = some (e, q')) :
    q'.stopped = q.stopped := by
  unfold CompletionQueue.take? at h
  split at h
  · obtain ⟨-, rfl⟩ := Prod.mk.inj (Option.some.inj h)
    rfl
  · split at h
    · obtain ⟨-, rfl⟩ := Prod.mk.inj (Option.some.inj h)
      rfl
    · split at h
      · obtain ⟨-, rfl⟩ := Prod.mk.inj (Option.some.inj h)
        rfl
      · exact absurd h (by simp)

theorem stopped_takeMany (room : Nat) (q : CompletionQueue) :
    (q.takeMany room).2.stopped = q.stopped := by
  induction room generalizing q with
  | zero => rfl
  | succ room ih =>
    rw [CompletionQueue.takeMany]
    split
    · rfl
    · rename_i e q' ht
      split
      · exact stopped_take? ht
      · exact (ih q').trans (stopped_take? ht)

theorem flags_waitFor {mode : WaitMode} {slots : List Completion} {w : Retrieved} {s' : Session}
    (hw : s.waitFor mode slots = some (w, s')) : s'.flags = s.flags := by
  unfold waitFor at hw
  split at hw
  · obtain ⟨-, rfl⟩ := Prod.mk.inj (Option.some.inj hw)
    rfl
  · split at hw
    · exact absurd hw (by simp)
    · obtain ⟨-, rfl⟩ := Prod.mk.inj (Option.some.inj hw)
      rfl
    · rename_i e s₁ hn
      have hfirst := flags_next hn
      split at hw
      · obtain ⟨-, rfl⟩ := Prod.mk.inj (Option.some.inj hw)
        exact hfirst
      · obtain ⟨-, rfl⟩ := Prod.mk.inj (Option.some.inj hw)
        rw [← hfirst]
        exact congrArg (s₁.stopped, ·, s₁.closers) (stopped_takeMany ..)

/-! ## Between calls -/

/-- The flags agree, and no closer is on the way to raise one. -/
structure Quiet (s : Session) : Prop where
  agree : s.queue.stopped = s.stopped
  closers : ∀ (i : Nat) (c : Closer), s.closers[i]? = some c →
    c.closing = .draining ∨ c.closing = .returned

theorem Quiet.congr {s' : Session} (hs : s.Quiet) (hf : s'.flags = s.flags) : s'.Quiet := by
  simp only [flags, Prod.mk.injEq] at hf
  obtain ⟨h1, h2, h3⟩ := hf
  exact ⟨by rw [h1, h2]; exact hs.agree, by rw [h3]; exact hs.closers⟩

theorem Quiet.halt (hs : s.Quiet) (waits : Bool) :
    (s.halt waits).Quiet ∧ (s.halt waits).stopped = true := by
  rw [halt_eq]
  refine ⟨⟨rfl, forall_push hs.closers ?_⟩, rfl⟩
  cases waits with
  | true => exact Or.inl rfl
  | false => exact Or.inr rfl

/-- The steps that go on between the calls: those of tasks, and of a shutdown that waits. -/
def Action.Works : Action → Prop
  | .advance _ | .write .. | .finish .. | .closing _ => True
  | .submit _ | .launch _ | .close _ | .take => False

theorem Quiet.closing (hs : s.Quiet) (i : Nat) :
    (s.closing i).Quiet ∧ (s.closing i).stopped = s.stopped := by
  unfold Session.closing
  split
  · exact ⟨hs, rfl⟩
  · rename_i c hc
    rcases hs.closers i c hc with hd | hd
    · simp only [hd]
      split
      · exact ⟨⟨hs.agree, forall_modify hs.closers fun _ _ _ => Or.inr rfl⟩, rfl⟩
      · exact ⟨hs, rfl⟩
    · simp only [hd]
      exact ⟨hs, trivial⟩

/-- No step between the calls stops a session. -/
theorem Quiet.work (hs : s.Quiet) {a : Action} (ha : a.Works) :
    (s.act a).Quiet ∧ (s.act a).stopped = s.stopped := by
  have hflags {s' : Session} (hf : s'.flags = s.flags) : s'.Quiet ∧ s'.stopped = s.stopped :=
    ⟨hs.congr hf, congrArg Prod.fst hf⟩
  cases a with
  | advance t => exact hflags (flags_advance s t)
  | write t i bytes => exact hflags (flags_write s t i bytes)
  | finish t o => exact hflags (flags_finish s t o)
  | closing i => exact hs.closing i
  | submit | launch | close | take => exact absurd ha id

end RangeFetch.Session
