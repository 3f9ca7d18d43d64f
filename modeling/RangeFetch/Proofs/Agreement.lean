import RangeFetch.Proofs.Completing
import RangeFetch.Proofs.Reading

/-!
# A range read in chunks is the range read at once

A session that reads from a store transfers a range chunk by chunk, each chunk by an opening, a
seeking and a reading of its own, while one transfer could read it all. In an unchanging tree of
small files both come to the same: the bytes that are there are the same whichever offset they are
read from, and all of the range can be read exactly when every chunk can.

Headlines:
* **`Supplied.success_iff_readable`**: a request succeeds exactly when its range can be read.
* **`Supplied.as_one`**: the event and the buffer of a request are those of one transfer, and every
  run comes to them.
-/

namespace RangeFetch

namespace History

variable {config : Config} {h : History} {s : Store} {tree : FileTree} {schedule : Nat → Schedule}
  {r t : Nat} {q : Request} {task : Task} {x : Submission}

/-! ## The transfer of a chunk -/

/-- A task asks for the chunk that it carries. -/
theorem Reachable.callOf?_task (hr : h.Reachable config) (hq : h.session.requests[r]? = some q)
    (ht : h.session.tasks[t]? = some task) (htr : task.request = r) :
    h.session.callOf? t =
      some ⟨q.location, task.piece.range.offset, task.piece.range.length.toNat⟩ := by
  rw [Session.callOf?, ht, Option.bind_some, htr, hq, Option.map_some,
    (hr.laid_task hq ht htr).2.1]

/-- A chunk was transferred exactly when all of its bytes are there. -/
theorem Supplied.exact_iff (hs : h.Supplied (fun t => s.reply tree (schedule t)) config)
    (hq : h.session.requests[r]? = some q) (ht : h.session.tasks[t]? = some task)
    (htr : task.request = r) {o : Outcome} (ho : task.phase.outcome? = some o) :
    o.Exact task.piece.range.length.toNat ↔
      s.Readable tree q.location task.piece.range.offset task.piece.range.length.toNat := by
  rw [← Session.outcomeOf?_of_getElem? ht] at ho
  rw [((hs.replied t).ended _ (hs.reachable.callOf?_task hq ht htr) o ho).1]
  exact s.exact_reply_iff (schedule t) ⟨_, _, _⟩

/-- A transfer that has ended has left the bytes that are there. -/
theorem Supplied.written_eq (hs : h.Supplied (fun t => s.reply tree (schedule t)) config)
    (hsmall : tree.Small) (hq : h.session.requests[r]? = some q)
    (ht : h.session.tasks[t]? = some task) (htr : task.request = r) {o : Outcome}
    (ho : task.phase.outcome? = some o) {j : Nat} (hj : j < task.piece.slice.length) :
    h.written t j = s.byte? tree q.location q.range.offset (task.piece.slice.start + j) := by
  obtain ⟨-, hlen, hoff, -⟩ := hs.reachable.laid_task hq ht htr
  rw [← Session.outcomeOf?_of_getElem? ht] at ho
  rw [((hs.replied t).ended _ (hs.reachable.callOf?_task hq ht htr) o ho).2, s.getElem?_reply,
    if_pos (hlen ▸ hj)]
  exact s.byte?_add hsmall hoff j

/-! ## All chunks of a range -/

/-- If the range can be read, the chunk of each task can. -/
theorem Reachable.readable_task (hr : h.Reachable config) (hsmall : tree.Small)
    (hq : h.session.requests[r]? = some q) (ht : h.session.tasks[t]? = some task)
    (htr : task.request = r)
    (hread : s.Readable tree q.location q.range.offset q.range.length.toNat) :
    s.Readable tree q.location task.piece.range.offset task.piece.range.length.toNat := by
  obtain ⟨x, -, ha⟩ := hr.answers hq
  obtain ⟨-, hlen, hoff, hend⟩ := hr.laid_task hq ht htr
  rw [ha.size_buffer, ha.size_eq, ← ha.range_eq, hlen] at hend
  exact hread.slice hsmall hoff hend

/-- If all chunks are launched and each of them can be read, the range can. -/
theorem Reachable.readable_of_tasks (hr : h.Reachable config) (hsmall : tree.Small)
    (hq : h.session.requests[r]? = some q) (hall : q.launched = q.pieces.size)
    (hread : ∀ (t : Nat) (task : Task), h.session.tasks[t]? = some task → task.request = r →
      s.Readable tree q.location task.piece.range.offset task.piece.range.length.toNat) :
    s.Readable tree q.location q.range.offset q.range.length.toNat := by
  obtain ⟨x, -, ha⟩ := hr.answers hq
  refine .of_slices hsmall ?_ ?_
  · have hpos : 0 < (h.session.tasksOf r).length := by
      rw [hr.length_tasksOf hq, hall]
      exact ha.pieces_pos
    obtain ⟨t, ht⟩ := List.exists_mem_of_length_pos hpos
    obtain ⟨task, htask, htr⟩ := mem_tasksOf.mp ht
    obtain ⟨-, -, hoff, -⟩ := hr.laid_task hq htask htr
    exact ⟨_, _, by omega, hread t task htask htr⟩
  · intro p hp
    rw [ha.range_eq, ← ha.size_eq, ← ha.size_buffer] at hp
    obtain ⟨t, task, ht, htr, hcov⟩ := hr.exists_covers hq hall hp
    obtain ⟨-, hlen, hoff, -⟩ := hr.laid_task hq ht htr
    exact ⟨_, _, _, hoff, hcov.1, hlen ▸ hcov.2, hread t task ht htr⟩

end History

/-! ## The request and one transfer -/

/-- The completion of a submission whose range is read by one transfer that ends in `outcome`. -/
def Submission.completionOf (x : Submission) (outcome : Except StoreError Nat) : Completion :=
  ⟨x.id, if outcome = .ok x.range.length.toNat then .success else .fileAccess⟩

namespace History

variable {config : Config} {h : History} {s : Store} {tree : FileTree} {schedule : Nat → Schedule}
  {r : Nat} {q : Request} {x : Submission}

/-- What the submission `x` has come to as request `r`, whose state is `q`, when `one` is what one
transfer of its range into its buffer comes to. -/
structure LikeOne (h : History) (r : Nat) (x : Submission) (q : Request)
    (one : Buffer × Except StoreError Nat) : Prop where
  /-- Without a stop, every chunk is launched before the caller has an answer. -/
  answer : h.session.stopped = false → ∀ code, q.launch = .answered code → code = .success
  /-- The event, when there is one, is that of the one transfer. -/
  event : ∀ p ∈ h.pushesOf r, p.event = x.completionOf one.2
  /-- When all chunks have reported, there is one event. -/
  once : q.launch = .answered .success → (∀ t ∈ h.session.tasksOf r, h.session.Reported t) →
    (h.pushesOf r).length = 1
  /-- What was pushed is handed out or still queued. -/
  queued : h.taken ++ h.session.queue.events = h.pushes.map (·.event)
  /-- When all transfers have ended, the buffer is that of the one transfer, also if it fails. -/
  buffer : q.launch = .answered .success →
    (∀ t ∈ h.session.tasksOf r, ∃ o, h.session.outcomeOf? t = some o) → q.buffer = one.1

/-- A request succeeds exactly when its range can be read. -/
theorem Supplied.success_iff_readable
    (hs : h.Supplied (fun t => s.reply tree (schedule t)) config) (hsmall : tree.Small)
    (hq : h.session.requests[r]? = some q) {p : Push} (hp : p ∈ h.pushesOf r) :
    p.event.code = .success ↔
      s.Readable tree q.location q.range.offset q.range.length.toNat := by
  have hr := hs.reachable
  constructor
  · intro hc
    have hl := hr.launch_of_success hq hp hc
    refine hr.readable_of_tasks hsmall hq (hr.launched_eq hq hl) ?_
    intro t task ht htr
    obtain ⟨task', ht', ho⟩ :=
      (hr.success_iff hq hl hp).mp hc t (mem_tasksOf.mpr ⟨task, ht, htr⟩)
    obtain rfl := Option.some.inj (ht.symm.trans ht')
    exact (hs.exact_iff hq ht htr ho).mp rfl
  · intro hread
    rcases hr.event_of_push hq hp with hev | hev
    · rw [hev]
    · -- the chunk that failed could have been read
      have hd := hr.decision_of_push hq hp
      rw [hev] at hd
      obtain ⟨e, hf, -⟩ := Report.decision_fileAccess hd
      have hnot : ¬ e.Exact := by simpa using List.find?_some hf
      obtain ⟨hm, rfl⟩ := mem_reportsOf.mp (List.mem_of_find?_eq_some hf)
      obtain ⟨task, ht, hreq, hlen, hcount⟩ := hr.recorded.mem_reports.mp hm
      have hexact := (hs.exact_iff hq ht hreq.symm (Phase.outcome?_of_count? hcount)).mpr
        (hr.readable_task hsmall hq ht hreq.symm hread)
      rw [← hlen] at hexact
      exact absurd hexact hnot

/-- When all transfers have ended, the buffer has the bytes that are there. -/
theorem Supplied.getElem?_buffer (hs : h.Supplied (fun t => s.reply tree (schedule t)) config)
    (hsmall : tree.Small) (hq : h.session.requests[r]? = some q)
    (hx : h.accepted[r]? = some x) (hall : q.launched = q.pieces.size)
    (hended : ∀ t ∈ h.session.tasksOf r, ∃ o, h.session.outcomeOf? t = some o) {i : Nat}
    (hi : i < q.buffer.size) :
    q.buffer[i]? = (s.byte? tree q.location q.range.offset i).or x.buffer[i]? := by
  have hr := hs.reachable
  have hb : h.session.bufferOf? r = some q.buffer := by
    rw [Session.bufferOf?, hq, Option.map_some]
  obtain ⟨t, task, ht, htr, hcov⟩ := hr.exists_covers hq hall hi
  obtain ⟨o, ho⟩ := hended t (mem_tasksOf.mpr ⟨task, ht, htr⟩)
  rw [Session.outcomeOf?_of_getElem? ht] at ho
  obtain ⟨j, rfl⟩ := Nat.exists_eq_add_of_le hcov.1
  have hj : j < task.piece.slice.length := Nat.lt_of_add_lt_add_left hcov.2
  rw [← hs.written_eq hsmall hq ht htr ho hj]
  exact (hr.landed.holds r _ x hb hx).inside t _
    (Session.slot?_eq_some.mpr ⟨task, ht, htr, rfl⟩) j hj

/-- A request is read as by one transfer. -/
theorem Supplied.like_one (hs : h.Supplied (fun t => s.reply tree (schedule t)) config)
    (hsmall : tree.Small) (hq : h.session.requests[r]? = some q) (hx : h.accepted[r]? = some x)
    (schedule' : Schedule) :
    h.LikeOne r x q (s.readInto tree schedule' q.location x.range.offset x.buffer) := by
  have hr := hs.reachable
  obtain ⟨y, hy, ha⟩ := hr.answers hq
  obtain rfl := Option.some.inj (hx.symm.trans hy)
  constructor
  · intro hst code hcode
    have hn := hr.launches hq
    rw [Request.Launches, hcode, hst] at hn
    cases code with
    | success => rfl
    | finished | fileAccess | invalidParameter | unknown => exact absurd hn.2.2 (by simp)
  · intro p hp
    have hone : (s.readInto tree schedule' q.location x.range.offset x.buffer).2 =
        .ok x.buffer.size ↔ s.Readable tree q.location x.range.offset x.buffer.size :=
      s.readInto_eq_ok_iff schedule' x.buffer
    have hsucc := hs.success_iff_readable hsmall hq hp
    rw [ha.range_eq, ← ha.size_eq, ← hone] at hsucc
    rw [Submission.completionOf, ← ha.size_eq]
    rcases hr.event_of_push hq hp with hev | hev
    · rw [if_pos (hsucc.mp (by rw [hev])), hev, ha.id_eq]
    · rw [if_neg (fun hread => absurd (hsucc.mpr hread) (by rw [hev]; simp)), hev, ha.id_eq]
  · exact hr.length_pushesOf hq
  · exact hr.taken_append_events
  · intro hl hended
    refine Array.ext_getElem? fun i => ?_
    by_cases hi : i < q.buffer.size
    · rw [hs.getElem?_buffer hsmall hq hx (hr.launched_eq hq hl) hended hi, ha.range_eq,
        s.getElem?_readInto schedule' (ha.size_buffer ▸ hi)]
    · rw [Array.getElem?_eq_none (Nat.le_of_not_lt hi), Array.getElem?_eq_none]
      rw [s.size_readInto, ← ha.size_buffer]
      exact Nat.le_of_not_lt hi

/-- At the end of a run without a stop, a request has the event and the buffer of one transfer. -/
theorem LikeOne.at_end {one : Buffer × Except StoreError Nat} (ha : h.LikeOne r x q one)
    (hq : h.session.requests[r]? = some q) (hst : h.session.stopped = false)
    (hend : h.session.AtEnd) :
    (h.pushesOf r).map (·.event) = [x.completionOf one.2] ∧ q.buffer = one.1 := by
  have hl : q.launch = .answered .success := by
    obtain ⟨code, hcode⟩ := hend.rest q (Array.mem_of_getElem? hq)
    rw [hcode, ha.answer hst code hcode]
  have hreported : ∀ t ∈ h.session.tasksOf r, h.session.Reported t := by
    intro t ht
    obtain ⟨task, htask, -⟩ := mem_tasksOf.mp ht
    exact ⟨task, htask, (hend.finished t task htask).reported⟩
  constructor
  · obtain ⟨p, hp⟩ := List.length_eq_one_iff.mp (ha.once hl hreported)
    rw [hp, List.map_singleton, ha.event p (by rw [hp]; exact List.mem_singleton_self p)]
  · refine ha.buffer hl ?_
    intro t ht
    obtain ⟨task, htask, hp⟩ := hreported t ht
    obtain ⟨o, hc⟩ := hp.count?
    exact ⟨o, (Session.outcomeOf?_of_getElem? htask).trans (Phase.outcome?_of_count? hc)⟩

/-- An accepted submission is a request, of the location that it names. -/
theorem Reachable.exists_request (hr : h.Reachable config) (hx : h.accepted[r]? = some x) :
    ∃ q, h.session.requests[r]? = some q ∧ Location.ofUri x.path = .ok q.location := by
  have hlt : r < h.session.requests.size := by
    rw [← hr.orderly.length_accepted]
    exact (List.getElem?_eq_some_iff.mp hx).1
  have hq := Array.getElem?_eq_getElem hlt
  obtain ⟨y, hy, ha⟩ := hr.answers hq
  obtain rfl := Option.some.inj (hx.symm.trans hy)
  exact ⟨_, hq, ha.location_eq⟩

/-- The submission `x` is read as by one transfer, which comes to `one`, and every run without a
stop goes on to an end that shows it. -/
structure AsOne (reply : Nat → TransferCall → Reply) (h : History) (r : Nat) (x : Submission)
    (q : Request) (one : Buffer × Except StoreError Nat) : Prop extends h.LikeOne r x q one where
  completes : h.session.stopped = false → ∃ k q', Follows reply h k ∧ k.session.stopped = false ∧
    k.session.AtEnd ∧ k.session.requests[r]? = some q' ∧
    (k.pushesOf r).map (·.event) = [x.completionOf one.2] ∧ q'.buffer = one.1

/-- **A range that is read in chunks is read as by one transfer**, however much the system gives at
each of the reads of either. -/
theorem Supplied.as_one (hs : h.Supplied (fun t => s.reply tree (schedule t)) config)
    (hsmall : tree.Small) (hx : h.accepted[r]? = some x) :
    ∃ q l, h.session.requests[r]? = some q ∧ Location.ofUri x.path = .ok l ∧
      ∀ schedule', AsOne (fun t => s.reply tree (schedule t)) h r x q
        (s.readInto tree schedule' l x.range.offset x.buffer) := by
  obtain ⟨q, hq, hl⟩ := hs.reachable.exists_request hx
  refine ⟨q, q.location, hq, hl, fun schedule' => ⟨hs.like_one hsmall hq hx schedule', ?_⟩⟩
  intro hst
  obtain ⟨k, hk, hsame, hend⟩ := hs.completes fun t call => s.length_reply_le (schedule t) call
  have hs' := hs.follows hk
  have hx' := hk.reaches.accepted hx
  obtain ⟨q', hq', hl'⟩ := hs'.reachable.exists_request hx'
  have hlocation : q'.location = q.location := Except.ok.inj (hl'.symm.trans hl)
  have hone := hs'.like_one hsmall hq' hx' schedule'
  rw [hlocation] at hone
  exact ⟨k, q', hk, hsame.trans hst, hend, hq', hone.at_end hq' (hsame.trans hst) hend⟩

end History

/-! ## A small store -/

theorem FileTree.small_six : FileTree.six.Small := by
  intro place content hm
  obtain ⟨-, rfl⟩ : place = [['s'], ['c'], ['b']] ∧ content = #[1, 2, 3, 4, 5, 6] := by
    simpa [six, addFile, addDirectory] using hm
  decide

namespace History

/-- Eight bytes are asked for in two chunks, and six are there: the second chunk ends first and
fails, and the buffer is that of one transfer that stops after six bytes. -/
theorem as_one_of_short :
    ∃ (h : History) (q : Request) (l : Location),
      h.Supplied (fun _ => Store.small.reply .six .eager) .fours ∧
      h.pushesOf 0 = [⟨1, 0, ⟨1, .fileAccess⟩⟩] ∧ h.taken = [⟨1, .fileAccess⟩] ∧
      q.buffer = #[1, 2, 3, 4, 5, 6, 0xee, 0xee] ∧
      AsOne (fun _ => Store.small.reply .six .eager) h 0 .eight q
        (Store.small.readInto .six .eager l 0 (Buffer.filled 8 0xee)) := by
  let h := (new .fours).run (Session.bothRun ++
    [.write 1 0 [5, 6], .finish 1 (.returned 2), .advance 1, .advance 1, .take,
      .write 0 2 [3, 4], .write 0 0 [1, 2], .finish 0 (.returned 4), .advance 0, .advance 0])
  have hs : h.Supplied (fun _ => Store.small.reply .six .eager) .fours :=
    .ofRun .fours _ (by decide +kernel) (by decide +kernel)
  have hbuf : ∃ q ∈ h.session.requests[0]?, q.buffer = #[1, 2, 3, 4, 5, 6, 0xee, 0xee] := by
    decide +kernel
  have hx : h.accepted[0]? = some .eight := by decide +kernel
  obtain ⟨q, l, hq, -, hone⟩ := hs.as_one FileTree.small_six hx
  obtain ⟨q', hq', hb⟩ := hbuf
  obtain rfl := Option.some.inj (hq.symm.trans hq')
  exact ⟨h, q, l, hs, by decide +kernel, by decide +kernel, hb, hone .eager⟩

end History

end RangeFetch
