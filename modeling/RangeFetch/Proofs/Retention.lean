import RangeFetch.Proofs.Progress
import RangeFetch.Proofs.Transfers

/-!
# How long a buffer is in use

The buffer of a request is in use until the request is settled. A failure is pushed before that when
other chunks of the request have not ended: their transfers write into the buffer after the failure
was handed out.

Headlines:
* **`Reachable.kept_iff`**: a buffer stays as it is exactly when it is empty or its request is
  settled.
* **`Reachable.released_iff`**: what this means for the completions that were handed out.
-/

namespace RangeFetch

namespace History

variable {config : Config} {h k : History} {r : Nat} {q : Request}

/-! ## What stays -/

theorem Step.slot? (hs : Step h k) {t : Nat} {x : Nat × Slice}
    (ht : h.session.slot? t = some x) : k.session.slot? t = some x := by
  cases hs with
  | idle | accept | enter | look | giveUp | write | close | raise | halt | drain | take => exact ht
  | grant | line | begin | count | push | pass | leave | finish =>
    exact (congrFun (Session.slot?_modify (tasks_modifyTask ..)) t).trans ht
  | handOver =>
    exact (congrFun ((Session.slot?_modify (tasks_modifyTask ..)).trans
      (Session.slot?_modify (tasks_modifyTask ..))) t).trans ht
  | launch =>
    refine (Session.slot?_push rfl t).trans ?_
    rw [if_neg]
    · exact ht
    · rintro rfl
      rw [Session.slot?, Array.getElem?_size] at ht
      exact absurd ht (by simp)

/-- A task keeps its slice. -/
theorem Reachable.slot?_eq (hr : h.Reachable config) (hk : h.Reaches k) {t : Nat} {x : Nat × Slice}
    (ht : h.session.slot? t = some x) : k.session.slot? t = some x :=
  hk.induct hr ht fun _ _ hi hs => hs.slot? hi

theorem Reaches.accepted {x : Submission} (hk : h.Reaches k) (hx : h.accepted[r]? = some x) :
    k.accepted[r]? = some x := by
  induction hk with
  | refl => exact hx
  | step _ _ ih =>
    exact (List.getElem?_append_left (List.getElem?_eq_some_iff.mp ih).1).trans ih

/-- A buffer keeps its size. -/
theorem Reachable.size_bufferOf? (hr : h.Reachable config) (hk : h.Reaches k)
    (hq : h.session.requests[r]? = some q) :
    ∃ b, k.session.bufferOf? r = some b ∧ b.size = q.buffer.size := by
  obtain ⟨x, hx, ha⟩ := hr.answers hq
  have hx' := hk.accepted hx
  have hk' := hr.reaches hk
  have hlt : r < k.session.requests.size := by
    rw [← hk'.orderly.length_accepted]
    exact (List.getElem?_eq_some_iff.mp hx').1
  have hq' := Array.getElem?_eq_getElem hlt
  obtain ⟨y, hy, hb⟩ := hk'.answers hq'
  obtain rfl := Option.some.inj (hx'.symm.trans hy)
  refine ⟨_, by rw [Session.bufferOf?, hq', Option.map_some], ?_⟩
  rw [hb.size_buffer, ha.size_buffer]

/-! ## What a running transfer can do -/

/-- A task of a request whose buffer is not empty has a slice that is not empty. -/
theorem Reachable.slice_pos (hr : h.Reachable config) (hq : h.session.requests[r]? = some q)
    (hne : q.buffer.size ≠ 0) {t : Nat} {task : Task} (ht : h.session.tasks[t]? = some task)
    (htr : task.request = r) : 0 < task.piece.slice.length := by
  obtain ⟨x, -, ha⟩ := hr.answers hq
  obtain ⟨hm, hlen, -, -⟩ := hr.laid_task hq ht htr
  have hchunk : task.piece.range ∈ x.range.chunks config.chunkSize := by
    rw [← ha.chunks]
    exact List.mem_map_of_mem hm
  rw [hlen]
  refine ByteRange.length_pos_of_mem_chunks config.chunkSize_ne_zero ?_ hchunk
  rw [← ha.size_eq, ← ha.size_buffer]
  exact Nat.pos_of_ne_zero hne

theorem bufferOf?_act_write {t i : Nat} {bytes : List UInt8} {task : Task}
    (ht : h.session.tasks[t]? = some task) (hp : task.phase = .running)
    (hi : i + bytes.length ≤ task.piece.slice.length) :
    (h.act (.write t i bytes)).session.bufferOf? task.request =
      (h.session.bufferOf? task.request).map
        (Buffer.write · (task.piece.slice.start + i) bytes) := by
  have htake : bytes.take (task.piece.slice.length - i) = bytes :=
    List.take_of_length_le (by omega)
  have hact : (h.act (.write t i bytes)).session = h.session.modifyRequest task.request
      fun q => { q with buffer := q.buffer.write (task.piece.slice.start + i) bytes } := by
    simp [act, Session.act, Session.write, ht, hp, htake]
  rw [hact, Session.bufferOf?, requests_modifyRequest, Array.getElem?_modify, if_pos rfl,
    Option.map_map, Session.bufferOf?, Option.map_map]
  rfl

/-- A running transfer can make the buffer differ from any other. -/
theorem Reachable.exists_change (hr : h.Reachable config) {t : Nat} {a : Slice}
    (hrun : h.session.phaseOf? t = some .running) (ht : h.session.slot? t = some (r, a))
    (hpos : 0 < a.length) (b : Buffer) :
    ∃ k, h.Reaches k ∧ k.session.bufferOf? r ≠ some b := by
  by_cases hb : h.session.bufferOf? r = some b
  · obtain ⟨task, htask, hp⟩ := Option.map_eq_some_iff.mp hrun
    obtain ⟨task', htask', rfl, rfl⟩ := Session.slot?_eq_some.mp ht
    obtain rfl := Option.some.inj (htask.symm.trans htask')
    have hlt : task.piece.slice.start < b.size := by
      have hle := hr.slot_le ht hb
      omega
    have hle : 0 + [b[task.piece.slice.start] + 1].length ≤ task.piece.slice.length := by
      rw [List.length_singleton]
      exact hpos
    refine ⟨h.act (.write t 0 [b[task.piece.slice.start] + 1]),
      .step (.refl h) ⟨task, htask, hp, hle⟩, fun hsame => ?_⟩
    rw [bufferOf?_act_write htask hp hle, hb, Option.map_some, Option.some.injEq] at hsame
    have hbyte := congrArg (·[task.piece.slice.start]?) hsame
    simp [Buffer.write, hlt] at hbyte
  · exact ⟨h, .refl h, hb⟩

/-- Some task of a request that is not settled can come to run. -/
theorem Reachable.exists_running_of_unsettled (hr : h.Reachable config)
    (hq : h.session.requests[r]? = some q) (hs : ¬ h.session.Settled r) :
    ∃ k, h.Reaches k ∧ ∃ t, k.session.phaseOf? t = some .running ∧
      ∃ a, k.session.slot? t = some (r, a) := by
  have hunended : ∃ k, h.Reaches k ∧ ∃ (t : Nat) (task : Task),
      k.session.tasks[t]? = some task ∧ task.request = r ∧ ¬ task.phase.Ended := by
    by_cases hm : q.MayLaunch h.session.stopped
    · obtain ⟨k, hk, t, task, ht, htr, hp⟩ := hr.exists_launched hq hm
      exact ⟨k, hk, t, task, ht, htr, by rw [hp]; exact id⟩
    · by_contra hall
      refine hs ⟨?_, ?_⟩
      · intro q' hq'
        obtain rfl := Option.some.inj (hq.symm.trans hq')
        exact hm
      · intro t task ht htr
        by_contra hp
        exact hall ⟨h, .refl h, t, task, ht, htr, hp⟩
  obtain ⟨k, hk, t, task, ht, htr, hp⟩ := hunended
  obtain ⟨m, hm, hrun⟩ := (hr.reaches hk).exists_running ht hp
  have hslot : k.session.slot? t = some (r, task.piece.slice) :=
    Session.slot?_eq_some.mpr ⟨task, ht, htr, rfl⟩
  exact ⟨m, hk.trans hm, t, hrun, _, (hr.reaches hk).slot?_eq hm hslot⟩

/-- **A buffer stays as it is exactly when it is empty or its request is settled.** -/
theorem Reachable.kept_iff (hr : h.Reachable config) (hq : h.session.requests[r]? = some q) :
    (∀ k, h.Reaches k → k.session.bufferOf? r = some q.buffer) ↔
      q.buffer.size = 0 ∨ h.session.Settled r := by
  constructor
  · intro hkept
    by_contra hno
    obtain ⟨hne, hs⟩ := not_or.mp hno
    obtain ⟨k, hk, t, hrun, a, ht⟩ := hr.exists_running_of_unsettled hq hs
    have hk' := hr.reaches hk
    obtain ⟨task, htask, htr, rfl⟩ := Session.slot?_eq_some.mp ht
    obtain ⟨q', hq', hb⟩ := Option.map_eq_some_iff.mp (hkept k hk)
    have hpos := hk'.slice_pos hq' (by rw [hb]; exact hne) htask htr
    obtain ⟨m, hm, hchange⟩ := hk'.exists_change hrun ht hpos q.buffer
    exact hchange (hkept m (hk.trans hm))
  · rintro (hempty | hs) k hk
    · obtain ⟨b, hb, hsize⟩ := hr.size_bufferOf? hk hq
      rw [hb, Array.eq_empty_of_size_eq_zero hempty,
        Array.eq_empty_of_size_eq_zero (hsize.trans hempty)]
    · obtain ⟨q', hq', hb⟩ := (hr.kept hs hq hk).buffer
      rw [Session.bufferOf?, hq', Option.map_some, hb]

/-! ## Completions that were handed out -/

/-- The pushes whose completions were handed out. -/
def handed (h : History) : List Push :=
  h.pushes.take h.taken.length

/-- **When the hand-out of its completion releases a buffer**: the completion is a success, or the
buffer is empty, or every launched chunk has ended and no more are launched. Otherwise some run goes
on to change the buffer. -/
theorem Reachable.released_iff (hr : h.Reachable config) {p : Push} (hp : p ∈ h.handed) :
    ∃ q, h.session.requests[p.request]? = some q ∧ p.event.id = q.id ∧
      ((∀ s, h.session.Reaches s → s.bufferOf? p.request = some q.buffer) ↔
        p.event.code = .success ∨ q.buffer.size = 0 ∨ h.session.Settled p.request) := by
  have hm : p ∈ h.pushes := List.mem_of_mem_take hp
  obtain ⟨task, ht, hreq, hid, -⟩ := hr.recorded.mem_pushes.mp hm
  obtain ⟨q, hq, hid⟩ := Option.map_eq_some_iff.mp hid
  rw [← hreq] at hq
  have hsessions : (∀ s, h.session.Reaches s → s.bufferOf? p.request = some q.buffer) ↔
      ∀ k, h.Reaches k → k.session.bufferOf? p.request = some q.buffer := by
    refine ⟨fun hall k hk => hall _ hk.session, ?_⟩
    intro hall s hs
    obtain ⟨k, hk, rfl⟩ := Reaches.lift hs
    exact hall k hk
  refine ⟨q, hq, hid.symm, ?_⟩
  rw [hsessions, hr.kept_iff hq]
  refine ⟨Or.inr, fun h => h.elim (fun hc => Or.inr ?_) id⟩
  exact hr.settled_of_success hq (mem_pushesOf.mpr ⟨hm, rfl⟩) hc

/-- A success was handed out, and the buffer stays as it was transferred. -/
theorem released_of_success :
    ∃ h p, Reachable .fours h ∧ p ∈ h.handed ∧
      ∀ s, h.session.Reaches s → s.bufferOf? p.request = some #[1, 2, 3, 4, 5, 6, 7, 8] := by
  let h := (new .fours).run (Session.bothRun ++
    [.write 0 0 [1, 2, 3, 4], .finish 0 (.returned 4), .advance 0, .advance 0,
      .write 1 0 [5, 6, 7, 8], .finish 1 (.returned 4), .advance 1, .advance 1, .take])
  have hr : Reachable .fours h := .ofRun .fours _ (by decide +kernel) (by decide +kernel)
  have hp : ∃ p ∈ h.handed, p.event.code = .success ∧
      h.session.bufferOf? p.request = some #[1, 2, 3, 4, 5, 6, 7, 8] := by decide +kernel
  obtain ⟨p, hp, hc, hb⟩ := hp
  obtain ⟨q, hq, -, hiff⟩ := hr.released_iff hp
  rw [Session.bufferOf?, hq, Option.map_some] at hb
  exact ⟨h, p, hr, hp, hb ▸ hiff.mpr (Or.inl hc)⟩

/-- A failure was handed out while the transfer of the other chunk runs, which then writes four bytes
into the buffer. -/
theorem write_after_failure :
    ∃ h k, Reachable .fours h ∧ h.Reaches k ∧
      (∃ p ∈ h.handed, p.request = 0 ∧ p.event = ⟨1, .fileAccess⟩) ∧
      h.session.bufferOf? 0 = some (Buffer.filled 8 0xee) ∧
      k.session.bufferOf? 0 =
        some #[0x07, 0x26, 0x45, 0x64, 0xee, 0xee, 0xee, 0xee] := by
  let h := (new .fours).run
    (Session.bothRun ++ [.finish 1 .failed, .advance 1, .advance 1, .take])
  have hr : Reachable .fours h := .ofRun .fours _ (by decide +kernel) (by decide +kernel)
  have hk : h.Reaches (h.run [.write 0 0 [0x07, 0x26, 0x45, 0x64], .finish 0 (.returned 4)]) :=
    .run (.refl h) (by decide +kernel)
  exact ⟨h, _, hr, hk, by decide +kernel⟩

end History

end RangeFetch
