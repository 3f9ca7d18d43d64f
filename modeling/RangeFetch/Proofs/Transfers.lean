import RangeFetch.Proofs.Release

/-!
# What a success says of the buffer

A transfer writes into the slice of its task, and no other task of the request has a position of
that slice. The buffer of a request therefore is, position by position, what the transfer that owns
the position wrote there last, or what the caller left there (`Reachable.landed`).

Headlines:
* **`Reachable.calls_perm`**: each chunk of a range is asked for once.
* **`Reachable.filled`**: what holds of a request whose success was pushed.
-/

namespace RangeFetch

/-- The byte that the write puts at position `j` of the slice of task `t`. -/
def Write.byte? (w : Write) (t j : Nat) : Option UInt8 :=
  if w.task = t ∧ w.start ≤ j then w.bytes[j - w.start]? else none

theorem Write.byte?_of_ne {w : Write} {t : Nat} (h : w.task ≠ t) (j : Nat) : w.byte? t j = none :=
  if_neg fun hw => h hw.1

/-- What a write leaves at position `j` of a slice that starts at `start`. -/
theorem Write.getElem?_write (w : Write) {b : Buffer} {start j : Nat} (hj : start + j < b.size) :
    (b.write (start + w.start) w.bytes)[start + j]? = (w.byte? w.task j).or b[start + j]? := by
  have hsub : start + j - (start + w.start) = j - w.start := Nat.add_sub_add_left ..
  rw [Buffer.getElem?_write, byte?, hsub]
  by_cases hle : w.start ≤ j
  · have hown : w.task = w.task ∧ w.start ≤ j := ⟨rfl, hle⟩
    rw [if_pos hown]
    by_cases hlt : j - w.start < w.bytes.length
    · rw [if_pos (by omega), List.getElem?_eq_getElem hlt, Option.some_or]
    · rw [if_neg (by omega), List.getElem?_eq_none (Nat.le_of_not_lt hlt), Option.none_or]
  · rw [if_neg (by omega), if_neg (fun h => hle h.2), Option.none_or]

namespace Session

variable (s : Session)

/-- The request that task `t` belongs to, and its slice of that request's buffer. -/
def slot? (t : Nat) : Option (Nat × Slice) :=
  s.tasks[t]?.map fun task => (task.request, task.piece.slice)

/-- The buffer of request `r`. -/
def bufferOf? (r : Nat) : Option Buffer :=
  s.requests[r]?.map (·.buffer)

variable {s} {s' : Session}

theorem slot?_eq_some {t r : Nat} {a : Slice} :
    s.slot? t = some (r, a) ↔
      ∃ task, s.tasks[t]? = some task ∧ task.request = r ∧ task.piece.slice = a := by
  unfold slot?
  rw [Option.map_eq_some_iff]
  simp only [Prod.mk.injEq]

theorem slot?_modify {t : Nat} {p : Phase}
    (hk : s'.tasks = s.tasks.modify t ({ · with phase := p })) : s'.slot? = s.slot? := by
  funext u
  unfold slot?
  rw [hk, Array.getElem?_modify]
  split
  · rw [Option.map_map]
    rfl
  · rfl

theorem slot?_push {task : Task} (hk : s'.tasks = s.tasks.push task) (t : Nat) :
    s'.slot? t = if t = s.tasks.size then some (task.request, task.piece.slice) else s.slot? t := by
  unfold slot?
  rw [hk, Array.getElem?_push]
  split
  · rfl
  · rfl

theorem bufferOf?_modify {r : Nat} {f : Request → Request}
    (hk : s'.requests = s.requests.modify r f) (hf : ∀ q, (f q).buffer = q.buffer) :
    s'.bufferOf? = s.bufferOf? := by
  funext r'
  unfold bufferOf?
  rw [hk, Array.getElem?_modify]
  split
  · rw [Option.map_map]
    exact congrArg (Option.map · _) (funext hf)
  · rfl

end Session

namespace History

variable {config : Config} {h k : History} {r : Nat} {q : Request}

/-- The byte that the transfer of task `t` wrote last at position `j` of its slice. -/
def written (h : History) (t j : Nat) : Option UInt8 :=
  h.writes.foldl (fun b w => (w.byte? t j).or b) none

theorem written_snoc {w : Write} (hk : k.writes = h.writes ++ [w]) (t j : Nat) :
    k.written t j = (w.byte? t j).or (h.written t j) := by
  unfold written
  rw [hk, List.foldl_append, List.foldl_cons, List.foldl_nil]

/-- A task that wrote nothing has left no byte. -/
theorem written_eq_none {t : Nat} (hw : ∀ w ∈ h.writes, w.task ≠ t) (j : Nat) :
    h.written t j = none := by
  unfold written
  generalize h.writes = ws at hw
  induction ws with
  | nil => rfl
  | cons w ws ih =>
    obtain ⟨hne, hws⟩ := List.forall_mem_cons.mp hw
    rw [List.foldl_cons, Write.byte?_of_ne hne]
    exact ih hws

/-! ## The buffers -/

/-- Buffer `b` of request `r`, which the caller handed over as `b₀`, is what the transfers wrote. -/
structure Holds (h : History) (r : Nat) (b₀ b : Buffer) : Prop where
  inside : ∀ (t : Nat) (a : Slice), h.session.slot? t = some (r, a) → ∀ j, j < a.length →
    b[a.start + j]? = (h.written t j).or b₀[a.start + j]?
  outside : ∀ i, (∀ (t : Nat) (a : Slice), h.session.slot? t = some (r, a) → ¬ a.Covers i) →
    b[i]? = b₀[i]?

/-- Every buffer is what was written into it, each transfer within its slice. -/
structure Landed (h : History) : Prop where
  confined : ∀ w ∈ h.writes, ∃ r a, h.session.slot? w.task = some (r, a) ∧
    w.start + w.bytes.length ≤ a.length
  holds : ∀ (r : Nat) (b : Buffer) (x : Submission), h.session.bufferOf? r = some b →
    h.accepted[r]? = some x → h.Holds r x.buffer b

/-- A step that touches neither slices nor bytes. -/
theorem Landed.congr (hi : h.Landed) (hs : k.session.slot? = h.session.slot?)
    (hb : k.session.bufferOf? = h.session.bufferOf?) (ha : k.accepted = h.accepted)
    (hw : k.writes = h.writes) : k.Landed where
  confined := by rw [hw, hs]; exact hi.confined
  holds r b x hrb hx := by
    obtain ⟨hin, hout⟩ := hi.holds r b x (hb ▸ hrb) (ha ▸ hx)
    refine ⟨?_, ?_⟩
    · unfold written
      rw [hs, hw]
      exact hin
    · rw [hs]
      exact hout

/-- The slices of two tasks of one request have no position in common. -/
theorem Reachable.slots_disjoint (hr : h.Reachable config) {t u : Nat} {a b : Slice}
    (ht : h.session.slot? t = some (r, a)) (hu : h.session.slot? u = some (r, b)) (hne : t ≠ u)
    {i : Nat} (hi : a.Covers i) : ¬ b.Covers i := by
  obtain ⟨task, htask, htr, rfl⟩ := Session.slot?_eq_some.mp ht
  obtain ⟨task', htask', hur, rfl⟩ := Session.slot?_eq_some.mp hu
  have hlt := hr.coherent.linked t task htask
  rw [htr] at hlt
  exact hr.slices_disjoint (Array.getElem?_eq_getElem hlt) htask htask' hne htr hur hi

/-- A slice lies in the buffer of its request. -/
theorem Reachable.slot_le (hr : h.Reachable config) {t : Nat} {a : Slice} {b : Buffer}
    (ht : h.session.slot? t = some (r, a)) (hb : h.session.bufferOf? r = some b) :
    a.start + a.length ≤ b.size := by
  obtain ⟨task, htask, htr, rfl⟩ := Session.slot?_eq_some.mp ht
  obtain ⟨q, hq, rfl⟩ := Option.map_eq_some_iff.mp hb
  exact (hr.laid_task hq htask htr).2.2.2

/-- A new task takes over a slice that nobody wrote. -/
theorem Landed.launch (hi : h.Landed) (hk : k.Reachable config) {task : Task}
    (ht : k.session.tasks = h.session.tasks.push task)
    (hb : k.session.bufferOf? = h.session.bufferOf?) (ha : k.accepted = h.accepted)
    (hw : k.writes = h.writes) : k.Landed := by
  obtain ⟨t, hsize⟩ : ∃ t, t = h.session.tasks.size := ⟨_, rfl⟩
  have hnew : h.session.slot? t = none := by
    rw [Session.slot?, hsize, Array.getElem?_size, Option.map_none]
  have hs : ∀ u, k.session.slot? u =
      if u = t then some (task.request, task.piece.slice) else h.session.slot? u :=
    fun u => hsize ▸ Session.slot?_push ht u
  have hold : ∀ {u r a}, h.session.slot? u = some (r, a) → k.session.slot? u = some (r, a) := by
    intro u r a hu
    rw [hs, if_neg]
    · exact hu
    · rintro rfl
      rw [hnew] at hu
      exact absurd hu (by simp)
  have hunwritten : ∀ j, h.written t j = none := by
    refine written_eq_none ?_
    intro w hwm
    obtain ⟨r', a', hwt, -⟩ := hi.confined w hwm
    rintro rfl
    rw [hnew] at hwt
    exact absurd hwt (by simp)
  have hwritten : k.written = h.written := by
    funext u j
    unfold written
    rw [hw]
  constructor
  · intro w hwm
    obtain ⟨r', a', hwt, hle⟩ := hi.confined w (hw ▸ hwm)
    exact ⟨r', a', hold hwt, hle⟩
  · intro r' b x hrb hx
    obtain ⟨hin, hout⟩ := hi.holds r' b x (hb ▸ hrb) (ha ▸ hx)
    refine ⟨?_, fun i hi' => hout i fun u a' hu => hi' u a' (hold hu)⟩
    intro u a' hu j hj
    rw [hwritten]
    by_cases hut : u = t
    · subst hut
      rw [hunwritten, Option.none_or]
      -- the slices of the other tasks do not reach into the new one
      refine hout _ ?_
      intro v a'' hv hc
      refine hk.slots_disjoint (hold hv) hu ?_ hc ⟨Nat.le_add_right .., Nat.add_lt_add_left hj _⟩
      rintro rfl
      rw [hnew] at hv
      exact absurd hv (by simp)
    · rw [hs, if_neg hut] at hu
      exact hin u a' hu j hj

/-- A running transfer writes into its slice. -/
theorem Landed.write (hr : h.Reachable config) (hi : h.Landed) {t i : Nat} {a : Slice}
    {bytes : List UInt8} (ht : h.session.slot? t = some (r, a))
    (hle : i + bytes.length ≤ a.length) (hs : k.session.slot? = h.session.slot?)
    (hb : ∀ r', k.session.bufferOf? r' = if r' = r then
      (h.session.bufferOf? r).map (Buffer.write · (a.start + i) bytes) else h.session.bufferOf? r')
    (ha : k.accepted = h.accepted) (hw : k.writes = h.writes ++ [⟨t, i, bytes⟩]) : k.Landed := by
  have hother : ∀ u, u ≠ t → ∀ j, k.written u j = h.written u j := by
    intro u hu j
    rw [written_snoc hw, Write.byte?_of_ne (Ne.symm hu), Option.none_or]
  constructor
  · intro w hwm
    rw [hw] at hwm
    rw [hs]
    rcases List.mem_append.mp hwm with hwm | hwm
    · exact hi.confined w hwm
    · rw [List.mem_singleton.mp hwm]
      exact ⟨r, a, ht, hle⟩
  · intro r' b x hrb hx
    rw [hb] at hrb
    by_cases hrr : r' = r
    · subst hrr
      rw [if_pos rfl] at hrb
      obtain ⟨b', hb', rfl⟩ := Option.map_eq_some_iff.mp hrb
      obtain ⟨hin, hout⟩ := hi.holds r' b' x hb' (ha ▸ hx)
      have hend := hr.slot_le ht hb'
      -- the bytes go to the slice of `t`, so every other position is as it was
      have houtside : ∀ p, ¬ a.Covers p → (b'.write (a.start + i) bytes)[p]? = b'[p]? := by
        intro p hp
        rw [Buffer.getElem?_write, if_neg]
        rintro ⟨h1, h2, -⟩
        exact hp ⟨by omega, by omega⟩
      constructor
      · intro u a' hu j hj
        rw [hs] at hu
        by_cases hut : u = t
        · subst hut
          obtain ⟨-, rfl⟩ := Prod.mk.inj (Option.some.inj (ht.symm.trans hu))
          have hbyte := Write.getElem?_write ⟨u, i, bytes⟩ (show a.start + j < b'.size by omega)
          rw [written_snoc hw, Option.or_assoc, ← hin u a hu j hj]
          exact hbyte
        · rw [houtside, hother u hut, hin u a' hu j hj]
          exact hr.slots_disjoint hu ht hut ⟨Nat.le_add_right .., Nat.add_lt_add_left hj _⟩
      · intro p hp
        rw [hs] at hp
        rw [houtside p (hp t a ht), hout p hp]
    · rw [if_neg hrr] at hrb
      obtain ⟨hin, hout⟩ := hi.holds r' b x hrb (ha ▸ hx)
      refine ⟨?_, by rw [hs]; exact hout⟩
      intro u a' hu j hj
      rw [hs] at hu
      rw [hother u, hin u a' hu j hj]
      rintro rfl
      exact hrr (Prod.mk.inj (Option.some.inj (hu.symm.trans ht))).1

theorem Landed.step (hr : h.Reachable config) (hk : k.Reachable config) (hi : h.Landed)
    (hs : Step h k) : k.Landed := by
  cases hs with
  | idle => exact hi
  | close | raise | halt | drain | take => exact hi.congr rfl rfl rfl rfl
  | enter | look | giveUp =>
    exact hi.congr rfl (Session.bufferOf?_modify (requests_modifyRequest ..) fun _ => rfl) rfl rfl
  | grant | line | begin | push | pass | leave | finish =>
    exact hi.congr (Session.slot?_modify (tasks_modifyTask ..)) rfl rfl rfl
  | handOver =>
    exact hi.congr ((Session.slot?_modify (tasks_modifyTask ..)).trans
      (Session.slot?_modify (tasks_modifyTask ..))) rfl rfl rfl
  | @count t task o q length code faults =>
    refine hi.congr (Session.slot?_modify (tasks_modifyTask ..)) ?_ rfl rfl
    refine Session.bufferOf?_modify ((requests_modifyTask ..).trans (requests_modifyRequest ..))
      fun q => ?_
    rw [tally_eq q length o]
  | launch =>
    exact hi.launch hk rfl (Session.bufferOf?_modify (requests_modifyRequest ..) fun _ => rfl) rfl
      rfl
  | @write t i bytes task ht hp hn =>
    refine hi.write hr (Session.slot?_eq_some.mpr ⟨task, ht, rfl, rfl⟩) hn rfl (fun r' => ?_) rfl
      rfl
    unfold Session.bufferOf? Session.modifyRequest
    rw [Array.getElem?_modify]
    by_cases hr' : r' = task.request
    · subst hr'
      rw [if_pos rfl, if_pos rfl, Option.map_map, Option.map_map]
      rfl
    · rw [if_neg (Ne.symm hr'), if_neg hr']
  | @accept x l pieces ha hp =>
    refine ⟨hi.confined, ?_⟩
    intro r b y hb hy
    have hlen := hr.orderly.length_accepted
    by_cases hrs : r = h.session.requests.size
    · subst hrs
      have hxy : x = y := by
        rw [← hlen] at hy
        simpa using hy
      have hbx : x.buffer = b := by
        unfold Session.bufferOf? at hb
        simpa [Request.ofSubmission] using hb
      subst hxy hbx
      refine ⟨?_, fun i _ => rfl⟩
      intro t a ht
      obtain ⟨task, htask, htr, -⟩ := Session.slot?_eq_some.mp ht
      exact absurd (hr.coherent.linked t task htask) (by omega)
    · have hb' : h.session.bufferOf? r = some b := by
        unfold Session.bufferOf? at hb
        rwa [Array.getElem?_push, if_neg hrs] at hb
      obtain ⟨q, hq, -⟩ := Option.map_eq_some_iff.mp hb'
      have hlt := (Array.getElem?_eq_some_iff.mp hq).1
      rw [List.getElem?_append_left (hlen ▸ hlt)] at hy
      exact ⟨(hi.holds r b y hb' hy).inside, (hi.holds r b y hb' hy).outside⟩

/-- **Every buffer is what was written into it.** -/
theorem Reachable.landed (hr : h.Reachable config) : h.Landed :=
  hr.induct ⟨fun _ hw => absurd hw List.not_mem_nil, fun r b x hb => absurd hb (by
    simp [new, Session.bufferOf?])⟩ fun ha hb hi hs => hi.step ha hb hs

/-! ## The calls of a request -/

theorem Recorded.mem_starts (hi : h.Recorded) {t : Nat} :
    t ∈ h.session.starts.toList ↔ ∃ task, h.session.tasks[t]? = some task ∧ task.phase.Started := by
  rw [hi.starts.mem_iff, Session.view, Option.bind_eq_some_iff]
  refine exists_congr fun task => and_congr_right ?_
  intro _
  simp [Task.start?]

/-- What the tasks of a request ask for is what its pieces say. -/
theorem Reachable.map_callOf? (hr : h.Reachable config) (hq : h.session.requests[r]? = some q)
    (hall : q.launched = q.pieces.size) :
    (h.session.tasksOf r).map h.session.callOf? =
      (q.range.chunks config.chunkSize).map fun c =>
        some ⟨q.location, c.offset, c.length.toNat⟩ := by
  let call (x : Piece) : TransferCall := ⟨q.location, x.range.offset, x.slice.length⟩
  have hcall : (h.session.tasksOf r).map h.session.callOf? =
      ((h.session.tasksOf r).map h.session.pieceOf?).map (Option.map call) := by
    rw [List.map_map]
    refine List.map_congr_left ?_
    intro t ht
    obtain ⟨task, htask, htr⟩ := mem_tasksOf.mp ht
    simp [Session.callOf?, Session.pieceOf?, htask, htr, hq, call]
  obtain ⟨x, -, ha⟩ := hr.answers hq
  have hlen : ∀ y ∈ q.pieces.toList, y.slice.length = y.range.length.toNat := by
    intro y hy
    obtain ⟨n, hn⟩ := List.mem_iff_getElem?.mp hy
    exact (ha.laid.getElem? hn).2.1
  rw [hcall, map_piece_tasksOf, hr.piecesOf hq, hall, ← Array.length_toList, List.take_length,
    List.map_map, ha.range_eq, ← ha.chunks, List.map_map]
  refine List.map_congr_left ?_
  intro y hy
  simp [call, hlen y hy]

/-- **Each chunk was asked for once**, when all chunks of the request were started. -/
theorem Reachable.calls_perm (hr : h.Reachable config) (hq : h.session.requests[r]? = some q)
    (hall : q.launched = q.pieces.size)
    (hst : ∀ (t : Nat) (task : Task), h.session.tasks[t]? = some task → task.request = r →
      task.phase.Started) :
    ((h.session.starts.toList.filter (· ∈ h.session.tasksOf r)).map h.session.callOf?).Perm
      ((q.range.chunks config.chunkSize).map fun c =>
        some ⟨q.location, c.offset, c.length.toNat⟩) := by
  rw [← hr.map_callOf? hq hall]
  refine List.Perm.map _ ?_
  have hnodup : h.session.starts.toList.Nodup := by
    simpa using hr.recorded.starts.nodup
  refine (List.perm_ext_iff_of_nodup (hnodup.filter _) (nodup_tasksOf _ r)).mpr ?_
  intro t
  rw [List.mem_filter, decide_eq_true_eq, hr.recorded.mem_starts]
  refine ⟨And.right, fun ht => ⟨?_, ht⟩⟩
  obtain ⟨task, htask, htr⟩ := mem_tasksOf.mp ht
  exact ⟨task, htask, hst t task htask htr⟩

/-! ## Successes -/

/-- The range of request `r`, which was submitted as `x`, is in its buffer `b`. -/
structure Filled (config : Config) (h : History) (r : Nat) (x : Submission) (b : Buffer) :
    Prop where
  size : b.size = x.range.length.toNat
  /-- One call for each chunk, with the location, the offset and the length of the chunk. -/
  calls : ∃ l, Location.ofUri x.path = .ok l ∧
    ((h.session.starts.toList.filter (· ∈ h.session.tasksOf r)).map h.session.callOf?).Perm
      ((x.range.chunks config.chunkSize).map fun c => some ⟨l, c.offset, c.length.toNat⟩)
  /-- Every call has returned the length of its chunk. -/
  ended : ∀ t ∈ h.session.tasksOf r, h.session.Transferred t
  /-- No call wrote outside of its chunk. -/
  confined : ∀ w ∈ h.writes, ∀ task, h.session.tasks[w.task]? = some task →
    w.start + w.bytes.length ≤ task.piece.range.length.toNat
  /-- Every position belongs to one call, which has the byte of the range that goes there, and it is
  what that call wrote, if it did. -/
  owner : ∀ i, i < b.size → ∃ (t : Nat) (task : Task) (j : Nat),
    h.session.tasks[t]? = some task ∧ task.request = r ∧ i = task.piece.slice.start + j ∧
      j < task.piece.range.length.toNat ∧
      task.piece.range.offset.toNat + j = x.range.offset.toNat + i ∧
      b[i]? = (h.written t j).or x.buffer[i]? ∧
      ∀ u ∈ h.session.tasksOf r, ∀ y, h.session.pieceOf? u = some y → y.slice.Covers i → u = t
  /-- No later step changes the buffer. -/
  final : ∀ k, h.Reaches k → k.session.bufferOf? r = some b

/-- **A request that succeeded has its range in its buffer**, for good. -/
theorem Reachable.filled (hr : h.Reachable config) (hq : h.session.requests[r]? = some q)
    {p : Push} (hp : p ∈ h.pushesOf r) (hc : p.event.code = .success) :
    ∃ x, h.accepted[r]? = some x ∧ h.Filled config r x q.buffer := by
  have hl := hr.launch_of_success hq hp hc
  have hall := hr.launched_eq hq hl
  have hended := (hr.success_iff hq hl hp).mp hc
  obtain ⟨x, hx, ha⟩ := hr.answers hq
  have hb : h.session.bufferOf? r = some q.buffer := by
    rw [Session.bufferOf?, hq, Option.map_some]
  refine ⟨x, hx, ?_, ⟨q.location, ha.location_eq, ?_⟩, hended, fun w hw task ht => ?_,
    fun i hi => ?_, fun k hk => ?_⟩
  · rw [ha.size_buffer, ha.size_eq]
  · rw [← ha.range_eq]
    refine hr.calls_perm hq hall ?_
    intro t task ht htr
    obtain ⟨task', ht', ho⟩ := hended t (mem_tasksOf.mpr ⟨task, ht, htr⟩)
    obtain rfl := Option.some.inj (ht.symm.trans ht')
    exact Phase.started_of_outcome? ho
  · obtain ⟨r', a, hs, hle⟩ := hr.landed.confined w hw
    obtain ⟨task', ht', -, rfl⟩ := Session.slot?_eq_some.mp hs
    obtain rfl := Option.some.inj (ht.symm.trans ht')
    have hreq := Array.getElem?_eq_getElem (hr.coherent.linked _ task ht)
    rwa [(hr.laid_task hreq ht rfl).2.1] at hle
  · obtain ⟨t, task, ht, htr, hcov⟩ := hr.exists_covers hq hall hi
    obtain ⟨-, hlen, hoff, -⟩ := hr.laid_task hq ht htr
    obtain ⟨j, rfl⟩ := Nat.exists_eq_add_of_le hcov.1
    have hj : j < task.piece.slice.length := by
      have hlt := hcov.2
      omega
    refine ⟨t, task, j, ht, htr, rfl, hlen ▸ hj, ?_, ?_, ?_⟩
    · rw [ha.range_eq] at hoff
      omega
    · exact (hr.landed.holds r _ x hb hx).inside t _
        (Session.slot?_eq_some.mpr ⟨task, ht, htr, rfl⟩) j hj
    · intro u hu y hy hyc
      obtain ⟨task', ht', hur⟩ := mem_tasksOf.mp hu
      obtain rfl := Option.some.inj ((pieceOf?_of_getElem? ht').symm.trans hy)
      by_contra hne
      exact hr.slices_disjoint hq ht' ht hne hur htr hyc hcov
  · obtain ⟨q', hq', hbuf⟩ := (hr.kept (hr.settled_of_success hq hp hc) hq hk).buffer
    rw [Session.bufferOf?, hq', Option.map_some, hbuf]

/-- Two chunks transferred in the wrong order, of which the second is written backwards and the first
in one run. -/
theorem filled_of_two :
    ∃ h q p, Reachable .fours h ∧ h.session.requests[0]? = some q ∧ p ∈ h.pushesOf 0 ∧
      p.event.code = .success ∧ q.buffer = #[1, 2, 3, 4, 5, 6, 7, 8] ∧
      ∃ x, h.accepted[0]? = some x ∧ h.Filled .fours 0 x q.buffer := by
  let h := (new .fours).run (Session.bothRun ++
    [.write 1 2 [7, 8], .write 1 0 [5, 6], .finish 1 (.returned 4), .advance 1, .advance 1,
      .write 0 0 [1, 2, 3, 4], .finish 0 (.returned 4), .advance 0, .advance 0])
  have hr : Reachable .fours h := .ofRun .fours _ (by decide +kernel) (by decide +kernel)
  have hq : ∃ q ∈ h.session.requests[0]?, q.buffer = #[1, 2, 3, 4, 5, 6, 7, 8] := by
    decide +kernel
  have hp : ∃ p ∈ h.pushesOf 0, p.event.code = .success := by decide +kernel
  obtain ⟨q, hq, hb⟩ := hq
  obtain ⟨p, hp, hc⟩ := hp
  exact ⟨h, q, p, hr, hq, hp, hc, hb, hr.filled hq hp hc⟩

end History

end RangeFetch
