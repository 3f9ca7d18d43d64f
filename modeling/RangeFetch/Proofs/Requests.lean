import Mathlib.Data.List.Pairwise
import RangeFetch.Proofs.History

/-!
# What becomes of an accepted submission

A request keeps the identifier, location, range and pieces that it was registered with. Its
submitter launches the pieces one after the other, so that the tasks of a request, read in the order
of their launch, are the first pieces of it; it answers `success` when it has launched the last one,
and any other answer means that the session was stopped.

Headlines:
* **`Reachable.answers`**: every request is an accepted submission, cut into the chunks of its range.
* **`Reachable.piecesOf`**: the tasks of a request carry its first pieces, each once and in order;
  `Reachable.launches` says how far the submitter is.
* **`Reachable.laid_task`**, `Reachable.slices_disjoint` and `Reachable.exists_covers`: the tasks of a
  request have slices of its buffer as long as their chunks, of which no two overlap, and in the end
  they cover it.
-/

namespace RangeFetch

theorem getElem?_modify_eq_some {α : Type} {xs : Array α} {i j : Nat} {f : α → α} {b : α}
    (h : (xs.modify i f)[j]? = some b) : ∃ a, xs[j]? = some a ∧ b = if i = j then f a else a := by
  rw [Array.getElem?_modify] at h
  by_cases hij : i = j
  · rw [if_pos hij] at h
    obtain ⟨a, ha, rfl⟩ := Option.map_eq_some_iff.mp h
    exact ⟨a, ha, (if_pos hij).symm⟩
  · rw [if_neg hij] at h
    exact ⟨b, h, (if_neg hij).symm⟩

/-- What every element of an array has, and `f` keeps, they have after a modification by `f`. -/
theorem forall_modify {α : Type} {P : Nat → α → Prop} {xs : Array α} {i : Nat} {f : α → α}
    (h : ∀ j a, xs[j]? = some a → P j a) (hf : ∀ a, xs[i]? = some a → P i a → P i (f a)) :
    ∀ j b, (xs.modify i f)[j]? = some b → P j b := by
  intro j b hb
  obtain ⟨a, ha, rfl⟩ := getElem?_modify_eq_some hb
  split
  · rename_i hij
    subst hij
    exact hf a ha (h i a ha)
  · exact h j a ha

theorem forall_push {α : Type} {P : Nat → α → Prop} {xs : Array α} {x : α}
    (h : ∀ j a, xs[j]? = some a → P j a) (hx : P xs.size x) :
    ∀ j b, (xs.push x)[j]? = some b → P j b := by
  intro j b hb
  rw [Array.getElem?_push] at hb
  split at hb
  · rename_i hj
    obtain rfl := Option.some.inj hb
    exact hj ▸ hx
  · exact h j b hb

/-! ## Requests and submissions -/

/-- Request `q` is the submission `x`, admitted and cut into chunks. -/
structure Request.Answers (config : Config) (x : Submission) (q : Request) : Prop where
  id_eq : q.id = x.id
  location_eq : Location.ofUri x.path = .ok q.location
  range_eq : q.range = x.range
  fits : x.range.Fits
  size_eq : x.buffer.size = x.range.length.toNat
  size_buffer : q.buffer.size = x.buffer.size
  laid : Piece.Laid 0 x.range.offset.toNat 0 x.range.length.toNat q.pieces.toList
  chunks : q.pieces.toList.map Piece.range = x.range.chunks config.chunkSize

/-- How far the submitter of a request is: it has pieces left until it answers `success`, and only
a stop keeps it from launching them. -/
def Request.Launches (stopped : Bool) (q : Request) : Prop :=
  match q.launch with
  | .ready | .entered | .cleared => q.launched < q.pieces.size
  | .barred => q.launched < q.pieces.size ∧ stopped = true
  | .answered .success => q.launched = q.pieces.size
  | .answered c => c = .finished ∧ q.launched < q.pieces.size ∧ stopped = true

theorem Request.Launches.mono {stopped : Bool} {q : Request} (h : q.Launches stopped) :
    q.Launches true := by
  unfold Request.Launches at h ⊢
  split at h <;> simp_all

theorem Request.Launches.launched_le {stopped : Bool} {q : Request} (h : q.Launches stopped) :
    q.launched ≤ q.pieces.size := by
  unfold Request.Launches at h
  split at h <;> omega

namespace Request.Answers

variable {config : Config} {x : Submission} {q : Request}

theorem size_pieces (ha : q.Answers config x) :
    q.pieces.size = x.range.chunkCount config.chunkSize := by
  rw [← ByteRange.length_chunks, ← ha.chunks, List.length_map, Array.length_toList]

theorem pieces_pos (ha : q.Answers config x) : 0 < q.pieces.size := by
  rw [ha.size_pieces]
  exact ByteRange.chunkCount_pos ..

/-- A change of a request that keeps what it was registered with and how long its buffer is. -/
theorem congr {q' : Request} (ha : q.Answers config x) (hid : q'.id = q.id)
    (hl : q'.location = q.location) (hr : q'.range = q.range) (hp : q'.pieces = q.pieces)
    (hb : q'.buffer.size = q.buffer.size) : q'.Answers config x where
  id_eq := hid.trans ha.id_eq
  location_eq := hl ▸ ha.location_eq
  range_eq := hr.trans ha.range_eq
  fits := ha.fits
  size_eq := ha.size_eq
  size_buffer := hb.trans ha.size_buffer
  laid := hp ▸ ha.laid
  chunks := hp ▸ ha.chunks

end Request.Answers

/-- What counting a chunk changes of its request. -/
theorem tally_eq (q : Request) (length : Nat) (o : Outcome) :
    Session.tally q length o = { q with
      remaining := if o.Exact length then q.remaining - 1 else q.remaining
      failed := q.failed || !decide (o.Exact length) } := by
  unfold Session.tally
  by_cases hx : o.Exact length
  · simp [hx]
  · simp [hx]

theorem requests_modifyTask (s : Session) (t : Nat) (f : Task → Task) :
    (s.modifyTask t f).requests = s.requests := rfl

theorem requests_modifyRequest (s : Session) (r : Nat) (f : Request → Request) :
    (s.modifyRequest r f).requests = s.requests.modify r f := rfl

namespace History

variable {config : Config} {h k : History}

/-- The requests are the accepted submissions, in order. -/
structure Orderly (config : Config) (h : History) : Prop where
  config_eq : h.session.config = config
  length_accepted : h.accepted.length = h.session.requests.size
  answers : ∀ (r : Nat) (q : Request), h.session.requests[r]? = some q →
    ∃ x, h.accepted[r]? = some x ∧ q.Answers config x
  launches : ∀ (r : Nat) (q : Request), h.session.requests[r]? = some q →
    q.Launches h.session.stopped

theorem orderly_new (config : Config) : (new config).Orderly config where
  config_eq := rfl
  length_accepted := rfl
  answers := fun r q hq => absurd hq (by simp [new])
  launches := fun r q hq => absurd hq (by simp [new])

theorem Orderly.accept (hi : h.Orderly config) {x : Submission} {l : Location}
    {pieces : List Piece} (ha : h.session.accept x = .ok l)
    (hp : partition x.range h.session.config.chunkSize x.buffer.size = .ok pieces) :
    Request.Answers config x (.ofSubmission x l pieces) := by
  obtain ⟨hf, hb, hu, pieces', hp', hl, hc⟩ := partition_of_accept ha
  obtain rfl := Except.ok.inj (hp.symm.trans hp')
  rw [hi.config_eq] at hc
  exact ⟨rfl, hu, rfl, hf, hb, rfl, hl, hc⟩

/-- A step that changes one request, and nothing else that counts here. -/
theorem Orderly.modify (hi : h.Orderly config) {r : Nat} {q : Request} {f : Request → Request}
    (hq : h.session.requests[r]? = some q)
    (ha : ∀ x, q.Answers config x → (f q).Answers config x)
    (hl : q.Launches h.session.stopped → (f q).Launches h.session.stopped)
    (hc : k.session.config = h.session.config) (hs : k.session.stopped = h.session.stopped)
    (hk : k.accepted = h.accepted) (hr : k.session.requests = h.session.requests.modify r f) :
    k.Orderly config := by
  refine ⟨hc.trans hi.config_eq, ?_, ?_, ?_⟩
  · rw [hk, hr, Array.size_modify]
    exact hi.length_accepted
  · rw [hk, hr]
    refine forall_modify hi.answers ?_
    intro q' hq'
    obtain rfl := Option.some.inj (hq.symm.trans hq')
    exact fun ⟨x, hx, hqx⟩ => ⟨x, hx, ha x hqx⟩
  · rw [hs, hr]
    refine forall_modify hi.launches ?_
    intro q' hq'
    obtain rfl := Option.some.inj (hq.symm.trans hq')
    exact hl

theorem Orderly.step (hc : h.Coherent) (hi : h.Orderly config) (hs : Step h k) : k.Orderly config := by
  cases hs with
  | @accept x l pieces ha hp =>
    have hx := hi.accept ha hp
    refine ⟨hi.config_eq, ?_, forall_push (fun r q hq => ?_) ⟨x, ?_, hx⟩,
      forall_push hi.launches hx.pieces_pos⟩
    · simp [hi.length_accepted]
    · obtain ⟨y, hy, hay⟩ := hi.answers r q hq
      exact ⟨y, (List.getElem?_append_left (List.getElem?_eq_some_iff.mp hy).1).trans hy, hay⟩
    · rw [← hi.length_accepted]
      simp
  | enter hq hl =>
    refine hi.modify hq (fun x ha => ha.congr rfl rfl rfl rfl rfl) (fun hn => ?_) rfl rfl rfl
      (requests_modifyRequest ..)
    simpa only [Request.Launches, hl] using hn
  | look hq hl =>
    refine hi.modify hq (fun x ha => ha.congr rfl rfl rfl rfl rfl) (fun hn => ?_) rfl rfl rfl
      (requests_modifyRequest ..)
    rw [Request.Launches, hl] at hn
    cases hst : h.session.stopped with
    | true => exact ⟨hn, rfl⟩
    | false => exact hn
  | giveUp hq hl =>
    refine hi.modify hq (fun x ha => ha.congr rfl rfl rfl rfl rfl) (fun hn => ?_) rfl rfl rfl
      (requests_modifyRequest ..)
    rw [Request.Launches, hl] at hn
    exact ⟨rfl, hn⟩
  | @launch r q piece hq hl hp =>
    refine hi.modify hq (fun x ha => ha.congr rfl rfl rfl rfl rfl) (fun hn => ?_) rfl rfl rfl
      (requests_modifyRequest ..)
    rw [Request.Launches, hl] at hn
    by_cases hlast : q.launched + 1 < q.pieces.size
    · simpa only [Request.Launches, if_pos hlast] using hlast
    · simp only [Request.Launches, if_neg hlast]
      omega
  | @count t task o q length code faults ht hp hq =>
    refine hi.modify hq (fun x ha => ?_) (fun hn => ?_) rfl rfl rfl
      ((requests_modifyTask ..).trans (requests_modifyRequest ..))
    · rw [tally_eq]
      exact ha.congr rfl rfl rfl rfl rfl
    · rw [tally_eq]
      exact hn
  | @write t i bytes task ht hp hn =>
    have hq := Array.getElem?_eq_getElem (hc.linked t task ht)
    exact hi.modify hq (fun x ha => ha.congr rfl rfl rfl rfl (Buffer.size_write ..))
      (fun hn => hn) rfl rfl rfl (requests_modifyRequest ..)
  | raise hc hr =>
    exact ⟨hi.config_eq, hi.length_accepted, hi.answers, fun r q hq => (hi.launches r q hq).mono⟩
  | idle | grant | line | begin | push | pass | leave | finish | handOver | close | halt | drain
  | take =>
    exact ⟨hi.config_eq, hi.length_accepted, hi.answers, hi.launches⟩

theorem Reachable.orderly (hr : h.Reachable config) : h.Orderly config :=
  hr.induct (orderly_new config) fun hk _ hi hs => hi.step hk.coherent hs

theorem Reachable.config_eq (hr : h.Reachable config) : h.session.config = config :=
  hr.orderly.config_eq

/-- **Every request is an accepted submission.** -/
theorem Reachable.answers (hr : h.Reachable config) {r : Nat} {q : Request}
    (hq : h.session.requests[r]? = some q) :
    ∃ x, h.accepted[r]? = some x ∧ q.Answers config x :=
  hr.orderly.answers r q hq

theorem Reachable.launches (hr : h.Reachable config) {r : Nat} {q : Request}
    (hq : h.session.requests[r]? = some q) : q.Launches h.session.stopped :=
  hr.orderly.launches r q hq

end History

/-! ## The tasks of a request -/

/-- The pieces that the tasks of request `r` carry, in the order of their launch. -/
def Session.piecesOf (s : Session) (r : Nat) : List Piece :=
  (s.tasks.toList.filter (·.request = r)).map (·.piece)

theorem map_filter_modify {l : List Task} {t r : Nat} {p : Phase} :
    ((l.modify t ({ · with phase := p })).filter (·.request = r)).map (·.piece) =
      (l.filter (·.request = r)).map (·.piece) := by
  induction l generalizing t with
  | nil => simp
  | cons a l ih =>
    cases t with
    | zero =>
      by_cases ha : a.request = r
      · simp [ha]
      · simp [ha]
    | succ t =>
      by_cases ha : a.request = r
      · simp [ha, ih]
      · simp [ha, ih]

theorem piecesOf_modifyTask (s : Session) (t r : Nat) (p : Phase) :
    (s.modifyTask t ({ · with phase := p })).piecesOf r = s.piecesOf r := by
  unfold Session.piecesOf Session.modifyTask
  rw [Array.toList_modify, map_filter_modify]

theorem mem_piecesOf {s : Session} {r : Nat} {x : Piece} :
    x ∈ s.piecesOf r ↔
      ∃ (t : Nat) (task : Task), s.tasks[t]? = some task ∧ task.request = r ∧ task.piece = x := by
  unfold Session.piecesOf
  simp only [List.mem_map, List.mem_filter, decide_eq_true_eq, Array.mem_toList_iff]
  constructor
  · rintro ⟨task, ⟨hm, hr⟩, hx⟩
    obtain ⟨t, ht⟩ := Array.mem_iff_getElem?.mp hm
    exact ⟨t, task, ht, hr, hx⟩
  · rintro ⟨t, task, ht, hr, hx⟩
    exact ⟨task, ⟨Array.mem_of_getElem? ht, hr⟩, hx⟩

namespace History

variable {config : Config} {h k : History}

/-- The tasks of a request carry the pieces that were launched. -/
def Dealt (h : History) : Prop :=
  ∀ (r : Nat) (q : Request), h.session.requests[r]? = some q →
    h.session.piecesOf r = q.pieces.toList.take q.launched

/-- A step that changes requests, but neither their pieces nor how many are launched. -/
theorem Dealt.modify (hd : h.Dealt) {r : Nat} {f : Request → Request}
    (hr : k.session.requests = h.session.requests.modify r f)
    (ht : ∀ r, k.session.piecesOf r = h.session.piecesOf r)
    (hf : ∀ q, (f q).pieces = q.pieces ∧ (f q).launched = q.launched) : k.Dealt := by
  unfold Dealt
  rw [hr]
  simp only [ht]
  refine forall_modify hd ?_
  intro q _ hq
  rw [(hf q).1, (hf q).2]
  exact hq

theorem Dealt.step (hc : h.Coherent) (hd : h.Dealt) (hs : Step h k) : k.Dealt := by
  cases hs with
  | @accept x l pieces ha hp =>
    refine forall_push hd ?_
    have hnone : ∀ y, y ∉ h.session.piecesOf h.session.requests.size := by
      intro y hy
      obtain ⟨t, task, ht, hr, -⟩ := mem_piecesOf.mp hy
      exact absurd (hc.linked t task ht) (by omega)
    exact List.eq_nil_iff_forall_not_mem.mpr hnone
  | @launch r q piece hq hlaunch hp =>
    intro r' q' hq'
    have hnew : ∀ r', Session.piecesOf { h.session with
        tasks := h.session.tasks.push { request := r, piece } } r' =
          h.session.piecesOf r' ++ if r = r' then [piece] else [] := by
      intro r'
      unfold Session.piecesOf
      by_cases hr : r = r'
      · simp [List.filter_append, hr]
      · simp [List.filter_append, hr]
    obtain ⟨a, ha, rfl⟩ := getElem?_modify_eq_some hq'
    refine (hnew r').trans ?_
    rw [hd r' a ha]
    by_cases hr : r = r'
    · subst hr
      obtain rfl := Option.some.inj (hq.symm.trans ha)
      have hpiece : q.pieces.toList[q.launched]? = some piece := by
        rw [Array.getElem?_toList]
        exact hp
      simp only [if_true]
      rw [List.take_add_one, hpiece, Option.toList_some]
    · simp only [if_neg hr, List.append_nil]
  | enter | look | giveUp | write =>
    exact hd.modify (requests_modifyRequest ..) (fun _ => rfl) fun q => ⟨rfl, rfl⟩
  | count =>
    exact hd.modify ((requests_modifyTask ..).trans (requests_modifyRequest ..))
      (fun r => piecesOf_modifyTask ..) fun q => by rw [tally_eq]; exact ⟨rfl, rfl⟩
  | grant | line | begin | push | pass | leave | finish =>
    exact fun r q hq => (piecesOf_modifyTask ..).trans (hd r q hq)
  | handOver =>
    exact fun r q hq =>
      (piecesOf_modifyTask ..).trans ((piecesOf_modifyTask ..).trans (hd r q hq))
  | idle | close | raise | halt | drain | take => exact hd

/-- **The tasks of a request carry its first pieces**, each once and in order. -/
theorem Reachable.piecesOf (hr : h.Reachable config) {r : Nat} {q : Request}
    (hq : h.session.requests[r]? = some q) :
    h.session.piecesOf r = q.pieces.toList.take q.launched :=
  hr.induct (P := Dealt) (fun r q hq => absurd hq (by simp [new]))
    (fun hk _ hd hs => hd.step hk.coherent hs) r q hq

end History

/-- The piece that task `t` carries. -/
def Session.pieceOf? (s : Session) (t : Nat) : Option Piece :=
  s.tasks[t]?.map (·.piece)

theorem pieceOf?_of_getElem? {s : Session} {t : Nat} {task : Task}
    (ht : s.tasks[t]? = some task) : s.pieceOf? t = some task.piece := by
  rw [Session.pieceOf?, ht, Option.map_some]

/-- The tasks of request `r`, in the order of their launch. -/
def Session.tasksOf (s : Session) (r : Nat) : List Nat :=
  (List.range s.tasks.size).filter fun t => s.tasks[t]?.any (·.request = r)

theorem mem_tasksOf {s : Session} {r t : Nat} :
    t ∈ s.tasksOf r ↔ ∃ task, s.tasks[t]? = some task ∧ task.request = r := by
  unfold Session.tasksOf
  rw [List.mem_filter, List.mem_range]
  constructor
  · rintro ⟨ht, hr⟩
    rw [Array.getElem?_eq_getElem ht] at hr ⊢
    exact ⟨_, rfl, by simpa using hr⟩
  · rintro ⟨task, ht, hr⟩
    refine ⟨(Array.getElem?_eq_some_iff.mp ht).1, ?_⟩
    rw [ht]
    simpa using hr

theorem nodup_tasksOf (s : Session) (r : Nat) : (s.tasksOf r).Nodup :=
  List.nodup_range.filter _

/-- The elements of a list that have a property, read off at their places. -/
theorem map_filter_range {α β : Type} (l : List α) (p : α → Bool) (f : α → β) :
    ((List.range l.length).filter fun t => l[t]?.any p).map (fun t => l[t]?.map f) =
      ((l.filter p).map f).map some := by
  induction l with
  | nil => rfl
  | cons a l ih =>
    rw [List.length_cons, List.range_succ_eq_map, List.filter_cons, List.filter_map]
    by_cases ha : p a
    · simpa [ha, Function.comp_def] using ih
    · simpa [ha, Function.comp_def] using ih

theorem map_piece_tasksOf (s : Session) (r : Nat) :
    (s.tasksOf r).map s.pieceOf? = (s.piecesOf r).map some := by
  have hmap := map_filter_range s.tasks.toList (·.request = r) (·.piece)
  simp only [Array.length_toList, Array.getElem?_toList] at hmap
  exact hmap

theorem length_tasksOf (s : Session) (r : Nat) :
    (s.tasksOf r).length = (s.piecesOf r).length := by
  simpa only [List.length_map] using congrArg List.length (map_piece_tasksOf s r)

/-! ## Where the chunks of a request lie -/

namespace History

variable {config : Config} {h : History} {r : Nat} {q : Request}

theorem Reachable.length_tasksOf (hr : h.Reachable config)
    (hq : h.session.requests[r]? = some q) : (h.session.tasksOf r).length = q.launched := by
  rw [RangeFetch.length_tasksOf, hr.piecesOf hq, List.length_take, Array.length_toList]
  exact Nat.min_eq_left (hr.launches hq).launched_le

/-- A task has a piece of its request, and a slice of the request's buffer as long as the chunk. -/
theorem Reachable.laid_task (hr : h.Reachable config) (hq : h.session.requests[r]? = some q)
    {t : Nat} {task : Task} (ht : h.session.tasks[t]? = some task) (htr : task.request = r) :
    task.piece ∈ q.pieces.toList ∧ task.piece.slice.length = task.piece.range.length.toNat ∧
      task.piece.range.offset.toNat = q.range.offset.toNat + task.piece.slice.start ∧
      task.piece.slice.start + task.piece.slice.length ≤ q.buffer.size := by
  have hm : task.piece ∈ q.pieces.toList := by
    have hm := mem_piecesOf.mpr ⟨t, task, ht, htr, rfl⟩
    rw [hr.piecesOf hq] at hm
    exact List.mem_of_mem_take hm
  obtain ⟨x, -, ha⟩ := hr.answers hq
  obtain ⟨k, hk⟩ := List.mem_iff_getElem?.mp hm
  obtain ⟨-, hlen, hoff, -, hend⟩ := ha.laid.getElem? hk
  refine ⟨hm, hlen, ?_, ?_⟩
  · rw [ha.range_eq]
    exact hoff
  · rw [ha.size_buffer, ha.size_eq]
    exact hend

/-- Two tasks of one request have no position of the buffer in common. -/
theorem Reachable.slices_disjoint (hr : h.Reachable config)
    (hq : h.session.requests[r]? = some q) {t u : Nat} {a b : Task}
    (ht : h.session.tasks[t]? = some a) (hu : h.session.tasks[u]? = some b) (hne : t ≠ u)
    (har : a.request = r) (hbr : b.request = r) {p : Nat} (hp : a.piece.slice.Covers p) :
    ¬ b.piece.slice.Covers p := by
  let R (x y : Option Piece) : Prop := ∀ a ∈ x, ∀ b ∈ y, a.slice.Covers p → ¬ b.slice.Covers p
  have hsymm : Std.Symm fun t u => R (h.session.pieceOf? t) (h.session.pieceOf? u) :=
    ⟨fun _ _ hR a ha b hb hap hbp => hR b hb a ha hbp hap⟩
  have hpair : (h.session.tasksOf r).Pairwise fun t u =>
      R (h.session.pieceOf? t) (h.session.pieceOf? u) := by
    rw [← List.pairwise_map (R := R), map_piece_tasksOf, hr.piecesOf hq, List.pairwise_map]
    obtain ⟨x, -, ha⟩ := hr.answers hq
    refine (ha.laid.pairwise.sublist (List.take_sublist ..)).imp fun {x y} hxy => ?_
    rintro _ ⟨⟩ _ ⟨⟩ hx hy
    exact absurd (Nat.lt_of_lt_of_le hx.2 (Nat.le_trans hxy hy.1)) (Nat.lt_irrefl p)
  exact hpair.forall (mem_tasksOf.mpr ⟨a, ht, har⟩) (mem_tasksOf.mpr ⟨b, hu, hbr⟩) hne
    _ (pieceOf?_of_getElem? ht) _ (pieceOf?_of_getElem? hu) hp

/-- When all chunks are launched, every position of the buffer is in the slice of a task. -/
theorem Reachable.exists_covers (hr : h.Reachable config)
    (hq : h.session.requests[r]? = some q) (hall : q.launched = q.pieces.size) {p : Nat}
    (hp : p < q.buffer.size) :
    ∃ (t : Nat) (task : Task), h.session.tasks[t]? = some task ∧ task.request = r ∧
      task.piece.slice.Covers p := by
  obtain ⟨x, -, ha⟩ := hr.answers hq
  rw [ha.size_buffer, ha.size_eq] at hp
  obtain ⟨piece, hm, hc⟩ := ha.laid.exists_covers ⟨Nat.zero_le p, hp⟩
  have hpieces := hr.piecesOf hq
  rw [hall, ← Array.length_toList, List.take_length] at hpieces
  rw [← hpieces] at hm
  obtain ⟨t, task, ht, htr, rfl⟩ := mem_piecesOf.mp hm
  exact ⟨t, task, ht, htr, hc⟩

end History

end RangeFetch
