import RangeFetch.Proofs.Admission
import RangeFetch.Proofs.Agreement

/-!
# The results of a run do not depend on its schedule

When what a transfer does is determined by its call, a run without a stop comes to the same results
in whatever order its steps are taken: those that can be told from the submissions and the chunk size
alone. The chunks of a request may be written in any order, as each has a slice of its own; they may
be reported in any order, as a request fails exactly when one of its chunks does; and a failure may
be pushed long before the other chunks end, as nothing of theirs is dropped.

Headlines:
* **`Submission.calls`**, `Submission.completion` and `Submission.result` are what a submission comes
  to: what is asked for, the event, and the content of the buffer.
* **`Ended.calls`**, **`Ended.events`** and **`Ended.buffers`**: every run that has ended has come to
  these.
* **`results_agree`**: two runs for the same submissions agree.
* `Reachable.can_go_on`: no run is stuck before its end.
-/

namespace RangeFetch

open Session (Action)

/-- The position `i` of the blob is asked for. -/
def TransferCall.Covers (c : TransferCall) (i : Nat) : Prop :=
  c.offset.toNat ≤ i ∧ i < c.offset.toNat + c.length

instance (c : TransferCall) (i : Nat) : Decidable (c.Covers i) :=
  inferInstanceAs (Decidable (_ ∧ _))

/-- What a transfer comes to: how it ends, and the byte that it leaves at each position of its
slice, if it writes there. -/
structure Effect where
  outcome : Outcome
  byte? : Nat → Option UInt8

/-! ## What a submission comes to -/

namespace Submission

/-- The calls for a submission, when chunks have `size` bytes. -/
def calls (size : UInt64) (x : Submission) : List TransferCall :=
  x.location?.elim [] fun l => (x.range.chunks size).map fun c => ⟨l, c.offset, c.length.toNat⟩

variable (effect : TransferCall → Effect) (size : UInt64) (x : Submission)

/-- The event of a submission. -/
def completion : Completion :=
  ⟨x.id, if ∀ c ∈ x.calls size, (effect c).outcome.Exact c.length then .success else .fileAccess⟩

/-- The byte that is read to position `i` of the buffer, if one is. -/
def byteAt? (i : Nat) : Option UInt8 :=
  let p := x.range.offset.toNat + i
  ((x.calls size).find? (·.Covers p)).bind fun c => (effect c).byte? (p - c.offset.toNat)

/-- The content of the buffer of a submission. -/
def result : Buffer :=
  x.buffer.mapIdx fun i b => (x.byteAt? effect size i).getD b

end Submission

namespace Request.Answers

variable {config : Config} {x : Submission} {q : Request}

theorem location?_eq (ha : q.Answers config x) : x.location? = some q.location := by
  rw [Submission.location?, ha.location_eq]
  exact if_pos ⟨ha.size_eq, ha.fits⟩

theorem calls_eq (ha : q.Answers config x) :
    x.calls config.chunkSize = (q.range.chunks config.chunkSize).map fun c =>
      ⟨q.location, c.offset, c.length.toNat⟩ := by
  rw [Submission.calls, ha.location?_eq, ha.range_eq]
  rfl

end Request.Answers

/-- The submissions among some steps. -/
def submissions (as : List Action) : List Submission :=
  as.filterMap fun
    | .submit x => some x
    | _ => none

/-- A list read off at its places. -/
theorem map_range_length {α β : Type} {l : List α} {f : α → β} {g : Nat → β}
    (hg : ∀ i a, l[i]? = some a → g i = f a) : (List.range l.length).map g = l.map f := by
  refine List.ext_getElem (by simp) fun i hi _ => ?_
  rw [List.getElem_map, List.getElem_map, List.getElem_range]
  exact hg i _ (List.getElem?_eq_getElem (by simpa using hi))

theorem filterMap_of_map {α β : Type} {l : List α} {m : List β} {f : α → Option β}
    (hf : l.map f = m.map some) : l.filterMap f = m := by
  rw [← Function.id_comp f, ← List.filterMap_map, hf, List.filterMap_map]
  exact List.filterMap_some

namespace History

variable {config config' : Config} {h k : History} {r t : Nat} {q : Request} {x : Submission}
  {effect : TransferCall → Effect}

/-! ## Which submissions are accepted -/

/-- A run that is not stopped at its end was not stopped before. -/
theorem Reachable.stopped_of_run (hr : h.Reachable config) {as : List Action} (hl : h.Legal as)
    (hst : (h.run as).session.stopped = false) : h.session.stopped = false := by
  by_contra hstop
  have hkeep := (Reaches.run (.refl h) hl).induct (P := (·.session.stopped = true)) hr
    (by simpa using hstop) fun _ _ hi hs => hs.stopped hi
  exact absurd (hst.symm.trans hkeep) (by simp)

/-- **A run that is not stopped accepts the submissions that are not malformed.** -/
theorem Reachable.accepted_run (hr : h.Reachable config) {as : List Action} (hl : h.Legal as)
    (hst : (h.run as).session.stopped = false) :
    (h.run as).accepted = h.accepted ++ (submissions as).filter (·.location?.isSome) := by
  induction as generalizing h with
  | nil => exact (List.append_nil _).symm
  | cons a as ih =>
    have hs : h.session.stopped = false := hr.stopped_of_run hl hst
    have hr' : (h.act a).Reachable config := hr.reaches (.step (.refl h) hl.1)
    have htail := ih hr' hl.2 hst
    have hact : (h.act a).accepted =
        h.accepted ++ (submissions [a]).filter (·.location?.isSome) := by
      cases a with
      | submit x =>
        have hx := Session.submit_eq h.session x
        rw [hs] at hx
        cases hloc : x.location? with
        | none =>
          rw [hloc] at hx
          simp [act, submissions, hloc, hx]
        | some l =>
          rw [hloc] at hx
          simp [act, submissions, hloc, hx]
      | launch | advance | write | finish | close | closing | take => exact rfl
    show ((h.act a).run as).accepted = _
    rw [htail, hact, List.append_assoc, ← List.filter_append]
    cases a with
    | submit | launch | advance | write | finish | close | closing | take => rfl

/-! ## Runs that have ended -/

/-- Each transfer that has ended came to what its call says. -/
def Determined (effect : TransferCall → Effect) (h : History) : Prop :=
  ∀ t call, h.session.callOf? t = some call → ∀ o, h.session.outcomeOf? t = some o →
    o = (effect call).outcome ∧ ∀ j < call.length, h.written t j = (effect call).byte? j

/-- The history of a session that was made with `config`, at its end: nobody stopped it, each
transfer came to what `effect` says, all chunks are through, and all completions are handed out. -/
structure Ended (effect : TransferCall → Effect) (config : Config) (h : History) : Prop where
  reachable : h.Reachable config
  running : h.session.stopped = false
  determined : h.Determined effect
  atEnd : h.session.AtEnd
  drained : h.session.queue.events = []

/-- No submitter of a session that is not stopped gives up. -/
theorem Reachable.launch_of_rest (hr : h.Reachable config) (hs : h.session.stopped = false)
    (hrest : h.session.AtRest) (hq : h.session.requests[r]? = some q) :
    q.launch = .answered .success := by
  obtain ⟨code, hl⟩ := hrest q (Array.mem_of_getElem? hq)
  have hn := hr.launches hq
  rw [Request.Launches, hl, hs] at hn
  cases code with
  | success => exact hl
  | finished | fileAccess | invalidParameter | unknown => exact absurd hn.2.2 (by simp)

namespace Ended

variable (he : h.Ended effect config)
include he

theorem launched (hq : h.session.requests[r]? = some q) : q.launched = q.pieces.size :=
  he.reachable.launched_eq hq (he.reachable.launch_of_rest he.running he.atEnd.rest hq)

/-- The tasks of a request make the calls of its submission, one each. -/
theorem map_callOf? (hx : h.accepted[r]? = some x) :
    (h.session.tasksOf r).map h.session.callOf? = (x.calls config.chunkSize).map some := by
  obtain ⟨q, hq, -⟩ := he.reachable.exists_request hx
  obtain ⟨y, hy, ha⟩ := he.reachable.answers hq
  obtain rfl := Option.some.inj (hx.symm.trans hy)
  rw [he.reachable.map_callOf? hq (he.launched hq), ha.calls_eq, List.map_map]
  rfl

/-- A task of a request makes one of the calls of its submission. -/
theorem mem_calls (hx : h.accepted[r]? = some x) {call : TransferCall} :
    call ∈ x.calls config.chunkSize ↔
      ∃ t ∈ h.session.tasksOf r, h.session.callOf? t = some call := by
  have hmem : some call ∈ (x.calls config.chunkSize).map some ↔
      call ∈ x.calls config.chunkSize := by simp
  rw [← hmem, ← he.map_callOf? hx, List.mem_map]

/-- Each transfer has ended. -/
theorem outcomeOf? {task : Task} (ht : h.session.tasks[t]? = some task) {call : TransferCall}
    (hc : h.session.callOf? t = some call) :
    task.phase.outcome? = some (effect call).outcome ∧
      ∀ j < call.length, h.written t j = (effect call).byte? j := by
  obtain ⟨o, ho⟩ := (he.atEnd.finished t task ht).reported.count?
  have hout := Phase.outcome?_of_count? ho
  obtain ⟨rfl, hw⟩ := he.determined t call hc o
    ((Session.outcomeOf?_of_getElem? ht).trans hout)
  exact ⟨hout, hw⟩

/-! ### Calls -/

/-- Every task was started. -/
theorem starts_perm : h.session.starts.toList.Perm
    ((List.range h.accepted.length).flatMap h.session.tasksOf) := by
  have hr := he.reachable
  have hnodup : h.session.starts.toList.Nodup := by
    simpa using hr.recorded.starts.nodup
  have hparts : ((List.range h.accepted.length).flatMap h.session.tasksOf).Nodup := by
    refine List.nodup_flatMap.mpr ⟨fun r _ => nodup_tasksOf _ r, ?_⟩
    refine List.nodup_range.imp fun {r r'} hne => ?_
    intro t ht ht'
    obtain ⟨task, htask, rfl⟩ := mem_tasksOf.mp ht
    obtain ⟨task', htask', rfl⟩ := mem_tasksOf.mp ht'
    obtain rfl := Option.some.inj (htask.symm.trans htask')
    exact hne rfl
  refine (List.perm_ext_iff_of_nodup hnodup hparts).mpr ?_
  intro t
  rw [hr.recorded.mem_starts, List.mem_flatMap]
  constructor
  · rintro ⟨task, ht, -⟩
    refine ⟨task.request, ?_, mem_tasksOf.mpr ⟨task, ht, rfl⟩⟩
    rw [List.mem_range, hr.orderly.length_accepted]
    exact hr.coherent.linked t task ht
  · rintro ⟨r, -, hm⟩
    obtain ⟨task, ht, -⟩ := mem_tasksOf.mp hm
    exact ⟨task, ht, (he.atEnd.finished t task ht).started⟩

/-- **The calls of a run** are those of its submissions. -/
theorem calls : (h.session.callsFrom 0).Perm
    (h.accepted.flatMap (·.calls config.chunkSize)) := by
  have hperm := he.starts_perm.filterMap h.session.callOf?
  rw [List.filterMap_flatMap] at hperm
  refine hperm.trans (List.Perm.of_eq ?_)
  rw [List.flatMap_def, List.flatMap_def]
  exact congrArg List.flatten (map_range_length fun r x hx => filterMap_of_map (he.map_callOf? hx))

/-! ### Events -/

/-- The transfer of every chunk was exact, or that of some was not. -/
theorem transferred_iff (hx : h.accepted[r]? = some x) :
    (∀ t ∈ h.session.tasksOf r, h.session.Transferred t) ↔
      ∀ c ∈ x.calls config.chunkSize, (effect c).outcome.Exact c.length := by
  obtain ⟨q, hq, -⟩ := he.reachable.exists_request hx
  have hcall {t : Nat} {task : Task} (ht : h.session.tasks[t]? = some task)
      (htr : task.request = r) : ∃ c, h.session.callOf? t = some c ∧
        c.length = task.piece.range.length.toNat ∧
        task.phase.outcome? = some (effect c).outcome :=
    have hc := he.reachable.callOf?_task hq ht htr
    ⟨_, hc, rfl, (he.outcomeOf? ht hc).1⟩
  constructor
  · intro hall c hc
    obtain ⟨t, hm, hct⟩ := (he.mem_calls hx).mp hc
    obtain ⟨task, ht, hout⟩ := hall t hm
    obtain ⟨task', ht', htr⟩ := mem_tasksOf.mp hm
    obtain rfl := Option.some.inj (ht.symm.trans ht')
    obtain ⟨c', hct', hlen, hout'⟩ := hcall ht htr
    obtain rfl := Option.some.inj (hct.symm.trans hct')
    rw [Outcome.Exact, hlen]
    exact Option.some.inj (hout'.symm.trans hout)
  · intro hall t hm
    obtain ⟨task, ht, htr⟩ := mem_tasksOf.mp hm
    obtain ⟨c, hct, hlen, hout⟩ := hcall ht htr
    have hexact := hall c ((he.mem_calls hx).mpr ⟨t, hm, hct⟩)
    rw [Outcome.Exact, hlen] at hexact
    exact ⟨task, ht, by rw [hout, hexact]⟩

/-- What is pushed for a request is the completion of its submission. -/
theorem event_eq {p : Push} (hp : p ∈ h.pushes) (hx : h.accepted[p.request]? = some x) :
    p.event = x.completion effect config.chunkSize := by
  have hr := he.reachable
  obtain ⟨q, hq, -⟩ := hr.exists_request hx
  obtain ⟨y, hy, ha⟩ := hr.answers hq
  obtain rfl := Option.some.inj (hx.symm.trans hy)
  have hm : p ∈ h.pushesOf p.request := mem_pushesOf.mpr ⟨hp, rfl⟩
  have hsucc := hr.success_iff hq (hr.launch_of_rest he.running he.atEnd.rest hq) hm
  rw [he.transferred_iff hx] at hsucc
  rw [Submission.completion, ← ha.id_eq]
  rcases hr.event_of_push hq hm with hev | hev
  · rw [if_pos (hsucc.mp (by rw [hev])), hev]
  · rw [if_neg fun hall => absurd (hsucc.mpr hall) (by rw [hev]; simp), hev]

/-- Every request has had its event. -/
theorem requests_perm : (h.pushes.map (·.request)).Perm (List.range h.accepted.length) := by
  have hr := he.reachable
  refine (List.perm_ext_iff_of_nodup hr.nodup_requests List.nodup_range).mpr ?_
  intro r
  rw [List.mem_range, hr.orderly.length_accepted]
  constructor
  · intro hm
    obtain ⟨p, hp, rfl⟩ := List.mem_map.mp hm
    exact hr.request_lt hp
  · intro hlt
    by_contra hm
    have hdue : r ∈ h.due := by
      rw [due, List.mem_filter, List.mem_range, decide_eq_true_eq]
      exact ⟨hlt, hm⟩
    have hnone := hr.due_eq_nil he.running he.atEnd.rest fun t ht =>
      ⟨_, Array.getElem?_eq_getElem ht,
        (he.atEnd.finished t _ (Array.getElem?_eq_getElem ht)).reported⟩
    rw [hnone] at hdue
    exact absurd hdue List.not_mem_nil

/-- **The events of a run** are those of its submissions. -/
theorem events : h.taken.Perm
    (h.accepted.map (·.completion effect config.chunkSize)) := by
  have hr := he.reachable
  let event (r : Nat) : Option Completion :=
    h.accepted[r]?.map (·.completion effect config.chunkSize)
  have htaken : h.taken.map some = (h.pushes.map (·.request)).map event := by
    have hall := hr.taken_append_events
    rw [he.drained, List.append_nil] at hall
    rw [hall, List.map_map, List.map_map]
    refine List.map_congr_left ?_
    intro p hp
    have hlt := hr.request_lt hp
    rw [← hr.orderly.length_accepted] at hlt
    have hx := List.getElem?_eq_getElem hlt
    simp only [Function.comp_apply, event, hx, Option.map_some, he.event_eq hp hx]
  have hperm : (h.taken.map some).Perm
      ((h.accepted.map (·.completion effect config.chunkSize)).map some) := by
    have hplaces : (List.range h.accepted.length).map event =
        (h.accepted.map (·.completion effect config.chunkSize)).map some := by
      rw [List.map_map]
      exact map_range_length fun r x hx => by simp [event, hx]
    rw [htaken, ← hplaces]
    exact he.requests_perm.map event
  simpa using hperm.filterMap id

/-! ### Buffers -/

/-- Every position of a buffer is in a call, which its task has left its byte for. -/
theorem getElem?_buffer (hx : h.accepted[r]? = some x) (hq : h.session.requests[r]? = some q)
    {i : Nat} {c : TransferCall} (hc : c ∈ x.calls config.chunkSize)
    (hci : c.Covers (x.range.offset.toNat + i)) :
    q.buffer[i]? =
      ((effect c).byte? (x.range.offset.toNat + i - c.offset.toNat)).or x.buffer[i]? := by
  have hr := he.reachable
  obtain ⟨y, hy, ha⟩ := hr.answers hq
  obtain rfl := Option.some.inj (hx.symm.trans hy)
  have hb : h.session.bufferOf? r = some q.buffer := by
    rw [Session.bufferOf?, hq, Option.map_some]
  obtain ⟨t, hm, hct⟩ := (he.mem_calls hx).mp hc
  obtain ⟨task, ht, htr⟩ := mem_tasksOf.mp hm
  obtain ⟨-, hlen, hoff, -⟩ := hr.laid_task hq ht htr
  obtain rfl := Option.some.inj ((hr.callOf?_task hq ht htr).symm.trans hct)
  obtain ⟨hle, hlt⟩ := hci
  rw [ha.range_eq] at hoff
  simp only at hle hlt ⊢
  obtain ⟨j, hj⟩ : ∃ j, j = x.range.offset.toNat + i - task.piece.range.offset.toNat := ⟨_, rfl⟩
  have hpos : i = task.piece.slice.start + j := by omega
  have hjlt : j < task.piece.slice.length := by omega
  have hslot : h.session.slot? t = some (r, task.piece.slice) :=
    Session.slot?_eq_some.mpr ⟨task, ht, htr, rfl⟩
  rw [← hj, ← (he.outcomeOf? ht hct).2 j (hlen ▸ hjlt), hpos]
  exact (hr.landed.holds r _ x hb hx).inside t _ hslot j hjlt

theorem exists_covers (hx : h.accepted[r]? = some x) (hq : h.session.requests[r]? = some q)
    {i : Nat} (hi : i < q.buffer.size) :
    ∃ c ∈ x.calls config.chunkSize, c.Covers (x.range.offset.toNat + i) := by
  have hr := he.reachable
  obtain ⟨y, hy, ha⟩ := hr.answers hq
  obtain rfl := Option.some.inj (hx.symm.trans hy)
  obtain ⟨t, task, ht, htr, hle, hlt⟩ := hr.exists_covers hq (he.launched hq) hi
  obtain ⟨-, hlen, hoff, -⟩ := hr.laid_task hq ht htr
  have hc := hr.callOf?_task hq ht htr
  refine ⟨_, (he.mem_calls hx).mpr ⟨t, mem_tasksOf.mpr ⟨task, ht, htr⟩, hc⟩, ?_⟩
  rw [ha.range_eq] at hoff
  constructor
  · show task.piece.range.offset.toNat ≤ x.range.offset.toNat + i
    omega
  · show x.range.offset.toNat + i <
      task.piece.range.offset.toNat + task.piece.range.length.toNat
    omega

/-- **The buffers of a run** have what is read into those of its submissions. -/
theorem buffers (r : Nat) : h.session.bufferOf? r =
    h.accepted[r]?.map (·.result effect config.chunkSize) := by
  have hr := he.reachable
  cases hx : h.accepted[r]? with
  | none =>
    have hle := List.getElem?_eq_none_iff.mp hx
    rw [hr.orderly.length_accepted] at hle
    rw [Session.bufferOf?, Array.getElem?_eq_none hle]
    rfl
  | some x =>
    obtain ⟨q, hq, -⟩ := hr.exists_request hx
    obtain ⟨y, hy, ha⟩ := hr.answers hq
    obtain rfl := Option.some.inj (hx.symm.trans hy)
    rw [Session.bufferOf?, hq, Option.map_some, Option.map_some, Option.some.injEq]
    refine Array.ext_getElem? fun i => ?_
    rw [Submission.result, Array.getElem?_mapIdx]
    by_cases hi : i < q.buffer.size
    · have hold := Array.getElem?_eq_getElem (ha.size_buffer ▸ hi)
      obtain ⟨c, hfind⟩ : ∃ c, (x.calls config.chunkSize).find?
          (·.Covers (x.range.offset.toNat + i)) = some c := by
        rw [← Option.isSome_iff_exists, List.find?_isSome]
        obtain ⟨c, hc, hci⟩ := he.exists_covers hx hq hi
        exact ⟨c, hc, by simpa using hci⟩
      have hc := List.mem_of_find?_eq_some hfind
      have hci : c.Covers (x.range.offset.toNat + i) := by simpa using List.find?_some hfind
      rw [he.getElem?_buffer hx hq hc hci, Submission.byteAt?, hfind, hold]
      simp only [Option.bind_some, Option.map_some]
      cases (effect c).byte? (x.range.offset.toNat + i - c.offset.toNat) <;> rfl
    · rw [Array.getElem?_eq_none (Nat.le_of_not_lt hi),
        Array.getElem?_eq_none (ha.size_buffer ▸ Nat.le_of_not_lt hi)]
      rfl

end Ended

/-! ## Two runs -/

/-- Two sessions have come to the same. -/
structure SameResults (h k : History) : Prop where
  buffers : ∀ r, h.session.bufferOf? r = k.session.bufferOf? r
  calls : (h.session.callsFrom 0).Perm (k.session.callsFrom 0)
  events : h.taken.Perm k.taken

/-- **The results of a run do not depend on its schedule.** Two sessions with the same chunk size are
given the same submissions. However many transfers either runs at once, and whatever the order of
their steps, they come to the same buffers, calls and events. -/
theorem results_agree (hsize : config.chunkSize = config'.chunkSize) {as bs : List Action}
    (hsame : submissions as = submissions bs) (hla : (new config).Legal as)
    (hlb : (new config').Legal bs) (ha : Ended effect config ((new config).run as))
    (hb : Ended effect config' ((new config').run bs)) :
    SameResults ((new config).run as) ((new config').run bs) := by
  have haccepted {config : Config} {as : List Action} (hl : (new config).Legal as)
      (he : Ended effect config ((new config).run as)) :
      ((new config).run as).accepted = (submissions as).filter (·.location?.isSome) := by
    obtain ⟨s₀, hs, -⟩ := he.reachable
    have hnew : (new config).Reachable config := ⟨s₀, hs, start_eq hs ▸ .refl _⟩
    exact hnew.accepted_run hl he.running
  have heq : ((new config).run as).accepted = ((new config').run bs).accepted := by
    rw [haccepted hla ha, haccepted hlb hb, hsame]
  refine ⟨fun r => ?_, ?_, ?_⟩
  · rw [ha.buffers, hb.buffers, heq, hsize]
  · have hcalls := ha.calls
    rw [heq, hsize] at hcalls
    exact hcalls.trans hb.calls.symm
  · have hevents := ha.events
    rw [heq, hsize] at hevents
    exact hevents.trans hb.events.symm

/-! ## The way to the end -/

/-- **No run is stuck before its end**: without a stop, a submitter, a task, a transfer or a caller
that takes a completion can go on until all chunks are through and all completions handed out. -/
theorem Reachable.can_go_on (hr : h.Reachable config) (hst : h.session.stopped = false)
    (hend : ¬ (h.session.AtEnd ∧ h.session.queue.events = [])) :
    (∃ r, h.session.Enabled (.launch r)) ∨ (∃ t, h.session.Enabled (.advance t)) ∨
      (∃ t, ∀ o, h.session.Enabled (.finish t o)) ∨
      ∃ e s, h.session.next? = some (e, s) ∧ e.isFinished = false := by
  by_contra hstuck
  simp only [not_or, not_exists] at hstuck
  obtain ⟨hlaunch, hadvance, hfinish, htake⟩ := hstuck
  have hrest : h.session.AtRest := by
    intro q hm
    obtain ⟨r, hq⟩ := Array.mem_iff_getElem?.mp hm
    by_contra hl
    exact hlaunch r ⟨q, hq, fun code hcode => hl ⟨code, hcode⟩⟩
  have htasks (t : Nat) (task : Task) (ht : h.session.tasks[t]? = some task) :
      ¬ Session.Phase.Moves task.phase ∧ task.phase ≠ .running :=
    ⟨fun hp => hadvance t ⟨task, ht, hp⟩, fun hp => hfinish t fun _ => ⟨task, ht, hp⟩⟩
  refine hend ⟨hr.atEnd hrest htasks, ?_⟩
  cases hev : h.session.queue.events with
  | nil => rfl
  | cons e es =>
    have hqueue : h.session.queue.stopped = false :=
      Bool.eq_false_iff.mpr fun hq => absurd (hr.balanced.stopped hq) (by simp [hst])
    have hsub : h.session.submitted = true := by
      by_contra hsub
      have hnone := hr.balanced.submitted (by simpa using hsub)
      have hpushed := hr.pushes_add_due
      have htaken := hr.taken_add_events
      rw [hev, List.length_cons] at htaken
      omega
    have hnext : h.session.next? = some (e, { h.session with
        queue := { h.session.queue with
          events := es, outstanding := h.session.queue.outstanding - 1 } }) := by
      simp [Session.next?, CompletionQueue.take?, hsub, hqueue, hev]
    exact absurd ⟨hnext, hr.delivered.isFinished_eq_false (hev ▸ List.mem_cons_self)⟩
      (htake e _)

end History

/-- What a transfer comes to that does what a reply says. -/
def Reply.effect (reply : Reply) : Effect :=
  ⟨reply.outcome, fun j => reply.bytes[j]?⟩

instance (s : Session) : Decidable s.AtEnd :=
  decidable_of_iff (s.AtRest ∧ ∀ task ∈ s.tasks, task.phase.Finished) <| by
    constructor
    · rintro ⟨hrest, hall⟩
      exact ⟨hrest, fun t task ht => hall task (Array.mem_of_getElem? ht)⟩
    · rintro ⟨hrest, hall⟩
      refine ⟨hrest, fun task hm => ?_⟩
      obtain ⟨t, ht⟩ := Array.mem_iff_getElem?.mp hm
      exact hall t task ht

namespace History

variable {config : Config} {h : History}

/-- Where the reply depends on the call only, so does what a transfer comes to. -/
theorem Supplied.determined {reply : TransferCall → Reply}
    (hs : h.Supplied (fun _ => reply) config) : h.Determined fun c => (reply c).effect := by
  intro t call hc o ho
  obtain ⟨hout, hbytes⟩ := (hs.replied t).ended call hc o ho
  exact ⟨hout, fun j _ => hbytes j⟩

end History

/-! ## Two small runs -/

/-- Chunks of four bytes, one of which may be transferred at a time. -/
def Config.foursInTurn : Config :=
  { Config.fours with maxConcurrency := 1, maxConcurrency_ne_zero := by decide }

/-- Writes sevens, but fails behind the first byte of what begins at the fourth position. -/
def TransferCall.sevens (call : TransferCall) : Reply :=
  if call.offset = 4 then { bytes := [9], outcome := .failed }
  else { bytes := List.replicate call.length 7, outcome := .returned call.length }

/-- Four bytes, which make one chunk. -/
def Submission.four : Submission :=
  ⟨2, "az://c/d", ⟨0, 4⟩, Buffer.filled 4 0xee⟩

namespace Session

/-- The transfer of task `t` does what `TransferCall.sevens` says, and the task reports. -/
def sevens (fails : Bool) (t : Nat) : List Action :=
  (if fails then [.write t 0 [9], .finish t .failed]
    else [.write t 0 [7, 7, 7, 7], .finish t (.returned 4)]) ++
      [.advance t, .advance t, .advance t]

/-- Eight bytes, whose second half fails first, and four bytes, which are submitted when the failure
is handed out. -/
def failFirst : List Action :=
  bothRun ++ sevens true 1 ++ [.take, .submit .four, .launch 1, .launch 1, .launch 1, .advance 2,
    .advance 2] ++ sevens false 2 ++ sevens false 0 ++ [.take]

/-- The same, one transfer after the other, where the chunk of the last submission is launched
first. -/
def failLast : List Action :=
  [.submit .eight, .submit .four, .launch 1, .launch 1, .launch 1, .launch 0, .launch 0, .launch 0,
    .launch 0, .launch 0, .launch 0, .advance 0, .advance 1, .advance 2, .advance 0] ++
    sevens false 0 ++ [.advance 1] ++ sevens false 1 ++ [.advance 2] ++ sevens true 2 ++
    [.take, .take]

end Session

namespace History

/-- The two runs come to the same, though their events come in different orders. -/
theorem results_agree_fours :
    SameResults ((new .fours).run Session.failFirst) ((new .foursInTurn).run Session.failLast) ∧
      ((new .fours).run Session.failFirst).taken = [⟨1, .fileAccess⟩, ⟨2, .success⟩] ∧
      ((new .foursInTurn).run Session.failLast).taken = [⟨2, .success⟩, ⟨1, .fileAccess⟩] ∧
      ((new .foursInTurn).run Session.failLast).session.bufferOf? 0 =
        some #[7, 7, 7, 7, 9, 0xee, 0xee, 0xee] := by
  have hla : (new .fours).Legal Session.failFirst := by decide +kernel
  have hlb : (new .foursInTurn).Legal Session.failLast := by decide +kernel
  have hsa : ((new .fours).run Session.failFirst).Supplied (fun _ => TransferCall.sevens) .fours :=
    .ofRun .fours _ (by decide +kernel) (by decide +kernel)
  have hsb : ((new .foursInTurn).run Session.failLast).Supplied (fun _ => TransferCall.sevens)
      .foursInTurn := .ofRun .foursInTurn _ (by decide +kernel) (by decide +kernel)
  have ha : Ended (fun c => c.sevens.effect) .fours ((new .fours).run Session.failFirst) :=
    ⟨hsa.reachable, by decide +kernel, hsa.determined, by decide +kernel, by decide +kernel⟩
  have hb : Ended (fun c => c.sevens.effect) .foursInTurn
      ((new .foursInTurn).run Session.failLast) :=
    ⟨hsb.reachable, by decide +kernel, hsb.determined, by decide +kernel, by decide +kernel⟩
  have hsize : Config.fours.chunkSize = Config.foursInTurn.chunkSize := rfl
  have hsame : submissions Session.failFirst = submissions Session.failLast := by decide +kernel
  exact ⟨results_agree hsize hsame hla hlb ha hb, by decide +kernel, by decide +kernel,
    by decide +kernel⟩

end History

end RangeFetch
