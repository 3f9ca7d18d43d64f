import RangeFetch.Proofs.Requests

/-!
# The records agree with the session

A history records a transfer when it is started, a chunk when it is counted and a completion when it
is pushed, and the phase of a task says which of these it has behind it. Each record holds what its
task left, once.

Headlines:
* **`Reachable.recorded`**: the started transfers, the reports and the pushes are those that the
  phases of the tasks show, each task at most once in each.
* **`Reachable.taken_append_events`**: what was pushed is handed out or still queued, in order.
-/

namespace RangeFetch

/-! ## What a phase shows -/

namespace Phase

/-- The task has made its call. -/
def Started : Phase → Prop
  | .running | .ended _ | .counted .. | .reported .. | .finished .. => True
  | .launched | .waiting | .granted => False

instance : DecidablePred Started := fun p => by
  cases p <;> unfold Started <;> infer_instance

/-- How the transfer ended. -/
def outcome? : Phase → Option Outcome
  | .ended o | .counted o _ | .reported o _ | .finished o _ => some o
  | .launched | .waiting | .granted | .running => none

/-- What the chunk was counted with: the outcome, and the code that has to be pushed. -/
def count? : Phase → Option (Outcome × Option Code)
  | .counted o code | .reported o code | .finished o code => some (o, code)
  | .launched | .waiting | .granted | .running | .ended _ => none

/-- The chunk has reported: what it had to push is pushed. -/
def Reported : Phase → Prop
  | .reported .. | .finished .. => True
  | .launched | .waiting | .granted | .running | .ended _ | .counted .. => False

instance : DecidablePred Reported := fun p => by
  cases p <;> unfold Reported <;> infer_instance

/-- The code that was pushed. -/
def pushed? : Phase → Option Code
  | .reported _ code | .finished _ code => code
  | .launched | .waiting | .granted | .running | .ended _ | .counted .. => none

theorem started_of_outcome? {p : Phase} {o : Outcome} (h : p.outcome? = some o) : p.Started := by
  cases p with
  | ended | counted | reported | finished => trivial
  | launched | waiting | granted | running => exact absurd h (by simp [outcome?])

theorem outcome?_of_count? {p : Phase} {o : Outcome} {code : Option Code}
    (h : p.count? = some (o, code)) : p.outcome? = some o := by
  cases p <;> simp_all [count?, outcome?]

theorem count?_of_pushed? {p : Phase} {c : Code} (h : p.pushed? = some c) :
    ∃ o, p.count? = some (o, some c) := by
  cases p <;> simp_all [pushed?, count?]

theorem Reported.count? {p : Phase} (h : p.Reported) :
    ∃ o, p.count? = some (o, p.pushed?) := by
  cases p with
  | reported o code => exact ⟨o, rfl⟩
  | finished o code => exact ⟨o, rfl⟩
  | launched | waiting | granted | running | ended | counted => exact absurd h id

/-- Two phases that leave the same records. -/
def Alike (p p' : Phase) : Prop :=
  (p'.Started ↔ p.Started) ∧ p'.count? = p.count? ∧ p'.pushed? = p.pushed?

end Phase

/-! ## What a task leaves -/

namespace Task

/-- Task `t`, if its transfer was started. -/
def start? (t : Nat) (task : Task) : Option Nat :=
  if task.phase.Started then some t else none

/-- The report of task `t`. -/
def report? (t : Nat) (task : Task) : Option Report :=
  task.phase.count?.map fun (o, code) =>
    ⟨t, task.request, task.piece.range.length.toNat, o, code⟩

/-- What task `t` pushed, where `ids` has the names of the requests. -/
def push? (ids : Nat → Option UInt64) (t : Nat) (task : Task) : Option Push :=
  task.phase.pushed?.bind fun c => (ids task.request).map fun id => ⟨t, task.request, ⟨id, c⟩⟩

end Task

namespace Session

variable (s : Session)

/-- What is said of task `t`. -/
def view {β : Type} (look : Nat → Task → Option β) (t : Nat) : Option β :=
  s.tasks[t]?.bind (look t)

/-- The caller's name for request `r`. -/
def idOf? (r : Nat) : Option UInt64 :=
  s.requests[r]?.map (·.id)

variable {s} {s' : Session} {β : Type} {look : Nat → Task → Option β} {t u : Nat} {task : Task}
  {p : Phase}

theorem view_of_getElem? (ht : s.tasks[t]? = some task) : s.view look t = look t task := by
  rw [view, ht, Option.bind_some]

theorem view_modify (hk : s'.tasks = s.tasks.modify t ({ · with phase := p }))
    (ht : s.tasks[t]? = some task) :
    s'.view look u = if u = t then look t { task with phase := p } else s.view look u := by
  unfold view
  rw [hk, Array.getElem?_modify]
  by_cases hu : u = t
  · subst hu
    rw [if_pos rfl, if_pos rfl, ht]
    rfl
  · rw [if_neg (Ne.symm hu), if_neg hu]

theorem view_modify_same (hk : s'.tasks = s.tasks.modify t ({ · with phase := p }))
    (ht : s.tasks[t]? = some task) (hl : look t { task with phase := p } = look t task) :
    s'.view look u = s.view look u := by
  rw [view_modify hk ht]
  by_cases hu : u = t
  · subst hu
    rw [if_pos rfl, hl, view_of_getElem? ht]
  · rw [if_neg hu]

theorem view_push (hk : s'.tasks = s.tasks.push task) (hl : look s.tasks.size task = none) :
    s'.view look u = s.view look u := by
  unfold view
  rw [hk, Array.getElem?_push]
  by_cases hu : u = s.tasks.size
  · subst hu
    rw [if_pos rfl, Array.getElem?_size]
    exact hl
  · rw [if_neg hu]

theorem idOf?_modify {r : Nat} {f : Request → Request}
    (hk : s'.requests = s.requests.modify r f) (hf : ∀ q, (f q).id = q.id) :
    s'.idOf? = s.idOf? := by
  funext r'
  unfold idOf?
  rw [hk, Array.getElem?_modify]
  split
  · rw [Option.map_map]
    exact congrArg (Option.map · _) (funext hf)
  · rfl

theorem idOf?_tally (s : Session) (r t length : Nat) (o : Outcome) (f : Task → Task) :
    ((s.modifyRequest r (tally · length o)).modifyTask t f).idOf? = s.idOf? :=
  idOf?_modify ((requests_modifyTask ..).trans (requests_modifyRequest ..)) fun q => by
    rw [tally_eq q length o]

/-- The tasks of two sessions leave the same records. -/
structure Alike (s s' : Session) : Prop where
  starts : ∀ t, s'.view Task.start? t = s.view Task.start? t
  reports : ∀ t, s'.view Task.report? t = s.view Task.report? t
  pushes : ∀ t, s'.view (Task.push? s'.idOf?) t = s.view (Task.push? s.idOf?) t

theorem Alike.trans {s₀ : Session} (h : Alike s₀ s) (h' : Alike s s') : Alike s₀ s' where
  starts t := (h'.starts t).trans (h.starts t)
  reports t := (h'.reports t).trans (h.reports t)
  pushes t := (h'.pushes t).trans (h.pushes t)

/-- The same tasks, and their requests keep their names. -/
theorem Alike.of_tasks (hk : s'.tasks = s.tasks)
    (hid : ∀ (t : Nat) (task : Task), s.tasks[t]? = some task →
      s'.idOf? task.request = s.idOf? task.request) : Alike s s' := by
  refine ⟨fun t => by rw [view, view, hk], fun t => by rw [view, view, hk], ?_⟩
  intro t
  rw [view, view, hk]
  cases ht : s.tasks[t]? with
  | none => rfl
  | some task => simp only [Option.bind_some, Task.push?, hid t task ht]

theorem Alike.of_requests {r : Nat} {f : Request → Request}
    (hk : s'.requests = s.requests.modify r f) (ht : s'.tasks = s.tasks)
    (hf : ∀ q, (f q).id = q.id) : Alike s s' :=
  .of_tasks ht fun _ _ _ => congrFun (idOf?_modify hk hf) _

/-- A new task has left nothing. -/
theorem Alike.of_push (hk : s'.tasks = s.tasks.push task) (hp : task.phase = .launched)
    (hid : s'.idOf? = s.idOf?) : Alike s s' := by
  refine ⟨fun t => view_push hk ?_, fun t => view_push hk ?_, ?_⟩
  · rw [Task.start?, hp]
    rfl
  · rw [Task.report?, hp]
    rfl
  · intro t
    rw [hid]
    refine view_push hk ?_
    rw [Task.push?, hp]
    rfl

/-- A task moves on and leaves nothing. -/
theorem Alike.of_modify (hk : s'.tasks = s.tasks.modify t ({ · with phase := p }))
    (ht : s.tasks[t]? = some task) (hp : task.phase.Alike p) (hid : s'.idOf? = s.idOf?) :
    Alike s s' := by
  obtain ⟨hs, hc, hpush⟩ := hp
  refine ⟨fun u => view_modify_same hk ht ?_, fun u => view_modify_same hk ht ?_, ?_⟩
  · simp only [Task.start?, hs]
  · simp only [Task.report?, hc]
  · intro u
    rw [hid]
    refine view_modify_same hk ht ?_
    simp only [Task.push?, hpush]

end Session

/-! ## Records -/

/-- The list holds what the keys show, once each. -/
structure Records {α : Type} (l : List α) (key : α → Nat) (shown : Nat → Option α) : Prop where
  nodup : (l.map key).Nodup
  mem_iff : ∀ a, a ∈ l ↔ shown (key a) = some a

namespace Records

variable {α : Type} {l : List α} {key : α → Nat} {shown shown' : Nat → Option α}

theorem congr (h : Records l key shown) (hs : ∀ t, shown' t = shown t) : Records l key shown' where
  nodup := h.nodup
  mem_iff a := by rw [hs]; exact h.mem_iff a

theorem nil (hs : ∀ t, shown t = none) : Records [] key shown where
  nodup := List.nodup_nil
  mem_iff a := by simp [hs]

/-- A key that showed nothing shows the new element. -/
theorem snoc (h : Records l key shown) {a : α} (hnew : shown (key a) = none)
    (hs : ∀ t, shown' t = if t = key a then some a else shown t) :
    Records (l ++ [a]) key shown' where
  nodup := by
    rw [List.map_append, List.map_singleton]
    refine List.nodup_append.mpr ⟨h.nodup, by simp, ?_⟩
    intro t ht u hu
    rw [List.mem_singleton] at hu
    subst hu
    rintro rfl
    obtain ⟨b, hb, hkey⟩ := List.mem_map.mp ht
    have hshown := (h.mem_iff b).mp hb
    rw [hkey, hnew] at hshown
    exact absurd hshown (by simp)
  mem_iff b := by
    rw [List.mem_append, List.mem_singleton, hs, h.mem_iff]
    by_cases hb : key b = key a
    · rw [if_pos hb, hb, hnew, Option.some.injEq]
      exact ⟨fun h => (h.resolve_left (by simp)).symm, fun h => Or.inr h.symm⟩
    · rw [if_neg hb]
      refine ⟨fun h => h.resolve_right ?_, Or.inl⟩
      rintro rfl
      exact hb rfl

end Records

namespace History

variable {config : Config} {h k : History}

/-- The records of a history agree with the phases of its tasks. -/
structure Recorded (h : History) : Prop where
  starts : Records h.session.starts.toList id (h.session.view Task.start?)
  reports : Records h.reports (·.task) (h.session.view Task.report?)
  pushes : Records h.pushes (·.task) (h.session.view (Task.push? h.session.idOf?))

/-- A step that leaves no record. -/
theorem Recorded.congr (hi : h.Recorded) (ha : Session.Alike h.session k.session)
    (hs : k.session.starts = h.session.starts) (hr : k.reports = h.reports)
    (hp : k.pushes = h.pushes) : k.Recorded where
  starts := hs ▸ hi.starts.congr ha.starts
  reports := hr ▸ hi.reports.congr ha.reports
  pushes := hp ▸ hi.pushes.congr ha.pushes

theorem Recorded.step (hc : h.Coherent) (hi : h.Recorded) (hs : Step h k) : k.Recorded := by
  cases hs with
  | idle => exact hi
  | close | raise | halt | drain | take =>
    exact hi.congr (.of_tasks rfl fun _ _ _ => rfl) rfl rfl rfl
  | accept ha hp =>
    refine hi.congr (.of_tasks rfl ?_) rfl rfl rfl
    intro t task ht
    have hne : task.request ≠ h.session.requests.size := Nat.ne_of_lt (hc.linked t task ht)
    unfold Session.idOf?
    rw [Array.getElem?_push, if_neg hne]
  | enter | look | giveUp | write =>
    exact hi.congr (.of_requests (requests_modifyRequest ..) rfl fun _ => rfl) rfl rfl rfl
  | launch =>
    exact hi.congr (.of_push rfl rfl
      (Session.idOf?_modify (requests_modifyRequest ..) fun _ => rfl)) rfl rfl rfl
  | grant ht hp | line ht hp | pass ht hp | leave ht hp | finish ht hp =>
    refine hi.congr (.of_modify (tasks_modifyTask ..) ht ?_ rfl) rfl rfl rfl
    rw [hp]
    exact ⟨Iff.rfl, rfl, rfl⟩
  | @handOver t w ws task next o ht hp hw hn hnp =>
    have hne : t ≠ w := ne_of_running_waiting ht hp hn hnp
    have hn' : (h.session.tasks.modify t ({ · with phase := .ended o }))[w]? = some next := by
      rw [Array.getElem?_modify, if_neg hne]
      exact hn
    refine hi.congr (.trans (.of_modify (tasks_modifyTask ..) ht ?_ rfl)
      (.of_modify (tasks_modifyTask ..) hn' ?_ rfl)) rfl rfl rfl
    · rw [hp]
      exact ⟨Iff.rfl, rfl, rfl⟩
    · rw [hnp]
      exact ⟨Iff.rfl, rfl, rfl⟩
  | @begin t task ht hp =>
    refine ⟨?_, ?_, ?_⟩
    · refine (Array.toList_push ..).symm ▸ hi.starts.snoc ?_ ?_
      · rw [id, Session.view_of_getElem? ht, Task.start?, hp]
        rfl
      · intro u
        exact Session.view_modify (tasks_modifyTask ..) ht
    · exact hi.reports.congr fun u => Session.view_modify_same (tasks_modifyTask ..) ht
        (by simp only [Task.report?, hp, Phase.count?])
    · exact hi.pushes.congr fun u => Session.view_modify_same (tasks_modifyTask ..) ht
        (by simp only [Task.push?, hp, Phase.pushed?])
  | @count t task o q length code faults ht hp hq hlen hc =>
    subst hlen
    refine ⟨?_, ?_, ?_⟩
    · refine hi.starts.congr fun u => Session.view_modify_same (tasks_modifyTask ..) ht ?_
      simp only [Task.start?, hp, Phase.Started]
    · refine hi.reports.snoc ?_ ?_
      · rw [Session.view_of_getElem? ht, Task.report?, hp]
        rfl
      · intro u
        exact Session.view_modify (tasks_modifyTask ..) ht
    · refine hi.pushes.congr ?_
      intro u
      rw [Session.idOf?_tally]
      refine Session.view_modify_same (tasks_modifyTask ..) ht ?_
      simp only [Task.push?, hp, Phase.pushed?]
  | @push t task o c q ht hp hq =>
    refine ⟨?_, ?_, ?_⟩
    · refine hi.starts.congr fun u => Session.view_modify_same (tasks_modifyTask ..) ht ?_
      simp only [Task.start?, hp, Phase.Started]
    · refine hi.reports.congr fun u => Session.view_modify_same (tasks_modifyTask ..) ht ?_
      simp only [Task.report?, hp, Phase.count?]
    · refine hi.pushes.snoc ?_ ?_
      · rw [Session.view_of_getElem? ht, Task.push?, hp]
        rfl
      · intro u
        have hpush : Task.push? h.session.idOf? t { task with phase := .reported o (some c) } =
            some ⟨t, task.request, ⟨q.id, c⟩⟩ := by
          simp only [Task.push?, Phase.pushed?, Session.idOf?, hq, Option.map_some,
            Option.bind_some]
        rw [← hpush]
        exact Session.view_modify (tasks_modifyTask ..) ht

theorem Reachable.recorded (hr : h.Reachable config) : h.Recorded :=
  hr.induct ⟨.nil fun _ => rfl, .nil fun _ => rfl, .nil fun _ => rfl⟩
    fun hk _ hi hs => hi.step hk.coherent hs

/-! ## Reports and pushes of one request -/

variable {r : Nat}

/-- The reports of request `r`, in the order in which they were counted. -/
def reportsOf (h : History) (r : Nat) : List Report :=
  h.reports.filter (·.request = r)

/-- The pushes for request `r`, in order. -/
def pushesOf (h : History) (r : Nat) : List Push :=
  h.pushes.filter (·.request = r)

theorem mem_reportsOf {e : Report} : e ∈ h.reportsOf r ↔ e ∈ h.reports ∧ e.request = r := by
  unfold reportsOf
  rw [List.mem_filter, decide_eq_true_eq]

theorem mem_pushesOf {p : Push} : p ∈ h.pushesOf r ↔ p ∈ h.pushes ∧ p.request = r := by
  unfold pushesOf
  rw [List.mem_filter, decide_eq_true_eq]

/-- A report is one of a task that was counted. -/
theorem Recorded.mem_reports (hi : h.Recorded) {e : Report} :
    e ∈ h.reports ↔ ∃ task, h.session.tasks[e.task]? = some task ∧ e.request = task.request ∧
      e.length = task.piece.range.length.toNat ∧
      task.phase.count? = some (e.outcome, e.code) := by
  rw [hi.reports.mem_iff, Session.view, Option.bind_eq_some_iff]
  refine exists_congr fun task => and_congr_right ?_
  intro _
  unfold Task.report?
  rw [Option.map_eq_some_iff]
  obtain ⟨t, r, length, o, code⟩ := e
  constructor
  · rintro ⟨⟨o', code'⟩, hc, he⟩
    simp only [Report.mk.injEq] at he
    obtain ⟨-, hr, hl, rfl, rfl⟩ := he
    exact ⟨hr.symm, hl.symm, hc⟩
  · rintro ⟨rfl, rfl, hc⟩
    exact ⟨_, hc, rfl⟩

/-- A push is one of a task that has reported. -/
theorem Recorded.mem_pushes (hi : h.Recorded) {p : Push} :
    p ∈ h.pushes ↔ ∃ task, h.session.tasks[p.task]? = some task ∧ p.request = task.request ∧
      h.session.idOf? task.request = some p.event.id ∧
      task.phase.pushed? = some p.event.code := by
  rw [hi.pushes.mem_iff, Session.view, Option.bind_eq_some_iff]
  refine exists_congr fun task => and_congr_right ?_
  intro _
  unfold Task.push?
  rw [Option.bind_eq_some_iff]
  obtain ⟨t, r, id, c⟩ := p
  constructor
  · rintro ⟨c', hc, hp⟩
    obtain ⟨id', hid, hp⟩ := Option.map_eq_some_iff.mp hp
    simp only [Push.mk.injEq, Completion.mk.injEq] at hp
    obtain ⟨-, hr, rfl, rfl⟩ := hp
    exact ⟨hr.symm, hid, hc⟩
  · rintro ⟨rfl, hid, hc⟩
    exact ⟨c, hc, Option.map_eq_some_iff.mpr ⟨id, hid, rfl⟩⟩

/-! ## Deliveries -/

/-- A report pushes no sentinel. -/
theorem verdict_cases {q : Request} {length : Nat} {o : Outcome} {c : Code}
    (h : Session.verdict q length o = some c) : c = .success ∨ c = .fileAccess := by
  unfold Session.verdict at h
  split at h
  · split at h
    · exact Or.inl (Option.some.inj h).symm
    · exact absurd h (by simp)
  · split at h
    · exact absurd h (by simp)
    · exact Or.inr (Option.some.inj h).symm

/-- No sentinel is pushed, and what is pushed goes through the queue. -/
structure Delivered (h : History) : Prop where
  reports : ∀ e ∈ h.reports, ∀ c, e.code = some c → c = .success ∨ c = .fileAccess
  pushes : ∀ p ∈ h.pushes, p.event.code = .success ∨ p.event.code = .fileAccess
  queued : h.taken ++ h.session.queue.events = h.pushes.map (·.event)

/-- A queued event is not a sentinel. -/
theorem Delivered.isFinished_eq_false (hi : h.Delivered) {e : Completion}
    (he : e ∈ h.session.queue.events) : e.isFinished = false := by
  have hmem : e ∈ h.pushes.map (·.event) := by
    rw [← hi.queued]
    exact List.mem_append_right _ he
  obtain ⟨p, hp, rfl⟩ := List.mem_map.mp hmem
  unfold Completion.isFinished
  rcases hi.pushes p hp with hc | hc
  · rw [hc]
    rfl
  · rw [hc]
    rfl

theorem Delivered.step (hrec : h.Recorded) (hi : h.Delivered) (hs : Step h k) : k.Delivered := by
  cases hs with
  | count ht hp hq hlen hc =>
    refine ⟨?_, hi.pushes, hi.queued⟩
    intro e he c hec
    rcases List.mem_append.mp he with he | he
    · exact hi.reports e he c hec
    · rw [List.mem_singleton.mp he, hc] at hec
      exact verdict_cases hec
  | @push t task o c q ht hp hq =>
    refine ⟨hi.reports, ?_, ?_⟩
    · intro p hp'
      rcases List.mem_append.mp hp' with hp' | hp'
      · exact hi.pushes p hp'
      · have hmem : (⟨t, task.request, task.piece.range.length.toNat, o, some c⟩ : Report) ∈
            h.reports := by
          rw [hrec.reports.mem_iff, Session.view_of_getElem? ht, Task.report?, hp]
          rfl
        rw [List.mem_singleton.mp hp']
        exact hi.reports _ hmem c rfl
    · rw [List.map_append, ← hi.queued, List.append_assoc]
      rfl
  | @take e es hs hq he =>
    refine ⟨hi.reports, hi.pushes, ?_⟩
    have hfin : e.isFinished = false := hi.isFinished_eq_false (by rw [he]; exact List.mem_cons_self)
    simpa [hfin, he] using hi.queued
  | idle | accept | enter | look | giveUp | launch | grant | line | begin | pass | leave | write
  | finish | handOver | close | raise | halt | drain =>
    exact ⟨hi.reports, hi.pushes, hi.queued⟩

theorem Reachable.delivered (hr : h.Reachable config) : h.Delivered :=
  hr.induct ⟨fun _ he => absurd he List.not_mem_nil, fun _ hp => absurd hp List.not_mem_nil, rfl⟩
    fun hk _ hi hs => hi.step hk.recorded hs

/-- **What was pushed is handed out or still queued**, in the order in which it was pushed. -/
theorem Reachable.taken_append_events (hr : h.Reachable config) :
    h.taken ++ h.session.queue.events = h.pushes.map (·.event) :=
  hr.delivered.queued

end History

end RangeFetch
