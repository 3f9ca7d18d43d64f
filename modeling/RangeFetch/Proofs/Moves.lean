import RangeFetch.Proofs.Turns

/-!
# What moves by a step

A step of a task moves that task, and at the end of a transfer the first in the line as well. A step
of a caller moves no task and no permit; it may launch another task. What stays where it is does not
overtake anybody, so that all of these but the first step of a task and the start of its transfer
are in turn of themselves.

Headlines:
* **`Session.Moved`**, **`Session.Passed`** and **`Session.Joined`** say what moves.
* **`Reachable.exists_completed`**: a transfer ends and its task reports, in turn.
* **`Session.Calls`** has what callers do, and `exists_called` says that it is in turn.
-/

namespace RangeFetch

/-! ## Steps that move one task -/

namespace Session

variable {s s' s'' : Session} {t : Nat} {p q : Phase}

theorem phaseOf?_congr (hk : s'.tasks = s.tasks) : s'.phaseOf? = s.phaseOf? := by
  funext u
  rw [phaseOf?, phaseOf?, hk]

/-- A step that lets the tasks stay which are about to take a turn is in turn. -/
theorem InTurn.of_stay (hs : ∀ (t : Nat) (p : Phase), p.Ready → s.phaseOf? t = some p →
    s'.phaseOf? t = some p) : s.InTurn s' where
  asks _ u _ _ hu := hs u .launched trivial hu
  goesOn _ u _ _ hu := hs u .granted trivial hu

theorem LeavesInTurn.of_first (hs : ∀ u, u ≠ t → s'.phaseOf? u = s.phaseOf? u)
    (hfirst : ∀ u, u < t → s.phaseOf? u ≠ s.phaseOf? t) : s.LeavesInTurn p s' := by
  intro v u hvu hv hu
  by_cases hut : u = t
  · subst hut
    exact absurd (hv.trans hu.symm) (hfirst v hvu)
  · rw [hs u hut, hu]

/-- A step of one task is in turn if no earlier task is where it was. -/
theorem InTurn.of_first (hs : ∀ u, u ≠ t → s'.phaseOf? u = s.phaseOf? u)
    (hfirst : ∀ u, u < t → s.phaseOf? u ≠ s.phaseOf? t) : s.InTurn s' where
  asks := .of_first hs hfirst
  goesOn := .of_first hs hfirst

/-- From `s` to `s'` task `t` moves to phase `p`, and neither another task nor the line does. -/
structure Moved (s s' : Session) (t : Nat) (p : Phase) : Prop where
  line : s'.permits.line = s.permits.line
  size : s'.tasks.size = s.tasks.size
  phase : ∀ u, s'.phaseOf? u = if u = t then some p else s.phaseOf? u

theorem Moved.of_modify (ht : s.phaseOf? t = some q)
    (hk : s'.tasks = s.tasks.modify t ({ · with phase := p }))
    (hl : s'.permits.line = s.permits.line) : s.Moved s' t p where
  line := hl
  size := by rw [hk, Array.size_modify]
  phase u := by rw [History.phaseOf?_modify hk, ht, Option.map_some]

/-- A task that was not about to take a turn moves in turn. -/
theorem Moved.inTurn (hm : s.Moved s' t p) (ht : s.phaseOf? t = some q) (hq : ¬ q.Ready) :
    s.InTurn s' := by
  refine .of_stay fun u x hx hu => ?_
  rw [hm.phase, if_neg]
  · exact hu
  · rintro rfl
    obtain rfl := Option.some.inj (ht.symm.trans hu)
    exact hq hx

theorem Moved.self (hm : s.Moved s' t p) : s'.phaseOf? t = some p := by
  rw [hm.phase, if_pos rfl]

theorem Moved.trans (hm : s.Moved s' t p) (hm' : s'.Moved s'' t q) : s.Moved s'' t q where
  line := hm'.line.trans hm.line
  size := hm'.size.trans hm.size
  phase u := by
    rw [hm'.phase, hm.phase]
    split
    · rfl
    · rfl

/-! ## The way of a transfer -/

/-- A task that asks for a permit has it if one is left. -/
theorem moved_grant (ht : s.phaseOf? t = some .launched) (ha : s.permits.available ≠ 0) :
    s.Moved (s.advance t) t .granted := by
  obtain ⟨task, htask, hp⟩ := Option.map_eq_some_iff.mp ht
  have hadv : s.advance t = { s with
      permits := { s.permits with available := s.permits.available - 1 } }.modifyTask t
        ({ · with phase := .granted }) := by
    simp [advance, htask, hp, acquire, Permits.acquire, ha]
  exact hadv ▸ .of_modify ht (History.tasks_modifyTask ..) rfl

/-- A task that asks for a permit waits if none is left. -/
theorem tasks_advance_waiting (ht : s.phaseOf? t = some .launched)
    (ha : s.permits.available = 0) :
    (s.advance t).tasks = s.tasks.modify t ({ · with phase := .waiting }) := by
  obtain ⟨task, htask, hp⟩ := Option.map_eq_some_iff.mp ht
  simp [advance, htask, hp, acquire, Permits.acquire, ha, modifyTask]

theorem moved_begin (ht : s.phaseOf? t = some .granted) : s.Moved (s.advance t) t .running := by
  obtain ⟨task, htask, hp⟩ := Option.map_eq_some_iff.mp ht
  have hadv : s.advance t = s.begin t := by simp only [advance, htask, hp]
  exact hadv ▸ .of_modify ht (History.tasks_modifyTask ..) rfl

theorem moved_report {o : Outcome} {code : Option Code}
    (ht : s.phaseOf? t = some (.counted o code)) : s.Moved (s.advance t) t (.reported o code) := by
  obtain ⟨task, htask, hp⟩ := Option.map_eq_some_iff.mp ht
  have hadv : s.advance t = s.report t task.request o code := by simp only [advance, htask, hp]
  exact hadv ▸ .of_modify ht (History.tasks_modifyTask ..) rfl

theorem moved_leave {o : Outcome} {code : Option Code}
    (ht : s.phaseOf? t = some (.reported o code)) : s.Moved (s.advance t) t (.finished o code) := by
  obtain ⟨task, htask, hp⟩ := Option.map_eq_some_iff.mp ht
  obtain ⟨n, faults, hv⟩ := History.leave_eq s
  have hadv : s.advance t = { s with inflight := n, faults }.modifyTask t
      ({ · with phase := .finished o code }) := by
    simp only [advance, htask, hp, hv]
  exact hadv ▸ .of_modify ht (History.tasks_modifyTask ..) rfl

theorem moved_count {o : Outcome} (hr : ∀ task, s.tasks[t]? = some task →
    task.request < s.requests.size) (ht : s.phaseOf? t = some (.ended o)) :
    ∃ code, s.Moved (s.advance t) t (.counted o code) := by
  obtain ⟨task, htask, hp⟩ := Option.map_eq_some_iff.mp ht
  have hq := Array.getElem?_eq_getElem (hr task htask)
  have hadv : ∃ code faults, s.advance t = ({ s with faults }.modifyRequest task.request
      (tally · task.piece.range.length.toNat o)).modifyTask t
        ({ · with phase := .counted o code }) := by
    simp only [advance, htask, hp, count, hq]
    exact ⟨_, _, rfl⟩
  obtain ⟨code, faults, hadv⟩ := hadv
  exact ⟨code, hadv ▸ .of_modify ht (History.tasks_modifyTask ..) rfl⟩

/-- From `s` to `s'` the transfer of task `t` ends, and the task comes to phase `p`; its permit goes
to the first in the line. -/
structure Passed (s s' : Session) (t : Nat) (p : Phase) : Prop where
  size : s'.tasks.size = s.tasks.size
  line : s'.permits.line = s.permits.line.tail
  self : s'.phaseOf? t = some p
  woken : ∀ w, s.permits.line.head? = some w → w ≠ t ∧ s'.phaseOf? w = some .granted
  others : ∀ u, u ≠ t → s.permits.line.head? ≠ some u → s'.phaseOf? u = s.phaseOf? u

theorem Passed.trans (hp : s.Passed s' t p) (hm : s'.Moved s'' t q) : s.Passed s'' t q where
  size := hm.size.trans hp.size
  line := hm.line.trans hp.line
  self := hm.self
  woken w hw := by
    obtain ⟨hne, hg⟩ := hp.woken w hw
    exact ⟨hne, by rw [hm.phase, if_neg hne, hg]⟩
  others u hu hw := by rw [hm.phase, if_neg hu, hp.others u hu hw]

theorem passed_finish (hw : ∀ w ∈ s.permits.line, s.phaseOf? w = some .waiting)
    (ht : s.phaseOf? t = some .running) (o : Outcome) : s.Passed (s.finish t o) t (.ended o) := by
  obtain ⟨task, htask, hp⟩ := Option.map_eq_some_iff.mp ht
  have hends : s.Moved (s.modifyTask t ({ · with phase := .ended o })) t (.ended o) :=
    .of_modify ht (History.tasks_modifyTask ..) rfl
  cases hl : s.permits.line with
  | nil =>
    have hfin : s.finish t o = { s with
        permits := { available := s.permits.available + 1, line := [] } }.modifyTask t
          ({ · with phase := .ended o }) := by
      simp [finish, htask, hp, Permits.release, hl, modifyTask]
    rw [hfin]
    exact ⟨hends.size, by simp [modifyTask, hl], hends.self, fun w hw => absurd hw (by simp [hl]),
      fun u hu _ => (hends.phase u).trans (if_neg hu)⟩
  | cons w ws =>
    have hwait := hw w (by simp [hl])
    have hne : w ≠ t := by
      rintro rfl
      exact absurd (ht.symm.trans hwait) (by simp)
    have hfin : s.finish t o = ({ s with permits := { s.permits with line := ws } }.modifyTask t
        ({ · with phase := .ended o })).modifyTask w ({ · with phase := .granted }) := by
      simp [finish, htask, hp, Permits.release, hl, modifyTask]
    have hwait' : (s.modifyTask t ({ · with phase := .ended o })).phaseOf? w = some .waiting := by
      rw [hends.phase, if_neg hne, hwait]
    have hgrant : (s.modifyTask t ({ · with phase := .ended o })).Moved
        ((s.modifyTask t ({ · with phase := .ended o })).modifyTask w ({ · with phase := .granted }))
        w .granted := .of_modify hwait' (History.tasks_modifyTask ..) rfl
    rw [hfin]
    refine ⟨hgrant.size.trans hends.size, by simp [modifyTask, hl], ?_, ?_, ?_⟩
    · refine (hgrant.phase t).trans ?_
      rw [if_neg (Ne.symm hne), hends.self]
    · intro v hv
      rw [hl, List.head?_cons, Option.some.injEq] at hv
      subst hv
      exact ⟨hne, hgrant.self⟩
    · intro u hu hw'
      have huw : u ≠ w := fun huw => hw' (by rw [hl, huw, List.head?_cons])
      refine (hgrant.phase u).trans ?_
      rw [if_neg huw, hends.phase, if_neg hu]

/-- What a transfer writes before its end does not matter here. -/
theorem Passed.of_frame (hp : s'.Passed s'' t p) (hk : s'.tasks = s.tasks)
    (hl : s'.permits = s.permits) : s.Passed s'' t p where
  size := hk ▸ hp.size
  line := hl ▸ hp.line
  self := hp.self
  woken := hl ▸ hp.woken
  others := by
    rw [← hl, ← phaseOf?_congr hk]
    exact hp.others

/-- Where a task stands after the end of a transfer, and where it stood. -/
theorem Passed.cases (hp : s.Passed s' t p) (hw : ∀ w ∈ s.permits.line, s.phaseOf? w = some .waiting)
    {u : Nat} (hu : s'.phaseOf? u = some q) :
    (u = t ∧ q = p) ∨ (u ≠ t ∧ q = .granted ∧ s.phaseOf? u = some .waiting) ∨
      (u ≠ t ∧ s.phaseOf? u = some q) := by
  by_cases hut : u = t
  · subst hut
    exact Or.inl ⟨rfl, Option.some.inj (hu.symm.trans hp.self)⟩
  · refine Or.inr ?_
    by_cases hhead : s.permits.line.head? = some u
    · exact Or.inl ⟨hut, Option.some.inj (hu.symm.trans (hp.woken u hhead).2),
        hw u (List.mem_of_head? hhead)⟩
    · exact Or.inr ⟨hut, (hp.others u hut hhead).symm.trans hu⟩

/-- The end of a transfer lets the tasks stay which are about to take a turn. -/
theorem Passed.inTurn (hp : s.Passed s' t p) (ht : s.phaseOf? t = some q) (hq : ¬ q.Ready)
    (hw : ∀ w ∈ s.permits.line, s.phaseOf? w = some .waiting) : s.InTurn s' := by
  refine .of_stay fun u x hx hu => ?_
  rw [hp.others]
  · exact hu
  · rintro rfl
    obtain rfl := Option.some.inj (ht.symm.trans hu)
    exact hq hx
  · intro hhead
    obtain rfl := Option.some.inj ((hw u (List.mem_of_head? hhead)).symm.trans hu)
    exact hx

theorem write_frame (s : Session) (t i : Nat) (bytes : List UInt8) :
    (s.write t i bytes).tasks = s.tasks ∧ (s.write t i bytes).permits = s.permits := by
  unfold write
  split
  · exact ⟨rfl, rfl⟩
  · split <;> exact ⟨rfl, rfl⟩

end Session

namespace History

variable {config : Config} {h k : History} {t : Nat} {p : Phase}

/-- A task takes a step of its own in turn. -/
theorem exists_advanced (ht : h.session.phaseOf? t = some p) (hp : Session.Phase.Moves p)
    (hturn : h.session.InTurn (h.session.advance t)) :
    ∃ k, h.Paces k ∧ k.session = h.session.advance t := by
  obtain ⟨task, htask, rfl⟩ := Option.map_eq_some_iff.mp ht
  exact ⟨h.act (.advance t), .step (.refl h) ⟨task, htask, hp⟩ hturn, rfl⟩

/-- A transfer writes its bytes. -/
theorem exists_written_bytes (ht : h.session.phaseOf? t = some .running) (bytes : List UInt8) :
    ∃ k, h.Paces k ∧ k.session = h.session.write t 0 bytes := by
  obtain ⟨task, htask, hp⟩ := Option.map_eq_some_iff.mp ht
  refine ⟨h.act (.write t 0 (bytes.take task.piece.slice.length)),
    .step (.refl h) ⟨task, htask, hp, ?_⟩ ?_, ?_⟩
  · rw [Nat.zero_add]
    exact List.length_take_le ..
  · refine .of_stay fun u x _ hu => ?_
    exact (congrFun (Session.phaseOf?_congr (Session.write_frame ..).1) u).trans hu
  · simp [act, Session.act, Session.write, htask, hp, List.take_take]

/-- A transfer ends. -/
theorem Reachable.exists_passed (hr : h.Reachable config)
    (ht : h.session.phaseOf? t = some .running) (o : Outcome) :
    ∃ k, h.Paces k ∧ k.session = h.session.finish t o ∧
      h.session.Passed k.session t (.ended o) := by
  obtain ⟨task, htask, hp⟩ := Option.map_eq_some_iff.mp ht
  have hpass := Session.passed_finish hr.coherent.waiting ht o
  exact ⟨h.act (.finish t o),
    .step (.refl h) ⟨task, htask, hp⟩ (hpass.inTurn ht id hr.coherent.waiting), rfl, hpass⟩

/-- A task whose transfer has ended reports and leaves. -/
theorem Reachable.exists_reported {o : Outcome} (hr : h.Reachable config)
    (ht : h.session.phaseOf? t = some (.ended o)) :
    ∃ k code, h.Paces k ∧ k.session = ((h.session.advance t).advance t).advance t ∧
      h.session.Moved k.session t (.finished o code) := by
  obtain ⟨code, hcount⟩ := Session.moved_count (hr.coherent.linked t) ht
  obtain ⟨k₁, hk₁, hs₁⟩ := exists_advanced ht trivial (hcount.inTurn ht id)
  rw [← hs₁] at hcount
  have hreport := Session.moved_report hcount.self
  obtain ⟨k₂, hk₂, hs₂⟩ := exists_advanced hcount.self trivial (hreport.inTurn hcount.self id)
  rw [← hs₂] at hreport
  have hleave := Session.moved_leave hreport.self
  obtain ⟨k₃, hk₃, hs₃⟩ := exists_advanced hreport.self trivial (hleave.inTurn hreport.self id)
  rw [← hs₃] at hleave
  exact ⟨k₃, code, (hk₁.trans hk₂).trans hk₃, by rw [hs₃, hs₂, hs₁],
    (hcount.trans hreport).trans hleave⟩

/-- **A transfer writes its bytes and ends, and its task reports.** -/
theorem Reachable.exists_completed (hr : h.Reachable config)
    (ht : h.session.phaseOf? t = some .running) (bytes : List UInt8) (o : Outcome) :
    ∃ k code, h.Paces k ∧
      k.session = ((((h.session.write t 0 bytes).finish t o).advance t).advance t).advance t ∧
      h.session.Passed k.session t (.finished o code) := by
  obtain ⟨k₁, hk₁, hs₁⟩ := exists_written_bytes ht bytes
  obtain ⟨htasks, hpermits⟩ := Session.write_frame h.session t 0 bytes
  rw [← hs₁] at htasks hpermits
  obtain ⟨k₂, hk₂, hs₂, hpass⟩ := (hr.reaches hk₁.reaches).exists_passed
    ((congrFun (Session.phaseOf?_congr htasks) t).trans ht) o
  obtain ⟨k₃, code, hk₃, hs₃, hmoved⟩ :=
    (hr.reaches (hk₁.trans hk₂).reaches).exists_reported hpass.self
  exact ⟨k₃, code, (hk₁.trans hk₂).trans hk₃, by rw [hs₃, hs₂, hs₁],
    (hpass.of_frame htasks hpermits).trans hmoved⟩

end History

/-! ## Steps of callers -/

namespace Session

/-- The steps that callers take, by themselves or by their submitters. -/
def Action.IsCall : Action → Prop
  | .submit _ | .launch _ | .close _ | .closing _ | .take => True
  | .advance _ | .write .. | .finish .. => False

/-- The sessions that steps of callers lead to from `s`. -/
inductive Calls : Session → Session → Prop where
  | refl (s : Session) : Calls s s
  | step {s t : Session} {a : Action} : Calls s t → a.IsCall → t.Enabled a → Calls s (t.act a)

variable {s s' s'' : Session} {t : Nat} {p : Phase}

theorem Calls.trans (h : s.Calls s') (h' : s'.Calls s'') : s.Calls s'' := by
  induction h' with
  | refl => exact h
  | step _ ha he ih => exact .step ih ha he

/-- From `s` to `s'` nothing changes of the permits and of the tasks that there are, and other tasks
are launched. -/
structure Joined (s s' : Session) : Prop where
  permits : s'.permits = s.permits
  size : s.tasks.size ≤ s'.tasks.size
  old : ∀ t, t < s.tasks.size → s'.phaseOf? t = s.phaseOf? t
  new : ∀ t p, s.tasks.size ≤ t → s'.phaseOf? t = some p → p = .launched

theorem Joined.of_tasks (hp : s'.permits = s.permits) (hk : s'.tasks = s.tasks) : s.Joined s' where
  permits := hp
  size := Nat.le_of_eq (by rw [hk])
  old t _ := congrFun (phaseOf?_congr hk) t
  new t p hle ht := by
    have hlt := History.lt_of_phaseOf? ht
    rw [hk] at hlt
    omega

theorem Joined.of_push {task : Task} (hp : s'.permits = s.permits) (hk : s'.tasks = s.tasks.push task)
    (hl : task.phase = .launched) : s.Joined s' where
  permits := hp
  size := by
    rw [hk, Array.size_push]
    omega
  old t hlt := by rw [History.phaseOf?_push hk, if_neg (Nat.ne_of_lt hlt)]
  new t p hle ht := by
    rw [History.phaseOf?_push hk] at ht
    split at ht
    · rw [← Option.some.inj ht, hl]
    · have hlt := History.lt_of_phaseOf? ht
      omega

theorem Joined.trans (h : s.Joined s') (h' : s'.Joined s'') : s.Joined s'' where
  permits := h'.permits.trans h.permits
  size := Nat.le_trans h.size h'.size
  old t hlt := (h'.old t (Nat.lt_of_lt_of_le hlt h.size)).trans (h.old t hlt)
  new t p hle ht := by
    by_cases hlt : t < s'.tasks.size
    · exact h.new t p hle ((h'.old t hlt).symm.trans ht)
    · exact h'.new t p (Nat.le_of_not_lt hlt) ht

theorem Joined.inTurn (h : s.Joined s') : s.InTurn s' :=
  .of_stay fun t _ _ ht => (h.old t (History.lt_of_phaseOf? ht)).trans ht

theorem joined_submit (s : Session) (x : Submission) : s.Joined (s.submit x).1 := by
  unfold submit
  split
  · exact .of_tasks rfl rfl
  · split <;> exact .of_tasks rfl rfl

theorem joined_launch (s : Session) (r : Nat) : s.Joined (s.launch r) := by
  unfold launch
  split
  · exact .of_tasks rfl rfl
  · split
    · exact .of_tasks rfl rfl
    · exact .of_tasks rfl rfl
    · obtain ⟨n, faults, hv⟩ := History.leave_eq s
      rw [hv]
      exact .of_tasks rfl rfl
    · split
      · exact .of_tasks rfl rfl
      · exact .of_push rfl rfl rfl
    · exact .of_tasks rfl rfl

theorem joined_closing (s : Session) (i : Nat) : s.Joined (s.closing i) := by
  unfold closing
  split
  · exact .of_tasks rfl rfl
  · split
    · exact .of_tasks rfl rfl
    · exact .of_tasks rfl rfl
    · split <;> exact .of_tasks rfl rfl
    · exact .of_tasks rfl rfl

theorem joined_take (s : Session) : s.Joined (s.act .take) := by
  obtain ⟨e, es, -, -, -, hn⟩ | hn | hn := History.next?_cases s
  · exact .of_tasks (by simp [act, hn]) (by simp [act, hn])
  · exact .of_tasks (by simp [act, hn]) (by simp [act, hn])
  · exact .of_tasks (by simp [act, hn]) (by simp [act, hn])

theorem joined_act {a : Action} (ha : a.IsCall) : s.Joined (s.act a) := by
  cases a with
  | submit x => exact joined_submit s x
  | launch r => exact joined_launch s r
  | close waits => exact .of_tasks rfl rfl
  | closing i => exact joined_closing s i
  | take => exact joined_take s
  | advance | write | finish => exact absurd ha id

/-! ### The calls of a session -/

theorem calls_launch (s : Session) (r : Nat) : s.Calls (s.launch r) := by
  by_cases he : s.Enabled (.launch r)
  · exact .step (.refl s) (a := .launch r) trivial he
  · rw [launch_of_not_enabled he]
    exact .refl s

theorem calls_closing (s : Session) (i : Nat) : s.Calls (s.closing i) := by
  by_cases he : s.Enabled (.closing i)
  · exact .step (.refl s) (a := .closing i) trivial he
  · have hsame : s.closing i = s := by
      unfold closing
      cases hc : s.closers[i]? with
      | none => rfl
      | some c =>
        cases hp : c.closing with
        | returned => simp [hp]
        | draining =>
          have h0 : s.inflight ≠ 0 := fun h0 => he ⟨c, hc, by simp [hp], fun _ => h0⟩
          simp [hp, h0]
        | raising | halting => exact absurd ⟨c, hc, by simp [hp], by simp [hp]⟩ he
    rw [hsame]
    exact .refl s

theorem calls_halt (s : Session) (waits : Bool) : s.Calls (s.halt waits) :=
  ((Calls.step (.refl s) (a := .close waits) trivial trivial).trans (calls_closing ..)).trans
    (calls_closing ..)

theorem calls_letReturn (s : Session) : s.Calls s.letReturn := by
  unfold letReturn
  generalize List.range s.closers.size = l
  induction l generalizing s with
  | nil => exact .refl s
  | cons i l ih => exact (calls_closing s i).trans (ih _)

theorem tasks_letReturn (s : Session) : s.letReturn.tasks = s.tasks := by
  unfold letReturn
  generalize List.range s.closers.size = l
  induction l generalizing s with
  | nil => rfl
  | cons i l ih =>
    refine (ih _).trans ?_
    unfold closing
    split
    · rfl
    · split
      · rfl
      · rfl
      · split <;> rfl
      · rfl

theorem calls_launchAll (s : Session) (r : Nat) : s.Calls (s.launchAll r) := by
  unfold launchAll
  generalize s.launchSteps r = n
  induction n with
  | zero => exact .refl s
  | succ n ih => exact ih.trans (calls_launch _ r)

/-- A submission is a call, with whatever callers do before the first launch. -/
theorem calls_submitBetween (s : Session) {others : Session → Session}
    (ho : ∀ s : Session, s.Calls (others s)) (x : Submission) :
    s.Calls (s.submitBetween others x).1 := by
  have hsubmit : s.Calls (s.submit x).1 := .step (.refl s) (a := .submit x) trivial trivial
  unfold submitBetween
  cases hx : s.submit x with
  | mk s' admission =>
    rw [hx] at hsubmit
    cases admission with
    | refused code => exact hsubmit
    | broken f => exact hsubmit
    | accepted r => exact (hsubmit.trans (ho s')).trans (calls_launchAll ..)

theorem calls_read (s : Session) (x : Submission) : s.Calls (s.read x).1 :=
  calls_submitBetween s Calls.refl x

theorem calls_take {e : Completion} (hn : s.next? = some (e, s')) : s.Calls s' := by
  have hact : s.act .take = s' := by simp [act, hn]
  exact hact ▸ .step (.refl s) trivial (by simp [Enabled, hn])

theorem calls_takeMany (room : Nat) (hs : s.submitted = true) :
    s.Calls { s with queue := (s.queue.takeMany room).2 } := by
  induction room generalizing s with
  | zero => exact .refl s
  | succ room ih =>
    rw [CompletionQueue.takeMany]
    cases ht : s.queue.take? with
    | none => exact .refl s
    | some x =>
      obtain ⟨e, queue⟩ := x
      have hfirst : s.Calls { s with queue } :=
        calls_take (e := e) (by rw [next?, if_pos hs, ht, Option.map_some])
      by_cases he : e.isFinished
      · simpa [he] using hfirst
      · simpa [he] using hfirst.trans (ih (s := { s with queue }) hs)

/-- So is a wait for completions that returns. -/
theorem calls_waitFor {mode : WaitMode} {slots : List Completion} {w : Retrieved}
    (hw : s.waitFor mode slots = some (w, s')) : s.Calls s' := by
  unfold waitFor at hw
  split at hw
  · obtain ⟨-, rfl⟩ := Prod.mk.inj (Option.some.inj hw)
    exact .refl s
  · split at hw
    · exact absurd hw (by simp)
    · obtain ⟨-, rfl⟩ := Prod.mk.inj (Option.some.inj hw)
      exact .refl s
    · rename_i e s₁ hn
      have hfirst := calls_take hn
      split at hw
      · obtain ⟨-, rfl⟩ := Prod.mk.inj (Option.some.inj hw)
        exact hfirst
      · rename_i he
        obtain ⟨-, rfl⟩ := Prod.mk.inj (Option.some.inj hw)
        refine hfirst.trans (calls_takeMany _ ?_)
        obtain ⟨e', es, hs, -, -, hn'⟩ | hn' | hn' := History.next?_cases s
        · obtain ⟨-, rfl⟩ := Prod.mk.inj (Option.some.inj (hn.symm.trans hn'))
          exact hs
        · obtain ⟨rfl, -⟩ := Prod.mk.inj (Option.some.inj (hn.symm.trans hn'))
          exact absurd rfl he
        · exact absurd (hn.symm.trans hn') (by simp)

end Session

namespace History

variable {h : History}

/-- What callers do is in turn. -/
theorem exists_called {s : Session} (hs : h.session.Calls s) :
    ∃ k, h.Paces k ∧ k.session = s ∧ h.session.Joined s := by
  induction hs with
  | refl => exact ⟨h, .refl h, rfl, .of_tasks rfl rfl⟩
  | @step t a _ ha he ih =>
    obtain ⟨k, hk, rfl, hj⟩ := ih
    have hstep := Session.joined_act (s := k.session) ha
    exact ⟨k.act a, .step hk he hstep.inTurn, rfl, hj.trans hstep⟩

end History

/-! ## What stays finished -/

namespace History

variable {config : Config} {h k : History} {t : Nat} {p : Phase}

/-- No step moves a finished task. -/
theorem Step.finished (hs : Step h k) (ht : h.session.phaseOf? t = some p) (hp : p.Finished) :
    k.session.phaseOf? t = some p := by
  obtain ⟨q, hq, rfl | hlead⟩ := hs.phase ht
  · exact hq
  · cases hlead <;> exact absurd hp id

theorem Reachable.finished_reaches (hr : h.Reachable config) (hk : h.Reaches k)
    (ht : h.session.phaseOf? t = some p) (hp : p.Finished) : k.session.phaseOf? t = some p :=
  hk.induct (P := (·.session.phaseOf? t = some p)) hr ht fun _ _ hi hs => hs.finished hi hp

end History

end RangeFetch
