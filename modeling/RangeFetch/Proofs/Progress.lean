import RangeFetch.Proofs.Release

/-!
# Every chunk can be transferred

A permit that a task waits for is with another task, which can end its transfer and give it back to
the first in the line. Every launched chunk therefore gets its permit in some continuation of the
run, and every chunk that the submitter may still launch gets a task.

Headlines:
* **`Reachable.held`**: when no permit is left, somebody has one, and who waits stands in the line.
* **`Reachable.exists_running`**: every transfer that has not ended can come to run.
* **`Reachable.exists_launched`**: a submitter that may launch a chunk can do so.
-/

namespace RangeFetch

/-- The task has a permit. -/
def Phase.Holds : Phase → Prop
  | .granted | .running => True
  | .launched | .waiting | .ended _ | .counted .. | .reported .. | .finished .. => False

namespace History

variable {config : Config} {h k : History}

/-! ## Permits -/

/-- A permit that is not left is with a task, and who waits for one stands in the line. -/
structure Held (h : History) : Prop where
  holder : h.session.permits.available = 0 → ∃ t p, h.session.phaseOf? t = some p ∧ p.Holds
  full : h.session.permits.line ≠ [] → h.session.permits.available = 0
  waits : ∀ t, h.session.phaseOf? t = some .waiting → t ∈ h.session.permits.line

/-- A step that changes neither tasks nor permits. -/
theorem Held.congr (hi : h.Held) (hp : k.session.permits = h.session.permits)
    (ht : k.session.phaseOf? = h.session.phaseOf?) : k.Held where
  holder := by rw [hp, ht]; exact hi.holder
  full := by rw [hp]; exact hi.full
  waits := by rw [hp, ht]; exact hi.waits

/-- A task moves on and keeps its permit, if it has one. -/
theorem Held.move (hi : h.Held) {t : Nat} {task : Task} {p : Phase}
    (ht : h.session.tasks[t]? = some task)
    (hk : k.session.tasks = h.session.tasks.modify t ({ · with phase := p }))
    (hp : task.phase.Holds → p.Holds) (hw : p ≠ .waiting)
    (hperm : k.session.permits = h.session.permits) : k.Held where
  holder := by
    rw [hperm]
    intro h0
    obtain ⟨u, p', hu, hold⟩ := hi.holder h0
    by_cases hut : u = t
    · subst hut
      obtain rfl := Option.some.inj ((phaseOf?_of_getElem? ht).symm.trans hu)
      refine ⟨u, p, ?_, hp hold⟩
      rw [phaseOf?_modify hk, if_pos rfl, hu, Option.map_some]
    · refine ⟨u, p', ?_, hold⟩
      rw [phaseOf?_modify hk, if_neg hut]
      exact hu
  full := by rw [hperm]; exact hi.full
  waits := by
    intro u hu
    rw [hperm]
    rw [phaseOf?_modify hk] at hu
    split at hu
    · rw [phaseOf?_of_getElem? ht, Option.map_some] at hu
      exact absurd (Option.some.inj hu) hw
    · exact hi.waits u hu

theorem phaseOf?_push {s s' : Session} {task : Task} (hk : s'.tasks = s.tasks.push task) (u : Nat) :
    s'.phaseOf? u = if u = s.tasks.size then some task.phase else s.phaseOf? u := by
  unfold Session.phaseOf?
  rw [hk, Array.getElem?_push]
  split
  · rfl
  · rfl

/-- Where the tasks stand after task `t` has moved to `p`. -/
theorem phaseOf?_moved {t : Nat} {task : Task} {p : Phase} (ht : h.session.tasks[t]? = some task)
    (hk : k.session.tasks = h.session.tasks.modify t ({ · with phase := p })) (u : Nat) :
    k.session.phaseOf? u = if u = t then some p else h.session.phaseOf? u := by
  rw [phaseOf?_modify hk, phaseOf?_of_getElem? ht]
  rfl

theorem Held.step (hi : h.Held) (hs : Step h k) : k.Held := by
  cases hs with
  | idle => exact hi
  | accept | enter | look | giveUp | write | close | raise | halt | drain | take =>
    exact hi.congr rfl rfl
  | launch =>
    have hnone : h.session.phaseOf? h.session.tasks.size = none := by
      rw [Session.phaseOf?, Array.getElem?_size, Option.map_none]
    refine ⟨?_, hi.full, ?_⟩
    · intro h0
      obtain ⟨u, p, hu, hold⟩ := hi.holder h0
      refine ⟨u, p, ?_, hold⟩
      rw [phaseOf?_push rfl, if_neg]
      · exact hu
      · rintro rfl
        rw [hnone] at hu
        exact absurd hu (by simp)
    · intro u hu
      rw [phaseOf?_push rfl] at hu
      split at hu
      · exact absurd hu (by simp)
      · exact hi.waits u hu
  | begin ht hp => exact hi.move ht (tasks_modifyTask ..) (fun _ => trivial) (by simp) rfl
  | count ht hp | push ht hp | pass ht hp | leave ht hp =>
    exact hi.move ht (tasks_modifyTask ..) (by rw [hp]; exact id) (by simp) rfl
  | @grant t task ht hp ha =>
    refine ⟨fun _ => ⟨t, .granted, ?_, trivial⟩, fun hl => absurd (hi.full hl) ha, ?_⟩
    · rw [phaseOf?_moved ht (tasks_modifyTask ..), if_pos rfl]
    · intro u hu
      rw [phaseOf?_moved ht (tasks_modifyTask ..)] at hu
      split at hu
      · exact absurd hu (by simp)
      · exact hi.waits u hu
  | @line t task ht hp ha =>
    refine ⟨?_, fun _ => ha, ?_⟩
    · intro h0
      obtain ⟨u, p, hu, hold⟩ := hi.holder h0
      refine ⟨u, p, ?_, hold⟩
      rw [phaseOf?_moved ht (tasks_modifyTask ..), if_neg]
      · exact hu
      · rintro rfl
        rw [phaseOf?_of_getElem? ht, hp] at hu
        obtain rfl := Option.some.inj hu
        exact hold
    · intro u hu
      rw [phaseOf?_moved ht (tasks_modifyTask ..)] at hu
      split at hu
      · rename_i hut
        exact List.mem_append_right _ (by rw [hut]; exact List.mem_singleton_self t)
      · exact List.mem_append_left _ (hi.waits u hu)
  | @finish t task o ht hp hw =>
    refine ⟨fun h0 => absurd h0 (Nat.succ_ne_zero _), fun hl => absurd hw hl, ?_⟩
    intro u hu
    rw [phaseOf?_moved ht (tasks_modifyTask ..)] at hu
    split at hu
    · exact absurd hu (by simp)
    · exact hi.waits u hu
  | @handOver t w ws task next o ht hp hw hn hnp =>
    have hne : t ≠ w := ne_of_running_waiting ht hp hn hnp
    let mid : History := { h with
      session := { h.session with permits := { h.session.permits with line := ws } }.modifyTask t
        ({ · with phase := .ended o }) }
    have hn' : mid.session.tasks[w]? = some next := by
      show (h.session.tasks.modify t _)[w]? = some next
      rw [Array.getElem?_modify, if_neg hne]
      exact hn
    have hmid : ∀ u, mid.session.phaseOf? u =
        if u = t then some (.ended o) else h.session.phaseOf? u :=
      phaseOf?_moved ht (tasks_modifyTask ..)
    refine ⟨fun _ => ⟨w, .granted, ?_, trivial⟩, fun _ => hi.full (by simp [hw]), ?_⟩
    · rw [phaseOf?_moved hn' (tasks_modifyTask ..), if_pos rfl]
    · intro u hu
      rw [phaseOf?_moved hn' (tasks_modifyTask ..)] at hu
      split at hu
      · exact absurd hu (by simp)
      · rename_i huw
        rw [hmid] at hu
        split at hu
        · exact absurd hu (by simp)
        · have hold := hi.waits u hu
          rw [hw] at hold
          exact (List.mem_cons.mp hold).resolve_left huw

theorem Reachable.held (hr : h.Reachable config) : h.Held := by
  refine hr.induct ⟨fun h0 => ?_, fun hl => absurd rfl hl, fun t ht => ?_⟩
    fun _ _ hi hs => hi.step hs
  · have hzero : config.maxConcurrency.toNat = 0 := h0
    exact absurd (UInt64.toNat_inj.mp hzero) config.maxConcurrency_ne_zero
  · exact absurd ht (by simp [new, Session.phaseOf?])

/-! ## Tasks -/

/-- A task that asks for a permit has one, or waits. -/
theorem phaseOf?_act_launched {t : Nat} {task : Task} (ht : h.session.tasks[t]? = some task)
    (hp : task.phase = .launched) :
    (h.act (.advance t)).session.phaseOf? t = some .granted ∨
      (h.act (.advance t)).session.phaseOf? t = some .waiting := by
  have hadv : (h.act (.advance t)).session = h.session.acquire t := by
    simp only [act, Session.act, Session.advance, ht, hp]
  unfold Session.acquire at hadv
  split at hadv
  · exact Or.inl (by rw [phaseOf?_moved ht (by rw [hadv]; exact tasks_modifyTask ..), if_pos rfl])
  · exact Or.inr (by rw [phaseOf?_moved ht (by rw [hadv]; exact tasks_modifyTask ..), if_pos rfl])

/-- The end of a transfer gives its permit to the first in the line. -/
theorem act_finish {t w : Nat} {ws : List Nat} {task next : Task} (o : Outcome)
    (ht : h.session.tasks[t]? = some task) (hp : task.phase = .running)
    (hl : h.session.permits.line = w :: ws) (hn : h.session.tasks[w]? = some next)
    (hnp : next.phase = .waiting) :
    (h.act (.finish t o)).session.phaseOf? w = some .granted ∧
      (h.act (.finish t o)).session.permits.line = ws := by
  have hne : t ≠ w := ne_of_running_waiting ht hp hn hnp
  have hact : (h.act (.finish t o)).session = ({ h.session with
      permits := { h.session.permits with line := ws } }.modifyTask t
        ({ · with phase := .ended o })).modifyTask w ({ · with phase := .granted }) := by
    simp [act, Session.act, Session.finish, Session.modifyTask, Permits.release, ht, hp, hl]
  rw [hact]
  refine ⟨?_, rfl⟩
  rw [phaseOf?_modify (tasks_modifyTask ..), if_pos rfl, phaseOf?_modify (tasks_modifyTask ..),
    if_neg (Ne.symm hne)]
  show Option.map _ (h.session.phaseOf? w) = _
  rw [phaseOf?_of_getElem? hn, Option.map_some]

/-- A task with a permit can start its transfer. -/
theorem Reachable.exists_running_of_holds {t : Nat} {p : Phase}
    (ht : h.session.phaseOf? t = some p) (hp : p.Holds) :
    ∃ k, h.Reaches k ∧ k.session.phaseOf? t = some .running ∧
      k.session.permits = h.session.permits := by
  obtain ⟨task, htask, rfl⟩ := Option.map_eq_some_iff.mp ht
  cases hph : task.phase with
  | running => exact ⟨h, .refl _, by rw [ht, hph], rfl⟩
  | granted =>
    have hact : (h.act (.advance t)).session =
        { h.session with starts := h.session.starts.push t }.modifyTask t
          ({ · with phase := .running }) := by
      simp [act, Session.act, Session.advance, Session.begin, htask, hph]
    refine ⟨h.act (.advance t), .step (.refl _) ⟨task, htask, hph ▸ trivial⟩, ?_, ?_⟩
    · rw [phaseOf?_moved htask (by rw [hact]; exact tasks_modifyTask ..), if_pos rfl]
    · rw [hact]
      rfl
  | launched | waiting | ended | counted | reported | finished =>
    rw [hph] at hp
    exact absurd hp id

/-- The first in the line can get the permit of somebody who has one. -/
theorem Reachable.exists_granted_of_first (hr : h.Reachable config) {w : Nat} {ws : List Nat}
    (hl : h.session.permits.line = w :: ws) :
    ∃ k, h.Reaches k ∧ k.session.phaseOf? w = some .granted ∧ k.session.permits.line = ws := by
  obtain ⟨t, p, ht, hp⟩ := hr.held.holder (hr.held.full (by simp [hl]))
  obtain ⟨k, hk, hrun, hperm⟩ := exists_running_of_holds ht hp
  have hkl : k.session.permits.line = w :: ws := by rw [hperm, hl]
  obtain ⟨task, htask, hph⟩ := Option.map_eq_some_iff.mp hrun
  have hwait := (hr.reaches hk).coherent.waiting w (by simp [hkl])
  obtain ⟨next, hnext, hnp⟩ := Option.map_eq_some_iff.mp hwait
  obtain ⟨hg, hrest⟩ := act_finish .failed htask hph hkl hnext hnp
  exact ⟨k.act (.finish t .failed), .step hk ⟨task, htask, hph⟩, hg, hrest⟩

/-- Who stands in the line can get a permit: everybody before gets one first. -/
theorem Reachable.exists_granted (hr : h.Reachable config) {t : Nat} {pre post : List Nat}
    (hl : h.session.permits.line = pre ++ t :: post) :
    ∃ k, h.Reaches k ∧ k.session.phaseOf? t = some .granted := by
  induction pre generalizing h with
  | nil =>
    obtain ⟨k, hk, hg, -⟩ := hr.exists_granted_of_first hl
    exact ⟨k, hk, hg⟩
  | cons w pre ih =>
    obtain ⟨k, hk, -, hrest⟩ := hr.exists_granted_of_first hl
    obtain ⟨m, hm, hg⟩ := ih (hr.reaches hk) hrest
    exact ⟨m, hk.trans hm, hg⟩

/-- **Every transfer that has not ended can come to run.** -/
theorem Reachable.exists_running (hr : h.Reachable config) {t : Nat} {task : Task}
    (ht : h.session.tasks[t]? = some task) (hp : ¬ task.phase.Ended) :
    ∃ k, h.Reaches k ∧ k.session.phaseOf? t = some .running := by
  have of_granted {k : History} (hk : h.Reaches k) (hg : k.session.phaseOf? t = some .granted) :
      ∃ m, h.Reaches m ∧ m.session.phaseOf? t = some .running := by
    obtain ⟨m, hm, hrun, -⟩ := exists_running_of_holds hg trivial
    exact ⟨m, hk.trans hm, hrun⟩
  have of_waiting {k : History} (hk : h.Reaches k) (hw : k.session.phaseOf? t = some .waiting) :
      ∃ m, h.Reaches m ∧ m.session.phaseOf? t = some .running := by
    have hk' := hr.reaches hk
    obtain ⟨pre, post, hl⟩ := List.append_of_mem (hk'.held.waits t hw)
    obtain ⟨m, hm, hg⟩ := hk'.exists_granted hl
    exact of_granted (hk.trans hm) hg
  have hphase := phaseOf?_of_getElem? ht
  cases hph : task.phase with
  | running => exact ⟨h, .refl _, by rw [hphase, hph]⟩
  | granted => exact of_granted (.refl _) (by rw [hphase, hph])
  | waiting => exact of_waiting (.refl _) (by rw [hphase, hph])
  | launched =>
    have hk : h.Reaches (h.act (.advance t)) := .step (.refl _) ⟨task, ht, hph ▸ trivial⟩
    rcases phaseOf?_act_launched ht hph with hg | hw
    · exact of_granted hk hg
    · exact of_waiting hk hw
  | ended | counted | reported | finished => exact absurd (hph ▸ trivial) hp

/-! ## Submitters -/

variable {r : Nat} {q : Request}

theorem reaches_launch (hq : h.session.requests[r]? = some q)
    (hl : ∀ code, q.launch ≠ .answered code) : h.Reaches (h.act (.launch r)) :=
  .step (.refl h) ⟨q, hq, hl⟩

theorem requests_modifyRequest_self {s : Session} (hq : s.requests[r]? = some q)
    (f : Request → Request) : (s.modifyRequest r f).requests[r]? = some (f q) := by
  rw [requests_modifyRequest, Array.getElem?_modify, if_pos rfl, hq, Option.map_some]

theorem Reachable.exists_launched_of_cleared (hr : h.Reachable config)
    (hq : h.session.requests[r]? = some q) (hl : q.launch = .cleared) :
    ∃ k, h.Reaches k ∧ ∃ (t : Nat) (task : Task),
      k.session.tasks[t]? = some task ∧ task.request = r ∧ task.phase = .launched := by
  have hlt : q.launched < q.pieces.size := by
    have hn := hr.launches hq
    rwa [Request.Launches, hl] at hn
  have hpiece := Array.getElem?_eq_getElem hlt
  refine ⟨_, reaches_launch hq (by simp [hl]), h.session.tasks.size,
    { request := r, piece := q.pieces[q.launched] }, ?_, rfl, rfl⟩
  simp [act, Session.act, Session.launch, Session.modifyRequest, hq, hl, hpiece]

theorem Reachable.exists_launched_of_entered (hr : h.Reachable config)
    (hq : h.session.requests[r]? = some q) (hl : q.launch = .entered)
    (hs : h.session.stopped = false) :
    ∃ k, h.Reaches k ∧ ∃ (t : Nat) (task : Task),
      k.session.tasks[t]? = some task ∧ task.request = r ∧ task.phase = .launched := by
  have hk := reaches_launch hq (by simp [hl])
  have hact : (h.act (.launch r)).session =
      h.session.modifyRequest r ({ · with launch := .cleared }) := by
    simp [act, Session.act, Session.launch, hq, hl, hs]
  have hq' : (h.act (.launch r)).session.requests[r]? = some { q with launch := .cleared } := by
    rw [hact]
    exact requests_modifyRequest_self hq _
  obtain ⟨m, hm, ht⟩ := (hr.reaches hk).exists_launched_of_cleared hq' rfl
  exact ⟨m, hk.trans hm, ht⟩

/-- **A submitter that may launch a chunk can do so.** -/
theorem Reachable.exists_launched (hr : h.Reachable config)
    (hq : h.session.requests[r]? = some q) (hm : q.MayLaunch h.session.stopped) :
    ∃ k, h.Reaches k ∧ ∃ (t : Nat) (task : Task),
      k.session.tasks[t]? = some task ∧ task.request = r ∧ task.phase = .launched := by
  unfold Request.MayLaunch at hm
  split at hm
  · rename_i hl
    have hk := reaches_launch hq (by simp [hl])
    have hact : (h.act (.launch r)).session =
        { h.session with inflight := h.session.inflight + 1 }.modifyRequest r
          ({ · with launch := .entered }) := by
      simp [act, Session.act, Session.launch, hq, hl]
    have hq' : (h.act (.launch r)).session.requests[r]? = some { q with launch := .entered } := by
      rw [hact]
      exact requests_modifyRequest_self hq _
    obtain ⟨m, hm', ht⟩ := (hr.reaches hk).exists_launched_of_entered hq' rfl (by rw [hact]; exact hm)
    exact ⟨m, hk.trans hm', ht⟩
  · rename_i hl
    exact hr.exists_launched_of_entered hq hl hm
  · rename_i hl
    exact hr.exists_launched_of_cleared hq hl
  · exact absurd hm id
  · exact absurd hm id

end History

end RangeFetch
