import RangeFetch.Proofs.Drain
import RangeFetch.Proofs.Progress

/-!
# The limit on transfers that run at once

A permit is left, or a task has it: no step makes one or loses one, whatever a transfer ends in and
whether or not the session is stopped. No more transfers run than there are permits, and once no
task can go on by itself, as many run as the permits and the unfinished tasks allow.

Headlines:
* **`Reachable.permits_eq`**: what became of the permits.
* **`Reachable.running_le`** and **`Reachable.running_eq`**: how many transfers run.
-/

namespace RangeFetch

instance : DecidablePred Phase.Holds
  | .granted | .running => isTrue trivial
  | .launched | .waiting | .ended _ | .counted .. | .reported .. | .finished .. => isFalse id

namespace Session

/-- How many tasks have a permit. -/
def holding (s : Session) : Nat :=
  s.tasks.countP (·.phase.Holds)

/-- How many transfers run: they are started and have not ended. -/
def running (s : Session) : Nat :=
  s.tasks.countP (·.phase = .running)

/-- No task can go on by itself. -/
def Parked (s : Session) : Prop :=
  ∀ (t : Nat) (p : Phase), s.phaseOf? t = some p → ¬ Phase.Moves p

/-- How many tasks before task `t` are not finished. -/
def unfinishedBefore (s : Session) (t : Nat) : Nat :=
  (s.tasks.toList.take t).countP (¬ ·.phase.Finished)

end Session

namespace History

variable {config : Config} {h k : History}

/-! ## Permits -/

theorem lt_of_phaseOf? {s : Session} {t : Nat} {p : Phase} (ht : s.phaseOf? t = some p) :
    t < s.tasks.size := by
  obtain ⟨task, htask, -⟩ := Option.map_eq_some_iff.mp ht
  exact (Array.getElem?_eq_some_iff.mp htask).1

theorem exists_phaseOf? {s : Session} {t : Nat} (ht : t < s.tasks.size) :
    ∃ p, s.phaseOf? t = some p :=
  ⟨_, phaseOf?_of_getElem? (Array.getElem?_eq_getElem ht)⟩

theorem holding_modify {s s' : Session} {t : Nat} {task : Task} {p : Phase}
    (hk : s'.tasks = s.tasks.modify t ({ · with phase := p })) (ht : s.tasks[t]? = some task) :
    s'.holding + (if task.phase.Holds then 1 else 0) = s.holding + if p.Holds then 1 else 0 := by
  have hcount := countP_modify (p := fun task : Task => decide task.phase.Holds)
    (f := ({ · with phase := p })) ht
  rw [← hk] at hcount
  simpa [Session.holding] using hcount

/-- `m` permits are left or with a task. -/
def Permitted (m : Nat) (h : History) : Prop :=
  h.session.permits.available + h.session.holding = m

/-- A task moves on, and takes a permit or gives one back. -/
theorem Permitted.move {m : Nat} (hi : h.Permitted m) {t : Nat} {task : Task} {p : Phase}
    (ht : h.session.tasks[t]? = some task)
    (hk : k.session.tasks = h.session.tasks.modify t ({ · with phase := p }))
    (hp : k.session.permits.available + (if p.Holds then 1 else 0) =
      h.session.permits.available + if task.phase.Holds then 1 else 0) : k.Permitted m := by
  have hcount := holding_modify hk ht
  unfold Permitted at hi ⊢
  omega

theorem Permitted.step {m : Nat} (hi : h.Permitted m) (hs : Step h k) : k.Permitted m := by
  cases hs with
  | idle | accept | enter | look | giveUp | write | close | raise | halt | drain | take => exact hi
  | launch =>
    unfold Permitted Session.holding
    show _ + (h.session.tasks.push _).countP _ = m
    rw [Array.countP_push]
    exact hi
  | @grant t task ht hp ha =>
    refine hi.move ht (tasks_modifyTask ..) ?_
    rw [hp]
    show h.session.permits.available - 1 + 1 = h.session.permits.available + 0
    omega
  | line ht hp | begin ht hp | count ht hp | push ht hp | pass ht hp | leave ht hp =>
    refine hi.move ht (tasks_modifyTask ..) ?_
    rw [hp]
    rfl
  | finish ht hp =>
    refine hi.move ht (tasks_modifyTask ..) ?_
    rw [hp]
    rfl
  | @handOver t w ws task next o ht hp hw hn hnp =>
    have hne : t ≠ w := ne_of_running_waiting ht hp hn hnp
    -- The permit is with nobody between the two tasks.
    have hmid : Permitted m { h with
        session := { h.session with
          permits := { available := h.session.permits.available + 1, line := ws } }.modifyTask t
            ({ · with phase := .ended o }) } := by
      refine hi.move ht (tasks_modifyTask ..) ?_
      rw [hp]
      rfl
    have hn' : (h.session.tasks.modify t ({ · with phase := .ended o }))[w]? = some next := by
      rw [Array.getElem?_modify, if_neg hne]
      exact hn
    refine hmid.move hn' (tasks_modifyTask ..) ?_
    rw [hnp]
    rfl

/-- **No permit is lost**: each is left, or with a task. -/
theorem Reachable.permits_eq (hr : h.Reachable config) :
    h.session.permits.available + h.session.holding = config.maxConcurrency.toNat :=
  hr.induct (P := Permitted config.maxConcurrency.toNat) rfl fun _ _ hi hs => hi.step hs

/-! ## Transfers that run -/

end History

namespace Session

variable {s : Session}

theorem running_le_holding (s : Session) : s.running ≤ s.holding := by
  unfold running holding
  rw [← Array.countP_toList, ← Array.countP_toList]
  refine List.countP_mono_left fun task _ hp => ?_
  rw [decide_eq_true_eq] at hp ⊢
  rw [hp]
  trivial

/-- A task whose transfer runs is not finished. -/
theorem countP_running_le (l : List Task) :
    l.countP (·.phase = .running) ≤ l.countP (¬ ·.phase.Finished) := by
  refine List.countP_mono_left fun task _ hp => ?_
  rw [decide_eq_true_eq] at hp ⊢
  rw [hp]
  exact id

theorem running_le_unfinished (s : Session) : s.running ≤ s.unfinished := by
  unfold running unfinished
  rw [← Array.countP_toList, ← Array.countP_toList]
  exact countP_running_le _

/-- Where no task can go on, each waits, runs its transfer or is finished. -/
theorem Parked.phase (hs : s.Parked) {t : Nat} {p : Phase} (ht : s.phaseOf? t = some p) :
    p = .waiting ∨ p = .running ∨ p.Finished := by
  have hp := hs t p ht
  cases p with
  | waiting => exact Or.inl rfl
  | running => exact Or.inr (Or.inl rfl)
  | finished => exact Or.inr (Or.inr trivial)
  | launched | granted | ended | counted | reported => exact absurd trivial hp

/-- What a count says of the phases may be said of the tasks by their numbers. -/
theorem countP_congr_phase {p q : Phase → Bool}
    (hpq : ∀ (t : Nat) (x : Phase), s.phaseOf? t = some x → p x = q x) :
    s.tasks.countP (p ·.phase) = s.tasks.countP (q ·.phase) := by
  refine Array.countP_congr fun task hm => ?_
  obtain ⟨t, ht⟩ := Array.mem_iff_getElem?.mp hm
  rw [hpq t task.phase (History.phaseOf?_of_getElem? ht)]

/-- Tasks may be counted by their numbers. -/
theorem countP_range (s : Session) (p : Phase → Bool) :
    s.tasks.countP (p ·.phase) =
      (List.range s.tasks.size).countP fun t => (s.phaseOf? t).any p := by
  have hmap : s.tasks.toList.map (p ·.phase) =
      (List.range s.tasks.size).map fun t => (s.phaseOf? t).any p := by
    refine List.ext_getElem (by simp) fun t ht _ => ?_
    have htask : t < s.tasks.size := by simpa using ht
    simp [phaseOf?, Array.getElem?_eq_getElem htask]
  have hcount := congrArg (List.countP id) hmap
  rw [List.countP_map, List.countP_map] at hcount
  rw [← Array.countP_toList]
  exact hcount

/-- A list of the transfers that run is as long as there are such. -/
theorem length_eq_running {l : List Nat} (hn : l.Nodup)
    (hm : ∀ t, t ∈ l ↔ s.phaseOf? t = some .running) : l.length = s.running := by
  have hperm : l.Perm ((List.range s.tasks.size).filter fun t =>
      (s.phaseOf? t).any (decide <| · = .running)) := by
    refine (List.perm_ext_iff_of_nodup hn (List.nodup_range.filter _)).mpr fun t => ?_
    rw [hm, List.mem_filter, List.mem_range]
    constructor
    · intro ht
      obtain ⟨task, htask, -⟩ := Option.map_eq_some_iff.mp ht
      exact ⟨(Array.getElem?_eq_some_iff.mp htask).1, by rw [ht]; rfl⟩
    · rintro ⟨-, ht⟩
      obtain ⟨p, hp, hrun⟩ := (Option.any_eq_true _ _).mp ht
      rw [hp, of_decide_eq_true hrun]
  rw [hperm.length_eq, ← List.countP_eq_length_filter, running]
  exact (countP_range s (decide <| · = .running)).symm

/-- Fewer elements have a property when none comes to have it and one loses it. -/
theorem countP_lt {α : Type} {p q : α → Bool} {l : List α} {a : α}
    (hqp : ∀ b ∈ l, q b = true → p b = true) (ha : a ∈ l) (hp : p a = true) (hq : q a = false) :
    l.countP q < l.countP p := by
  obtain ⟨l₁, l₂, rfl⟩ := List.append_of_mem ha
  have h₁ := List.countP_mono_left fun b hb => hqp b (List.mem_append_left _ hb)
  have h₂ := List.countP_mono_left fun b hb =>
    hqp b (List.mem_append_right l₁ (List.mem_cons_of_mem a hb))
  simp only [List.countP_append, List.countP_cons, hp, hq]
  simp
  omega

/-- A task more is finished, and none less: fewer are not. -/
theorem unfinished_lt {s' : Session} {t : Nat} {p q : Phase}
    (hsize : s'.tasks.size = s.tasks.size)
    (hkeep : ∀ u x, s.phaseOf? u = some x → x.Finished → s'.phaseOf? u = some x)
    (ht : s.phaseOf? t = some p) (hp : ¬ p.Finished) (ht' : s'.phaseOf? t = some q)
    (hq : q.Finished) : s'.unfinished < s.unfinished := by
  rw [unfinished, unfinished, countP_range s' (decide <| ¬ Phase.Finished ·),
    countP_range s (decide <| ¬ Phase.Finished ·), hsize]
  refine countP_lt (a := t) (fun u hmem hu => ?_) ?_ (by simpa [ht] using hp) (by simpa [ht'] using hq)
  · rw [List.mem_range] at hmem
    obtain ⟨x, hx⟩ := History.exists_phaseOf? hmem
    obtain ⟨y, hy, hopen⟩ := (Option.any_eq_true _ _).mp hu
    refine (Option.any_eq_true _ _).mpr ⟨x, hx, decide_eq_true fun hfin => ?_⟩
    obtain rfl := Option.some.inj ((hkeep u x hx hfin).symm.trans hy)
    exact of_decide_eq_true hopen hfin
  · exact List.mem_range.mpr (History.lt_of_phaseOf? ht)

end Session

namespace History

variable {config : Config} {h k : History}

/-- **No more transfers run at once than the limit says.** -/
theorem Reachable.running_le (hr : h.Reachable config) :
    h.session.running ≤ config.maxConcurrency.toNat := by
  have hle := h.session.running_le_holding
  have hsum := hr.permits_eq
  omega

/-- Somebody waits only while all permits are with transfers that run. -/
theorem Reachable.running_of_waiting (hr : h.Reachable config) (hs : h.session.Parked) {t : Nat}
    (ht : h.session.phaseOf? t = some .waiting) :
    h.session.running = config.maxConcurrency.toNat := by
  have hnone : h.session.permits.available = 0 :=
    hr.held.full (List.ne_nil_of_mem (hr.held.waits t ht))
  have hall : h.session.running = h.session.holding := by
    refine Session.countP_congr_phase (p := (decide <| · = .running))
      (q := (decide <| Phase.Holds ·)) fun u p hu => ?_
    obtain rfl | rfl | hp := hs.phase hu
    · rfl
    · rfl
    · cases p with
      | finished => rfl
      | launched | waiting | granted | running | ended | counted | reported => exact absurd hp id
  have hsum := hr.permits_eq
  omega

/-- **As many transfers run as can**, once no task can go on by itself. -/
theorem Reachable.running_eq (hr : h.Reachable config) (hs : h.session.Parked) :
    h.session.running = min config.maxConcurrency.toNat h.session.unfinished := by
  have hle := hr.running_le
  have hun := h.session.running_le_unfinished
  by_cases hw : ∃ t, h.session.phaseOf? t = some .waiting
  · obtain ⟨t, ht⟩ := hw
    have hfull := hr.running_of_waiting hs ht
    omega
  · have hall : h.session.running = h.session.unfinished := by
      refine Session.countP_congr_phase (p := (decide <| · = .running))
        (q := (decide <| ¬ Phase.Finished ·)) fun u p hu => ?_
      obtain rfl | rfl | hp := hs.phase hu
      · exact absurd ⟨u, hu⟩ hw
      · rfl
      · cases p with
        | finished => rfl
        | launched | waiting | granted | running | ended | counted | reported =>
          exact absurd hp id
    omega

end History

end RangeFetch
