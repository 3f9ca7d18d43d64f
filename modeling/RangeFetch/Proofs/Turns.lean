import Mathlib.Data.Nat.Find
import RangeFetch.Proofs.Admission
import RangeFetch.Proofs.Limit

/-!
# Tasks that take their turns in order

Nothing in the steps says in which order the tasks take their turns. Where they ask for their permits
in the order in which they were launched (`Session.AsksInTurn`), they are let in in that order: the
line for the permits is in order, and a permit that comes back goes to the first in the line. A task
that is let in makes its call when it takes its next turn. Where who has waited longest also goes on
first (`Session.InTurn`), the calls come in the order of the launches too.

That order is the order of the submits as far as these follow each other: a request whose submit has
returned has all its tasks before those of every later request.

Headlines:
* **`Step.phase`**: where a step leaves a task.
* **`LetsIn`** has the runs whose tasks ask in order, with the tasks in the order in which they are
  let in; **`LetsIn.eq_range`**: these are the first ones that were launched.
* **`Paced`** has the runs whose tasks go on in order as well; **`Paced.started_prefix`**: in such a
  run the calls are those of the first tasks, in order.
* **`LetsIn.started_of_few`**: a transfer is started once few enough before it are unfinished.
* **`Reachable.launch_order`**: the order in which chunks are launched.
-/

namespace RangeFetch

/-! ## The way of a task -/

namespace Phase

/-- How far a task has come on the way through the limiter. -/
def rank : Phase → Nat
  | .launched => 0
  | .waiting => 1
  | .granted | .running | .ended _ | .counted .. | .reported .. | .finished .. => 2

/-- The task was given a permit. -/
def LetIn : Phase → Prop
  | .launched | .waiting => False
  | .granted | .running | .ended _ | .counted .. | .reported .. | .finished .. => True

instance : DecidablePred LetIn
  | .launched | .waiting => isFalse id
  | .granted | .running | .ended _ | .counted .. | .reported .. | .finished .. => isTrue trivial

/-- The task is about to ask for a permit, or to start with the one that it has. -/
def Ready : Phase → Prop
  | .launched | .granted => True
  | .waiting | .running | .ended _ | .counted .. | .reported .. | .finished .. => False

/-- The phase that a task comes to next. -/
inductive Leads : Phase → Phase → Prop where
  | grant : Leads .launched .granted
  | line : Leads .launched .waiting
  | handOver : Leads .waiting .granted
  | begin : Leads .granted .running
  | finish (o : Outcome) : Leads .running (.ended o)
  | count (o : Outcome) (code : Option Code) : Leads (.ended o) (.counted o code)
  | report (o : Outcome) (code : Option Code) : Leads (.counted o code) (.reported o code)
  | leave (o : Outcome) (code : Option Code) : Leads (.reported o code) (.finished o code)

variable {p q : Phase}

theorem letIn_iff_rank : p.LetIn ↔ p.rank = 2 := by
  cases p <;> simp [LetIn, rank]

theorem rank_le_two (p : Phase) : p.rank ≤ 2 := by
  cases p <;> simp [rank]

theorem started_iff : p.Started ↔ p.LetIn ∧ p ≠ .granted := by
  cases p <;> simp [Started, LetIn]

/-- Who was let in stays so. -/
theorem Leads.letIn (h : p.Leads q) (hp : p.LetIn) : q.LetIn := by
  cases h with
  | grant | line | handOver => exact absurd hp id
  | begin | finish | count | report | leave => trivial

end Phase

namespace Session

/-- From `s` to `s'` no task comes out of phase `p` before an earlier task that is in it. -/
def LeavesInTurn (s : Session) (p : Phase) (s' : Session) : Prop :=
  ∀ t u : Nat, t < u → s.phaseOf? t = some p → s.phaseOf? u = some p → s'.phaseOf? u = some p

/-- From `s` to `s'` the tasks ask for their permits in the order in which they were launched. -/
def AsksInTurn (s s' : Session) : Prop :=
  s.LeavesInTurn .launched s'

/-- From `s` to `s'` the tasks ask for their permits in the order in which they were launched, and go
on with them in the order in which they asked: who has waited longest goes on first. -/
structure InTurn (s s' : Session) : Prop where
  asks : s.AsksInTurn s'
  goesOn : s.LeavesInTurn .granted s'

/-- No task has come farther than an earlier one on the way through the limiter. -/
def Ordered (s : Session) : Prop :=
  ∀ (t u : Nat) (p q : Phase), t < u → s.phaseOf? t = some p → s.phaseOf? u = some q →
    q.rank ≤ p.rank

/-- Task `t` was given a permit. -/
def WasLetIn (s : Session) (t : Nat) : Prop :=
  (s.phaseOf? t).any (decide <| Phase.LetIn ·) = true

instance (s : Session) : DecidablePred s.WasLetIn :=
  fun _ => inferInstanceAs (Decidable (_ = true))

/-- The tasks that are let in from `s` to `s'`. -/
def letIn (s s' : Session) : List Nat :=
  (List.range s'.tasks.size).filter fun t => s'.WasLetIn t ∧ ¬ s.WasLetIn t

theorem wasLetIn_iff {s : Session} {t : Nat} :
    s.WasLetIn t ↔ ∃ p, s.phaseOf? t = some p ∧ p.LetIn := by
  rw [WasLetIn, Option.any_eq_true]
  exact exists_congr fun p => and_congr_right fun _ => decide_eq_true_iff

end Session

namespace History

/-- The histories that steps lead to from `h` when the tasks ask and go on in turn. -/
inductive Paces : History → History → Prop where
  | refl (h : History) : Paces h h
  | step {h k : History} {a : Session.Action} : Paces h k → k.session.Enabled a →
      k.session.InTurn (k.act a).session → Paces h (k.act a)

/-- The histories of a session that was made with `config` whose tasks asked and went on in turn. -/
def Paced (config : Config) (h : History) : Prop :=
  ∃ s₀, Session.start config = .ok s₀ ∧ Paces { session := s₀ } h

/-- The histories of a session that was made with `config` whose tasks asked for their permits in
order, with the tasks that were let in, in that order. Which turns a task takes when it has a permit,
and in which order several such tasks take theirs, is open. -/
inductive LetsIn (config : Config) : List Nat → History → Prop where
  | start {s₀ : Session} (hs : Session.start config = .ok s₀) : LetsIn config [] { session := s₀ }
  | step {l : List Nat} {h : History} {a : Session.Action} : LetsIn config l h →
      h.session.Enabled a → h.session.AsksInTurn (h.act a).session →
      LetsIn config (l ++ h.session.letIn (h.act a).session) (h.act a)

variable {config : Config} {h k : History} {l : List Nat}

theorem Paces.reaches (hk : h.Paces k) : h.Reaches k := by
  induction hk with
  | refl => exact .refl _
  | step _ he _ ih => exact .step ih he

theorem Paces.trans {m : History} (hk : h.Paces k) (hm : k.Paces m) : h.Paces m := by
  induction hm with
  | refl => exact hk
  | step _ he ht ih => exact .step ih he ht

theorem Paced.reachable (hp : h.Paced config) : h.Reachable config := by
  obtain ⟨s₀, hs, hh⟩ := hp
  exact ⟨s₀, hs, hh.reaches⟩

theorem Paced.paces (hp : h.Paced config) (hk : h.Paces k) : k.Paced config := by
  obtain ⟨s₀, hs, hh⟩ := hp
  exact ⟨s₀, hs, hh.trans hk⟩

theorem Paced.exists_letsIn (hp : h.Paced config) : ∃ l, LetsIn config l h := by
  obtain ⟨s₀, hs, hh⟩ := hp
  induction hh with
  | refl => exact ⟨[], .start hs⟩
  | step _ he hturn ih =>
    obtain ⟨l, hl⟩ := ih
    exact ⟨_, .step hl he hturn.asks⟩

theorem LetsIn.reachable (ha : LetsIn config l h) : h.Reachable config := by
  induction ha with
  | start hs => exact ⟨_, hs, .refl _⟩
  | step _ he _ ih => exact ih.reaches (.step (.refl _) he)

/-! ## Where a step leaves a task -/

/-- A task stays, or comes to its next phase. -/
theorem moves_of_modify {t u : Nat} {task : Task} {p q : Phase}
    (ht : h.session.tasks[t]? = some task)
    (hk : k.session.tasks = h.session.tasks.modify t ({ · with phase := p }))
    (hp : task.phase.Leads p) (hu : h.session.phaseOf? u = some q) :
    ∃ x, k.session.phaseOf? u = some x ∧ (x = q ∨ q.Leads x) := by
  rw [phaseOf?_moved ht hk]
  split
  · rename_i hut
    obtain rfl := Option.some.inj ((phaseOf?_of_getElem? ht).symm.trans (hut ▸ hu))
    exact ⟨p, rfl, Or.inr hp⟩
  · exact ⟨q, hu, Or.inl rfl⟩

/-- **A step leaves a task where it is, or brings it to its next phase.** -/
theorem Step.phase (hs : Step h k) {u : Nat} {q : Phase} (hu : h.session.phaseOf? u = some q) :
    ∃ x, k.session.phaseOf? u = some x ∧ (x = q ∨ q.Leads x) := by
  cases hs with
  | idle | accept | enter | look | giveUp | write | close | raise | halt | drain | take =>
    exact ⟨q, hu, Or.inl rfl⟩
  | launch =>
    refine ⟨q, ?_, Or.inl rfl⟩
    rw [phaseOf?_push rfl, if_neg (Nat.ne_of_lt (lt_of_phaseOf? hu))]
    exact hu
  | grant ht hp => exact moves_of_modify ht (tasks_modifyTask ..) (by rw [hp]; exact .grant) hu
  | line ht hp => exact moves_of_modify ht (tasks_modifyTask ..) (by rw [hp]; exact .line) hu
  | begin ht hp => exact moves_of_modify ht (tasks_modifyTask ..) (by rw [hp]; exact .begin) hu
  | finish ht hp => exact moves_of_modify ht (tasks_modifyTask ..) (by rw [hp]; exact .finish _) hu
  | count ht hp => exact moves_of_modify ht (tasks_modifyTask ..) (by rw [hp]; exact .count ..) hu
  | push ht hp | pass ht hp =>
    exact moves_of_modify ht (tasks_modifyTask ..) (by rw [hp]; exact .report ..) hu
  | leave ht hp => exact moves_of_modify ht (tasks_modifyTask ..) (by rw [hp]; exact .leave ..) hu
  | @handOver t w ws task next o ht hp hw hn hnp =>
    have hne : t ≠ w := ne_of_running_waiting ht hp hn hnp
    let mid : History := { h with
      session := { h.session with permits := { h.session.permits with line := ws } }.modifyTask t
        ({ · with phase := .ended o }) }
    have hn' : mid.session.tasks[w]? = some next := by
      show (h.session.tasks.modify t _)[w]? = some next
      rw [Array.getElem?_modify, if_neg hne]
      exact hn
    -- Two tasks move, so that the one that is asked for is another than one of them.
    by_cases huw : u = w
    · subst huw
      obtain rfl := Option.some.inj ((phaseOf?_of_getElem? hn).symm.trans hu)
      refine ⟨.granted, ?_, Or.inr (hnp ▸ .handOver)⟩
      rw [phaseOf?_moved (h := mid) hn' (tasks_modifyTask ..), if_pos rfl]
    · rw [phaseOf?_moved (h := mid) hn' (tasks_modifyTask ..), if_neg huw]
      exact moves_of_modify (k := mid) ht (tasks_modifyTask ..) (by rw [hp]; exact .finish o) hu

/-- No step takes a permit back from a task that was let in. -/
theorem Step.wasLetIn (hs : Step h k) {t : Nat} (ht : h.session.WasLetIn t) :
    k.session.WasLetIn t := by
  obtain ⟨p, hp, hin⟩ := Session.wasLetIn_iff.mp ht
  obtain ⟨q, hq, rfl | hlead⟩ := hs.phase hp
  · exact Session.wasLetIn_iff.mpr ⟨q, hq, hin⟩
  · exact Session.wasLetIn_iff.mpr ⟨q, hq, hlead.letIn hin⟩

/-- Once all tasks were let in, nobody asks before his turn. -/
theorem asksInTurn_of_letIn (hall : ∀ t < h.session.tasks.size, h.session.WasLetIn t) (s : Session) :
    h.session.AsksInTurn s := by
  intro t u _ ht
  obtain ⟨p, hp, hin⟩ := Session.wasLetIn_iff.mp (hall t (lt_of_phaseOf? ht))
  obtain rfl := Option.some.inj (ht.symm.trans hp)
  exact absurd hin id

/-! ## The order of the tasks -/

/-- A task moves on, and passes nobody. -/
theorem ordered_move (ho : h.session.Ordered) {t : Nat} {task : Task} {p : Phase}
    (ht : h.session.tasks[t]? = some task)
    (hk : k.session.tasks = h.session.tasks.modify t ({ · with phase := p }))
    (hup : task.phase.rank ≤ p.rank)
    (hbefore : ∀ (u : Nat) (q : Phase), u < t → h.session.phaseOf? u = some q →
      p.rank ≤ q.rank) : k.session.Ordered := by
  intro u v q q' huv hu hv
  rw [phaseOf?_moved ht hk] at hu hv
  have hphase := phaseOf?_of_getElem? ht
  split at hu
  · rename_i hut
    obtain rfl := Option.some.inj hu
    rw [if_neg (by omega)] at hv
    exact Nat.le_trans (ho u v _ q' huv (hut ▸ hphase) hv) hup
  · split at hv
    · rename_i hvt
      obtain rfl := Option.some.inj hv
      exact hbefore u q (hvt ▸ huv) hu
    · exact ho u v q q' huv hu hv

/-- A task moves on by as little as leaves its rank. -/
theorem ordered_stay (ho : h.session.Ordered) {t : Nat} {task : Task} {p : Phase}
    (ht : h.session.tasks[t]? = some task)
    (hk : k.session.tasks = h.session.tasks.modify t ({ · with phase := p }))
    (hp : p.rank = task.phase.rank) : k.session.Ordered := by
  refine ordered_move ho ht hk (Nat.le_of_eq hp.symm) fun u q hut hu => ?_
  rw [hp]
  exact ho u t q _ hut hu (phaseOf?_of_getElem? ht)

/-- A task that comes out of a phase in turn is the first that is in it. -/
theorem first_of_leavesInTurn {t : Nat} {task : Task} {p q : Phase}
    (hturn : h.session.LeavesInTurn q k.session) (hq : h.session.phaseOf? t = some q)
    (ht : h.session.tasks[t]? = some task)
    (hk : k.session.tasks = h.session.tasks.modify t ({ · with phase := p }))
    (hne : p ≠ q) : ∀ u, u < t → h.session.phaseOf? u ≠ some q := by
  intro u hut hu
  have hstay := hturn u t hut hu hq
  rw [phaseOf?_moved ht hk, if_pos rfl] at hstay
  exact hne (Option.some.inj hstay)

/-- The tasks are in line: none has come farther than an earlier one, and they wait in order. -/
structure Queued (h : History) : Prop where
  ordered : h.session.Ordered
  line : h.session.permits.line.Pairwise (· < ·)

/-- Who waits stands before a task that has not asked for a permit yet. -/
theorem Queued.lt_of_waits (hi : h.Queued) {t w : Nat} (ht : h.session.phaseOf? t = some .launched)
    (hw : h.session.phaseOf? w = some .waiting) : w < t := by
  rcases Nat.lt_trichotomy w t with hlt | rfl | hgt
  · exact hlt
  · exact absurd (hw.symm.trans ht) (by simp)
  · exact absurd (hi.ordered t w _ _ hgt ht hw) (by simp [Phase.rank])

/-- Everybody before the first in the line was let in. -/
theorem Queued.rank_before (hi : h.Queued) (hr : h.Reachable config) {w : Nat} {ws : List Nat}
    (hw : h.session.permits.line = w :: ws) {u : Nat} {p : Phase} (huw : u < w)
    (hu : h.session.phaseOf? u = some p) : Phase.rank .granted ≤ p.rank := by
  have hrank := hi.ordered u w p _ huw hu (hr.coherent.waiting w (by simp [hw]))
  have hline := hi.line
  rw [hw] at hline
  cases p with
  | launched => exact absurd hrank (by simp [Phase.rank])
  | waiting =>
    have hin := hr.held.waits u hu
    rw [hw] at hin
    rcases List.mem_cons.mp hin with rfl | hin
    · exact absurd huw (Nat.lt_irrefl u)
    · exact absurd ((List.pairwise_cons.mp hline).1 u hin) (Nat.lt_asymm huw)
  | granted | running | ended | counted | reported | finished => exact Nat.le_refl _

theorem Queued.step (hr : h.Reachable config) (hi : h.Queued) (hs : Step h k)
    (hturn : h.session.AsksInTurn k.session) : k.Queued := by
  have hordered := hi.ordered
  cases hs with
  | idle => exact hi
  | accept | enter | look | giveUp | write | close | raise | halt | drain | take =>
    exact ⟨hi.ordered, hi.line⟩
  | begin ht hp | count ht hp | push ht hp | pass ht hp | leave ht hp | finish ht hp =>
    refine ⟨ordered_stay hordered ht (tasks_modifyTask ..) ?_, hi.line⟩
    rw [hp]
    rfl
  | launch =>
    refine ⟨?_, hi.line⟩
    intro t u p q htu ht hu
    rw [phaseOf?_push rfl] at ht hu
    split at hu
    · obtain rfl := Option.some.inj hu
      exact Nat.zero_le _
    · have hlt := lt_of_phaseOf? hu
      rw [if_neg (by omega)] at ht
      exact hordered t u p q htu ht hu
  | @grant t task ht hp ha =>
    have hphase := hp ▸ phaseOf?_of_getElem? ht
    have hfirst := first_of_leavesInTurn hturn hphase ht (tasks_modifyTask ..) (by simp)
    refine ⟨ordered_move hordered ht (tasks_modifyTask ..) (by rw [hp]; exact Nat.zero_le _) ?_,
      hi.line⟩
    intro u q hut hu
    cases q with
    | launched => exact absurd hu (hfirst u hut)
    | waiting => exact absurd (hr.held.full (List.ne_nil_of_mem (hr.held.waits u hu))) ha
    | granted | running | ended | counted | reported | finished => exact Nat.le_refl _
  | @line t task ht hp ha =>
    have hphase := hp ▸ phaseOf?_of_getElem? ht
    have hfirst := first_of_leavesInTurn hturn hphase ht (tasks_modifyTask ..) (by simp)
    refine ⟨ordered_move hordered ht (tasks_modifyTask ..) (by rw [hp]; exact Nat.zero_le _) ?_, ?_⟩
    · intro u q hut hu
      cases q with
      | launched => exact absurd hu (hfirst u hut)
      | waiting | granted | running | ended | counted | reported | finished => simp [Phase.rank]
    · refine List.pairwise_append.mpr ⟨hi.line, List.pairwise_singleton .., ?_⟩
      intro w hw u hu
      obtain rfl := List.mem_singleton.mp hu
      exact hi.lt_of_waits hphase (hr.coherent.waiting w hw)
  | @handOver t w ws task next o ht hp hw hn hnp =>
    have hne : t ≠ w := ne_of_running_waiting ht hp hn hnp
    let mid : History := { h with
      session := { h.session with permits := { h.session.permits with line := ws } }.modifyTask t
        ({ · with phase := .ended o }) }
    have hmid : mid.session.Ordered := by
      refine ordered_stay hordered ht (tasks_modifyTask ..) ?_
      rw [hp]
      rfl
    have hn' : mid.session.tasks[w]? = some next := by
      show (h.session.tasks.modify t _)[w]? = some next
      rw [Array.getElem?_modify, if_neg hne]
      exact hn
    have hline := hi.line
    rw [hw] at hline
    refine ⟨ordered_move hmid hn' (tasks_modifyTask ..) (by rw [hnp]; simp [Phase.rank]) ?_,
      (List.pairwise_cons.mp hline).2⟩
    intro u q huw hu
    rw [phaseOf?_moved ht (tasks_modifyTask ..)] at hu
    split at hu
    · obtain rfl := Option.some.inj hu
      exact Nat.le_refl _
    · exact hi.rank_before hr hw huw hu

theorem LetsIn.queued (ha : LetsIn config l h) : h.Queued := by
  induction ha with
  | start hs =>
    rw [start_eq hs]
    exact ⟨fun t u p q _ ht => absurd ht (by simp [new, Session.phaseOf?]), .nil⟩
  | step ha he hturn ih => exact ih.step ha.reachable (step_act ha.reachable.coherent he) hturn

/-! ## Who is let in -/

/-- Whoever was let in has all earlier tasks before him. -/
theorem Queued.wasLetIn_of_lt (hi : h.Queued) {t u : Nat} (htu : t < u)
    (hu : h.session.WasLetIn u) : h.session.WasLetIn t := by
  obtain ⟨q, hq, hin⟩ := Session.wasLetIn_iff.mp hu
  obtain ⟨p, hp⟩ := exists_phaseOf? (Nat.lt_trans htu (lt_of_phaseOf? hq))
  have hrank := hi.ordered t u p q htu hp hq
  rw [Phase.letIn_iff_rank.mp hin] at hrank
  exact Session.wasLetIn_iff.mpr
    ⟨p, hp, Phase.letIn_iff_rank.mpr (Nat.le_antisymm p.rank_le_two hrank)⟩

/-- The tasks that were let in are the first ones. -/
theorem Queued.exists_lt_iff (hi : h.Queued) : ∃ n, ∀ t, h.session.WasLetIn t ↔ t < n := by
  have hlast : ∃ t, ¬ h.session.WasLetIn t := by
    refine ⟨h.session.tasks.size, fun hin => ?_⟩
    obtain ⟨p, hp, -⟩ := Session.wasLetIn_iff.mp hin
    exact Nat.lt_irrefl _ (lt_of_phaseOf? hp)
  refine ⟨Nat.find hlast, fun t => ⟨fun hin => Nat.lt_of_not_le fun hle => ?_, fun hlt => ?_⟩⟩
  · rcases Nat.eq_or_lt_of_le hle with heq | hlt
    · exact Nat.find_spec hlast (heq ▸ hin)
    · exact Nat.find_spec hlast (hi.wasLetIn_of_lt hlt hin)
  · exact Decidable.not_not.mp (Nat.find_min hlast hlt)

/-- The list has those that were let in. -/
theorem LetsIn.mem_iff (ha : LetsIn config l h) {t : Nat} : t ∈ l ↔ h.session.WasLetIn t := by
  induction ha generalizing t with
  | start hs =>
    rw [start_eq hs]
    simp [Session.WasLetIn, new, Session.phaseOf?]
  | @step l h a ha he _ ih =>
    have hstep := step_act ha.reachable.coherent he
    rw [List.mem_append, ih, Session.letIn, List.mem_filter, List.mem_range, decide_eq_true_iff]
    constructor
    · rintro (hin | ⟨-, hin, -⟩)
      · exact hstep.wasLetIn hin
      · exact hin
    · intro hin
      by_cases hold : h.session.WasLetIn t
      · exact Or.inl hold
      · obtain ⟨p, hp, -⟩ := Session.wasLetIn_iff.mp hin
        exact Or.inr ⟨lt_of_phaseOf? hp, hin, hold⟩

/-- Nobody is let in before an earlier task. -/
theorem LetsIn.pairwise (ha : LetsIn config l h) : l.Pairwise (· < ·) := by
  induction ha with
  | start => exact .nil
  | @step l h a ha he hturn ih =>
    refine List.pairwise_append.mpr ⟨ih, List.pairwise_lt_range.filter _, fun t ht u hu => ?_⟩
    have hnot : ¬ h.session.WasLetIn u := (of_decide_eq_true (List.mem_filter.mp hu).2).2
    refine Nat.lt_of_not_le fun hle => hnot ?_
    rcases Nat.eq_or_lt_of_le hle with rfl | hlt
    · exact ha.mem_iff.mp ht
    · exact ha.queued.wasLetIn_of_lt hlt (ha.mem_iff.mp ht)

/-- If those before task `n` were let in and nobody else, then in their order. -/
theorem LetsIn.eq_range_of_iff (ha : LetsIn config l h) {n : Nat}
    (hn : ∀ t, h.session.WasLetIn t ↔ t < n) : l = List.range n := by
  have hperm : l.Perm (List.range n) := by
    refine (List.perm_ext_iff_of_nodup (ha.pairwise.imp Nat.ne_of_lt) List.nodup_range).mpr ?_
    intro t
    rw [ha.mem_iff, hn, List.mem_range]
  exact hperm.eq_of_pairwise (fun _ _ _ _ hab hba => absurd hab (Nat.lt_asymm hba)) ha.pairwise
    List.pairwise_lt_range

/-- **The tasks are let in in the order in which they were launched.** -/
theorem LetsIn.eq_range (ha : LetsIn config l h) : l = List.range l.length := by
  obtain ⟨n, hn⟩ := ha.queued.exists_lt_iff
  have hl := ha.eq_range_of_iff hn
  rw [hl, List.length_range]

/-! ## Who makes a call -/

/-- The tasks are in line, and those that have made their calls are the first. -/
structure Lined (h : History) : Prop extends h.Queued where
  starts : h.session.starts.toList = List.range h.session.starts.size

/-- The started tasks are those below their number. -/
theorem Lined.lt_starts_iff (hi : h.Lined) (hr : h.Reachable config) {t : Nat} :
    t < h.session.starts.size ↔ ∃ p, h.session.phaseOf? t = some p ∧ p.Started := by
  rw [← List.mem_range, ← hi.starts, hr.recorded.mem_starts]
  constructor
  · rintro ⟨task, ht, hp⟩
    exact ⟨task.phase, phaseOf?_of_getElem? ht, hp⟩
  · rintro ⟨p, ht, hp⟩
    obtain ⟨task, htask, rfl⟩ := Option.map_eq_some_iff.mp ht
    exact ⟨task, htask, hp⟩

/-- The first task that has a permit and has not started is the next to start. -/
theorem Lined.starts_size (hi : h.Lined) (hr : h.Reachable config) {t : Nat}
    (ht : h.session.phaseOf? t = some .granted)
    (hfirst : ∀ u, u < t → h.session.phaseOf? u ≠ some .granted) :
    h.session.starts.size = t := by
  refine Nat.le_antisymm (Nat.le_of_not_lt fun hlt => ?_) (Nat.le_of_not_lt fun hlt => ?_)
  · obtain ⟨p, hp, hst⟩ := (hi.lt_starts_iff hr).mp hlt
    obtain rfl := Option.some.inj (ht.symm.trans hp)
    exact hst
  · obtain ⟨p, hp⟩ := exists_phaseOf? (Nat.lt_trans hlt (lt_of_phaseOf? ht))
    have hrank := hi.ordered _ t p _ hlt hp ht
    refine Nat.lt_irrefl _ ((hi.lt_starts_iff hr).mpr ⟨p, hp, ?_⟩)
    cases p with
    | granted => exact absurd hp (hfirst _ hlt)
    | launched | waiting => exact absurd hrank (by simp [Phase.rank])
    | running | ended | counted | reported | finished => trivial

theorem Lined.step (hr : h.Reachable config) (hi : h.Lined) (hs : Step h k)
    (hturn : h.session.InTurn k.session) : k.Lined := by
  refine ⟨hi.toQueued.step hr hs hturn.asks, ?_⟩
  cases hs with
  | @begin t task ht hp =>
    have hphase := hp ▸ phaseOf?_of_getElem? ht
    have hfirst := first_of_leavesInTurn hturn.goesOn hphase ht (tasks_modifyTask ..) (by simp)
    show (h.session.starts.push t).toList = List.range (h.session.starts.push t).size
    rw [Array.toList_push, Array.size_push, List.range_succ, hi.starts,
      hi.starts_size hr hphase hfirst]
  | idle | accept | enter | look | launch | giveUp | grant | line | handOver | count | push | pass
  | leave | finish | write | close | raise | halt | drain | take => exact hi.starts

theorem Paced.lined (hp : h.Paced config) : h.Lined := by
  obtain ⟨s₀, hs, hh⟩ := hp
  induction hh with
  | refl => exact ⟨(LetsIn.start hs).queued, by rw [start_eq hs]; rfl⟩
  | @step k a hk he hturn ih =>
    have hr : k.Reachable config := ⟨s₀, hs, hk.reaches⟩
    exact ih.step hr (step_act hr.coherent he) hturn

end History

/-! ## The order of the launches -/

/-- The chunk of a task: the number of its request, and its own number in the request. -/
def Task.chunk (task : Task) : Nat × Nat :=
  (task.request, task.piece.index)

namespace Session

/-- The chunks in the order in which they were launched. -/
def launches (s : Session) : List (Nat × Nat) :=
  s.tasks.toList.map Task.chunk

/-- The chunks of some tasks. -/
def chunksOf (s : Session) (l : List Nat) : List (Nat × Nat) :=
  l.filterMap fun t => s.tasks[t]?.map Task.chunk

/-- The chunks whose calls were made, in that order. -/
def started (s : Session) : List (Nat × Nat) :=
  s.chunksOf s.starts.toList

variable {s s' : Session} {t : Nat}

theorem getElem?_launches (s : Session) (t : Nat) :
    s.launches[t]? = s.tasks[t]?.map Task.chunk := by
  rw [launches, List.getElem?_map, Array.getElem?_toList]

theorem launches_modify {p : Phase} (hk : s'.tasks = s.tasks.modify t ({ · with phase := p })) :
    s'.launches = s.launches := by
  refine List.ext_getElem? fun u => ?_
  rw [getElem?_launches, getElem?_launches, hk, Array.getElem?_modify]
  split
  · rw [Option.map_map]
    rfl
  · rfl

theorem chunksOf_range (s : Session) (n : Nat) : s.chunksOf (List.range n) = s.launches.take n := by
  induction n with
  | zero => rfl
  | succ n ih =>
    rw [chunksOf] at ih ⊢
    rw [List.range_succ, List.filterMap_append, ih, List.take_add_one, getElem?_launches]
    cases hn : s.tasks[n]? <;> simp [hn]

end Session

namespace History

variable {config : Config} {h k : History} {l : List Nat} {r : Nat} {q : Request}

/-- A step launches nothing, or one chunk of a request that has not answered. -/
theorem Step.launches (hs : Step h k) :
    k.session.launches = h.session.launches ∨
      ∃ r q piece, h.session.requests[r]? = some q ∧ q.launch = .cleared ∧
        q.pieces[q.launched]? = some piece ∧
        k.session.launches = h.session.launches ++ [(r, piece.index)] := by
  cases hs with
  | @launch r q piece hq hl hp =>
    refine Or.inr ⟨r, q, piece, hq, hl, hp, ?_⟩
    show (h.session.tasks.push _).toList.map Task.chunk = _
    rw [Array.toList_push, List.map_append]
    rfl
  | grant | line | begin | push | pass | leave | finish | count =>
    exact Or.inl (Session.launches_modify (tasks_modifyTask ..))
  | handOver =>
    exact Or.inl ((Session.launches_modify (tasks_modifyTask ..)).trans
      (Session.launches_modify (tasks_modifyTask ..)))
  | idle | accept | enter | look | giveUp | write | close | raise | halt | drain | take =>
    exact Or.inl rfl

/-- What holds from the answer of request `r` on: behind the chunks `l` that were launched by then
comes none of it. -/
structure Answered (r : Nat) (l : List (Nat × Nat)) (h : History) : Prop where
  answered : ∃ q, h.session.requests[r]? = some q ∧ q.ahead = 0
  launches : ∃ later, h.session.launches = l ++ later ∧ ∀ c ∈ later, c.1 ≠ r

theorem Answered.step {l : List (Nat × Nat)} (hr : h.Reachable config) (hi : h.Answered r l)
    (hs : Step h k) : k.Answered r l := by
  obtain ⟨⟨q, hq, h0⟩, later, hl, hlater⟩ := hi
  refine ⟨?_, ?_⟩
  · obtain ⟨q', hq', hle⟩ := hs.ahead hr hq
    exact ⟨q', hq', by omega⟩
  · obtain heq | ⟨r', q', piece, hq', hcleared, hp, hnew⟩ := hs.launches
    · exact ⟨later, heq.trans hl, hlater⟩
    · refine ⟨later ++ [(r', piece.index)], by rw [hnew, hl, List.append_assoc], ?_⟩
      intro c hc
      rcases List.mem_append.mp hc with hc | hc
      · exact hlater c hc
      · rintro rfl
        obtain rfl := List.mem_singleton.mp hc
        obtain rfl := Option.some.inj (hq.symm.trans hq')
        have hlt := (Array.getElem?_eq_some_iff.mp hp).1
        simp only [Request.ahead, hcleared] at h0
        omega

/-- **The transfers are let in in the order of the launches.** -/
theorem LetsIn.chunksOf_prefix (ha : LetsIn config l h) :
    h.session.chunksOf l <+: h.session.launches := by
  rw [ha.eq_range, Session.chunksOf_range]
  exact List.take_prefix ..

/-- **The calls come in the order of the launches**, when tasks that are let in take their turns in
order. -/
theorem Paced.started_prefix (hp : h.Paced config) :
    h.session.started <+: h.session.launches := by
  rw [Session.started, hp.lined.starts, Session.chunksOf_range]
  exact List.take_prefix ..

/-- **Whoever was let in has made its call**, if it has had a turn since the permit came. -/
theorem LetsIn.perm_starts (ha : LetsIn config l h) :
    h.session.starts.toList.Perm (l.filter fun t => h.session.phaseOf? t ≠ some .granted) := by
  have hr := ha.reachable
  have hnodup : h.session.starts.toList.Nodup := by simpa using hr.recorded.starts.nodup
  refine (List.perm_ext_iff_of_nodup hnodup ((ha.pairwise.imp Nat.ne_of_lt).filter _)).mpr ?_
  intro t
  rw [hr.recorded.mem_starts, List.mem_filter, ha.mem_iff, Session.wasLetIn_iff, decide_eq_true_iff]
  constructor
  · rintro ⟨task, htask, hst⟩
    have hphase := phaseOf?_of_getElem? htask
    obtain ⟨hin, hne⟩ := Phase.started_iff.mp hst
    exact ⟨⟨_, hphase, hin⟩, fun hg => hne (Option.some.inj (hphase.symm.trans hg))⟩
  · rintro ⟨⟨p, hp, hin⟩, hne⟩
    obtain ⟨task, htask, rfl⟩ := Option.map_eq_some_iff.mp hp
    exact ⟨task, htask, Phase.started_iff.mpr ⟨hin, fun hg => hne (hp.trans (congrArg some hg))⟩⟩

/-- Once no task can go on by itself, all that were let in have made their calls. -/
theorem LetsIn.perm_starts_of_parked (ha : LetsIn config l h) (hs : h.session.Parked) :
    h.session.starts.toList.Perm l := by
  have hall : l.filter (fun t => h.session.phaseOf? t ≠ some .granted) = l :=
    List.filter_eq_self.mpr fun t _ => decide_eq_true fun hg => hs t .granted hg trivial
  exact hall ▸ ha.perm_starts

/-- The transfers that run are of tasks before one that waits. -/
theorem Queued.running_before (hi : h.Queued) {t : Nat} (ht : h.session.phaseOf? t = some .waiting) :
    h.session.running = (h.session.tasks.toList.take t).countP (·.phase = .running) := by
  have hnone : (h.session.tasks.toList.drop t).countP (·.phase = .running) = 0 := by
    refine List.countP_eq_zero.mpr fun task hm hrun => ?_
    rw [decide_eq_true_eq] at hrun
    obtain ⟨i, hi'⟩ := List.mem_iff_getElem?.mp hm
    rw [List.getElem?_drop, Array.getElem?_toList] at hi'
    have hlater := hrun ▸ phaseOf?_of_getElem? hi'
    cases i with
    | zero => exact absurd (ht.symm.trans hlater) (by simp)
    | succ i =>
      exact absurd (hi.ordered t (t + (i + 1)) _ _ (by omega) ht hlater) (by simp [Phase.rank])
  rw [Session.running, ← Array.countP_toList]
  conv_lhs => rw [← List.take_append_drop t h.session.tasks.toList]
  rw [List.countP_append, hnone, Nat.add_zero]

/-- **A transfer is started once fewer are unfinished before it than may run.** -/
theorem LetsIn.started_of_few (ha : LetsIn config l h) (hs : h.session.Parked) {t : Nat}
    (ht : t < h.session.tasks.size)
    (hfew : h.session.unfinishedBefore t < config.maxConcurrency.toNat) :
    t ∈ h.session.starts := by
  have hr := ha.reachable
  obtain ⟨p, hphase⟩ := exists_phaseOf? ht
  by_contra hnot
  have hwaits : h.session.phaseOf? t = some .waiting := by
    have hst : ¬ p.Started := fun hst => hnot <| by
      obtain ⟨task, htask, rfl⟩ := Option.map_eq_some_iff.mp hphase
      exact Array.mem_toList_iff.mp (hr.recorded.mem_starts.mpr ⟨task, htask, hst⟩)
    obtain rfl | rfl | hfin := hs.phase hphase
    · exact hphase
    · exact absurd trivial hst
    · exact absurd hfin.started hst
  have hle := Session.countP_running_le (h.session.tasks.toList.take t)
  rw [← ha.queued.running_before hwaits] at hle
  have hfull := hr.running_of_waiting hs hwaits
  unfold Session.unfinishedBefore at hfew
  omega

end History

end RangeFetch
