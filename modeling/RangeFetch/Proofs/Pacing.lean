import Mathlib.Data.List.Sort
import RangeFetch.Executor
import RangeFetch.Proofs.Completing
import RangeFetch.Proofs.Moves
import RangeFetch.Transfer.Script

/-!
# The executor keeps the tasks in order

The executor runs the tasks after each call and after each release until none can go on. The tasks
that are ready then are of one of two kinds. After a call they are new: each asks for a permit, and a
transfer that ends at once finds nobody waiting for its permit. After a release there is one at most,
to which the permit went, and it passes the permit on when its transfer ends at once. So no task
ever overtakes another: the steps of the executor are those of a `Paced` history.

Headlines:
* **`Executor.Reachable`** has the executors that calls and releases lead to, in any order.
* **`Tracks`** ties an executor to a paced history, and `Reachable.tracks` does so for all.
* **`Reachable.unfinished_releaseAll`**: releasing everything finishes everything.
* **`Session.StartsInOrder`** is the order that the permits bring about, and
  **`Session.CallsInOrder`** what the order of the turns adds to it.
-/

namespace RangeFetch

open Session (Moved Passed Joined)

namespace Executor

variable {σ : Type}

/-- The executors that calls of callers and releases of held transfers lead to from a new session
made with `config`. -/
inductive Reachable (config : Config) (primitive : Primitive σ) : Executor σ → Prop where
  | start {s : Session} {state : σ} (hs : Session.start config = .ok s) :
      Reachable config primitive { session := s, state }
  | call {e : Executor σ} {s : Session} (he : Reachable config primitive e)
      (hs : e.session.Calls s) :
      Reachable config primitive (settle primitive { e with session := s })
  | release {e : Executor σ} {t : Nat} {reply : Reply} (he : Reachable config primitive e)
      (ht : (t, reply) ∈ e.held) :
      Reachable config primitive
        (settle primitive (complete t reply { e with held := e.held.filter (·.1 != t) }).1)

/-- The executor `e` is where the tasks of the history `h` are, which took their turns in order; the
transfers that run are held, but for that of task `x`. -/
structure Tracks (config : Config) (x : Option Nat) (h : History) (e : Executor σ) : Prop where
  session : h.session = e.session
  paced : h.Paced config
  nodup : (e.held.map Prod.fst).Nodup
  mem_held : ∀ t, t ∈ e.held.map Prod.fst ↔ h.session.phaseOf? t = some .running ∧ x ≠ some t
  peak : e.peak ≤ config.maxConcurrency.toNat
  /-- Between the end of its transfer and its report no task stands still. -/
  moves : ∀ (t : Nat) (p : Phase), h.session.phaseOf? t = some p → Session.Phase.Moves p → p.Ready

variable {config : Config} {primitive : Primitive σ} {h k : History} {e : Executor σ} {t : Nat}

/-! ## One turn -/

/-- A transfer that ends passes its permit on. -/
theorem Tracks.complete (hi : Tracks config (some t) h e)
    (ht : h.session.phaseOf? t = some .running) (reply : Reply) :
    ∃ k o code, h.Paces k ∧ Tracks config none k (Executor.complete t reply e).1 ∧
      h.session.Passed k.session t (.finished o code) ∧
      (Executor.complete t reply e).2 = h.session.permits.line.head? := by
  obtain ⟨s, state, held, peak⟩ := e
  obtain rfl : h.session = s := hi.session
  have hr := hi.paced.reachable
  obtain ⟨k, code, hk, hs, hpass⟩ := hr.exists_completed ht reply.bytes reply.outcome
  have hcomplete : Executor.complete t reply ⟨h.session, state, held, peak⟩ =
      (⟨k.session, state, held, peak⟩, h.session.permits.line.head?) := by
    rw [hs, Executor.complete]
  rw [hcomplete]
  refine ⟨k, reply.outcome, code, hk, ⟨rfl, hi.paced.paces hk, hi.nodup, ?_, hi.peak, ?_⟩, hpass,
    rfl⟩
  · intro u
    refine (hi.mem_held u).trans ?_
    constructor
    · rintro ⟨hu, hne⟩
      have hut : u ≠ t := fun hut => hne (by rw [hut])
      refine ⟨?_, by simp⟩
      rw [hpass.others u hut, hu]
      intro hw
      have hwait := hr.coherent.waiting u (List.mem_of_head? hw)
      exact absurd (hu.symm.trans hwait) (by simp)
    · rintro ⟨hu, -⟩
      obtain ⟨-, hp⟩ | ⟨-, hp, -⟩ | ⟨hut, hold⟩ := hpass.cases hr.coherent.waiting hu
      · exact absurd hp (by simp)
      · exact absurd hp (by simp)
      · exact ⟨hold, fun hx => hut (Option.some.inj hx).symm⟩
  · intro u p hu hp
    obtain ⟨-, rfl⟩ | ⟨-, rfl, -⟩ | ⟨-, hold⟩ := hpass.cases hr.coherent.waiting hu
    · exact absurd hp id
    · trivial
    · exact hi.moves u p hold hp

/-- From `s` to `s'` task `t` takes its turn, and `w` is the task that its permit comes to, if
it gives it back and somebody waits. -/
structure Turned (t : Nat) (w : Option Nat) (s s' : Session) : Prop where
  size : s'.tasks.size = s.tasks.size
  self : ∃ p, s'.phaseOf? t = some p ∧ ¬ p.Ready
  others : ∀ u, u ≠ t → w ≠ some u → s'.phaseOf? u = s.phaseOf? u
  woken : ∀ v, w = some v →
    s.permits.line = v :: s'.permits.line ∧ v ≠ t ∧ s'.phaseOf? v = some .granted

/-- The transfers that are held and that of task `t` are all that run. -/
theorem running_append {s : Session} {l : List Nat} (hn : l.Nodup)
    (hm : ∀ u, u ∈ l ↔ s.phaseOf? u = some .running ∧ some t ≠ some u)
    (ht : s.phaseOf? t = some .running) :
    (l ++ [t]).Nodup ∧ ∀ u, u ∈ l ++ [t] ↔ s.phaseOf? u = some .running := by
  refine ⟨List.nodup_append.mpr ⟨hn, by simp, ?_⟩, fun u => ?_⟩
  · rintro u hu v hv rfl
    exact ((hm u).mp hu).2 (by rw [List.mem_singleton.mp hv])
  · rw [List.mem_append, hm, List.mem_singleton]
    by_cases hut : u = t
    · subst hut
      simp [ht]
    · simp [hut, Ne.symm hut]

/-- Task `t` starts its transfer, which stops the session if it `stops`. -/
theorem exists_begun (ht : h.session.phaseOf? t = some .granted)
    (hfirst : ∀ u, u < t → h.session.phaseOf? u ≠ some .granted) (stops : Bool) :
    ∃ k, h.Paces k ∧
      k.session = (if stops then (h.session.advance t).stop else h.session.advance t) ∧
      h.session.Moved k.session t .running := by
  have hbegin := Session.moved_begin ht
  obtain ⟨k, hk, hs⟩ := History.exists_advanced ht trivial
    (.of_first (fun u hu => (hbegin.phase u).trans (if_neg hu)) (by rw [ht]; exact hfirst))
  cases stops with
  | false => exact ⟨k, hk, hs, hs ▸ hbegin⟩
  | true =>
    obtain ⟨m, hm, hstop, -⟩ := History.exists_called (Session.calls_halt k.session false)
    refine ⟨m, hk.trans hm, by rw [hstop, hs]; rfl, ?_⟩
    rw [hstop, Session.halt_eq, hs]
    exact ⟨hbegin.line, hbegin.size, hbegin.phase⟩

/-- A transfer that starts is one of at most as many as may run. -/
theorem Tracks.begin {state state' : σ} {held : List (Nat × Reply)} {peak : Nat}
    (hi : Tracks config none h ⟨h.session, state, held, peak⟩)
    (ht : h.session.phaseOf? t = some .granted) (hk : h.Paces k)
    (hmoved : h.session.Moved k.session t .running) :
    Tracks config (some t) k ⟨k.session, state', held, max peak (held.length + 1)⟩ := by
  have hmem : ∀ u, u ∈ held.map Prod.fst ↔
      k.session.phaseOf? u = some .running ∧ some t ≠ some u := by
    intro u
    rw [hmoved.phase]
    refine (hi.mem_held u).trans ?_
    by_cases hut : u = t
    · subst hut
      simp [ht]
    · simp [hut, Ne.symm hut]
  obtain ⟨hn, hm⟩ := running_append hi.nodup hmem hmoved.self
  have hlimit := (hi.paced.paces hk).reachable.running_le
  rw [← Session.length_eq_running hn hm, List.length_append, List.length_map,
    List.length_singleton] at hlimit
  refine ⟨rfl, hi.paced.paces hk, hi.nodup, hmem, Nat.max_le.mpr ⟨hi.peak, hlimit⟩, ?_⟩
  intro u p hu hp
  rw [hmoved.phase] at hu
  split at hu
  · obtain rfl := Option.some.inj hu
    exact absurd hp id
  · exact hi.moves u p hu hp

/-- A task with a permit starts its transfer, which is held, or ends and passes the permit on. -/
theorem Tracks.start (hi : Tracks config none h e) (primitive : Primitive σ)
    (ht : h.session.phaseOf? t = some .granted)
    (hfirst : ∀ u, u < t → h.session.phaseOf? u ≠ some .granted) :
    ∃ k, h.Paces k ∧ Tracks config none k (Executor.start primitive t e).1 ∧
      Turned t (Executor.start primitive t e).2 h.session k.session := by
  obtain ⟨s, state, held, peak⟩ := e
  obtain rfl : h.session = s := hi.session
  have hcall : ∃ call, (h.session.advance t).callOf? t = some call := by
    obtain ⟨k, hk, hs, hmoved⟩ := exists_begun ht hfirst false
    obtain ⟨task, htask, -⟩ := Option.map_eq_some_iff.mp hmoved.self
    have hlinked := (hi.paced.paces hk).reachable.coherent.callOf?_isSome htask
    rw [hs] at hlinked
    exact hlinked
  obtain ⟨call, hcall⟩ := hcall
  obtain ⟨reply, state', hprim⟩ : ∃ reply state', primitive state call = (reply, state') :=
    ⟨_, _, rfl⟩
  obtain ⟨k, hk, hs, hmoved⟩ := exists_begun ht hfirst reply.stops
  have hbegun : Tracks config (some t) k ⟨k.session, state', held, max peak (held.length + 1)⟩ :=
    hi.begin ht hk hmoved
  unfold Executor.start
  simp only [hcall, hprim, ← hs]
  split
  · obtain ⟨hn, hm⟩ := running_append hbegun.nodup hbegun.mem_held hmoved.self
    refine ⟨k, hk, ⟨rfl, hbegun.paced, ?_, ?_, hbegun.peak, hbegun.moves⟩, hmoved.size,
      ⟨_, hmoved.self, id⟩, fun u hu _ => (hmoved.phase u).trans (if_neg hu), by simp⟩
    · rw [List.map_append]
      exact hn
    · intro u
      rw [List.map_append]
      exact (hm u).trans (by simp)
  · obtain ⟨m, o, code, hm, hdone, hpass, hwoken⟩ := hbegun.complete hmoved.self reply
    rw [hwoken]
    refine ⟨m, hk.trans hm, hdone, hpass.size.trans hmoved.size, ⟨_, hpass.self, id⟩, ?_, ?_⟩
    · intro u hu hw
      rw [hpass.others u hu hw, hmoved.phase, if_neg hu]
    · intro v hv
      obtain ⟨hne, hg⟩ := hpass.woken v hv
      refine ⟨?_, hne, hg⟩
      rw [← hmoved.line, hpass.line]
      exact (List.cons_head?_tail hv).symm

/-- A task moves on that neither runs its transfer nor comes to run it. -/
theorem Tracks.move {s : Session} {state : σ} {held : List (Nat × Reply)} {peak : Nat}
    {p q : Phase} (hi : Tracks config none h ⟨s, state, held, peak⟩) (hk : h.Paces k)
    (ht : h.session.phaseOf? t = some q) (hq : q ≠ .running) (hp : p ≠ .running)
    (hready : Session.Phase.Moves p → p.Ready)
    (hphase : ∀ u, k.session.phaseOf? u = if u = t then some p else h.session.phaseOf? u) :
    Tracks config none k ⟨k.session, state, held, peak⟩ where
  session := rfl
  paced := hi.paced.paces hk
  nodup := hi.nodup
  mem_held u := by
    rw [hphase]
    refine (hi.mem_held u).trans ?_
    by_cases hut : u = t
    · subst hut
      simp [ht, hq, hp]
    · rw [if_neg hut]
  peak := hi.peak
  moves u x hu hx := by
    rw [hphase] at hu
    split at hu
    · obtain rfl := Option.some.inj hu
      exact hready hx
    · exact hi.moves u x hu hx

/-- The first of the new tasks takes its turn while no other has a permit and is about to start:
nobody waits for a permit that it gives back. -/
theorem Tracks.turn_launched (hi : Tracks config none h e) (primitive : Primitive σ)
    (ht : h.session.phaseOf? t = some .launched)
    (hfirst : ∀ u, u < t → h.session.phaseOf? u ≠ some .launched)
    (hgranted : ∀ u, h.session.phaseOf? u ≠ some .granted) :
    ∃ k, h.Paces k ∧ Tracks config none k (Executor.turn primitive t e).1 ∧
      Turned t none h.session k.session ∧ (Executor.turn primitive t e).2 = none := by
  obtain ⟨s, state, held, peak⟩ := e
  obtain rfl : h.session = s := hi.session
  have hadvance {p : Phase} (hphase : ∀ u, (h.session.advance t).phaseOf? u =
      if u = t then some p else h.session.phaseOf? u) :
      ∃ k, h.Paces k ∧ k.session = h.session.advance t :=
    History.exists_advanced ht trivial
      (.of_first (fun u hu => (hphase u).trans (if_neg hu)) (by rw [ht]; exact hfirst))
  unfold Executor.turn
  simp only [if_pos ht]
  by_cases ha : h.session.permits.available = 0
  · have htasks := Session.tasks_advance_waiting ht ha
    have hphase : ∀ u, (h.session.advance t).phaseOf? u =
        if u = t then some .waiting else h.session.phaseOf? u := fun u => by
      rw [History.phaseOf?_modify htasks, ht, Option.map_some]
    obtain ⟨k, hk, hs⟩ := hadvance hphase
    rw [if_neg (by rw [hphase, if_pos rfl]; simp), ← hs]
    rw [← hs] at htasks hphase
    refine ⟨k, hk, hi.move hk ht (by simp) (by simp) False.elim hphase,
      ⟨?_, ⟨_, (hphase t).trans (if_pos rfl), id⟩, fun u hu _ => (hphase u).trans (if_neg hu),
        by simp⟩, rfl⟩
    rw [htasks, Array.size_modify]
  · have hgrant := Session.moved_grant ht ha
    obtain ⟨k, hk, hs⟩ := hadvance hgrant.phase
    rw [if_pos hgrant.self, ← hs]
    rw [← hs] at hgrant
    have hempty : h.session.permits.line = [] := by
      by_contra hline
      exact ha (hi.paced.reachable.held.full hline)
    have hfirst' : ∀ u, u < t → k.session.phaseOf? u ≠ some .granted := fun u hu => by
      rw [hgrant.phase, if_neg (Nat.ne_of_lt hu)]
      exact hgranted u
    have htracks := hi.move (p := .granted) hk ht (by simp) (by simp) (fun _ => trivial) hgrant.phase
    obtain ⟨m, hm, htracks', hturned⟩ := htracks.start primitive hgrant.self hfirst'
    have hnone : (Executor.start primitive t ⟨k.session, state, held, peak⟩).2 = none := by
      refine Option.eq_none_iff_forall_not_mem.mpr fun v hv => ?_
      have hline := (hturned.woken v hv).1
      rw [hgrant.line, hempty] at hline
      exact absurd hline (by simp)
    refine ⟨m, hk.trans hm, htracks', ?_, hnone⟩
    refine ⟨hturned.size.trans hgrant.size, hturned.self, fun u hu _ => ?_, by simp⟩
    refine (hturned.others u hu fun hw => ?_).trans ((hgrant.phase u).trans (if_neg hu))
    exact absurd (hnone.symm.trans hw) (by simp)

/-- A task that has a permit takes its turn. -/
theorem Tracks.turn_granted (hi : Tracks config none h e) (primitive : Primitive σ)
    (ht : h.session.phaseOf? t = some .granted)
    (hfirst : ∀ u, u < t → h.session.phaseOf? u ≠ some .granted) :
    ∃ k, h.Paces k ∧ Tracks config none k (Executor.turn primitive t e).1 ∧
      Turned t (Executor.turn primitive t e).2 h.session k.session := by
  have hstart : Executor.turn primitive t e = Executor.start primitive t e := by
    obtain ⟨s, state, held, peak⟩ := e
    obtain rfl : h.session = s := hi.session
    unfold Executor.turn
    simp [ht]
  rw [hstart]
  exact hi.start primitive ht hfirst

/-! ## Rounds -/

/-- From `h` to `k` only tasks take steps, in turn, so that no other task is launched. -/
structure Works (h k : History) : Prop where
  paces : h.Paces k
  size : k.session.tasks.size = h.session.tasks.size

theorem Works.refl (h : History) : Works h h :=
  ⟨.refl h, rfl⟩

theorem Works.trans {m : History} (hk : Works h k) (hm : Works k m) : Works h m :=
  ⟨hk.paces.trans hm.paces, hm.size.trans hk.size⟩

theorem round_cons_of_none {ts : List Nat} (hw : (turn primitive t e).2 = none) :
    round primitive (t :: ts) e = round primitive ts (turn primitive t e).1 := by
  simp [round, hw]

theorem round_singleton (t : Nat) :
    round primitive [t] e = ((turn primitive t e).1, (turn primitive t e).2.toList) := by
  cases hw : (turn primitive t e).2 <;> simp [round, hw]

theorem rounds_cons (n : Nat) (ts : List Nat) :
    rounds primitive (n + 1) (t :: ts) e =
      rounds primitive n (round primitive (t :: ts) e).2 (round primitive (t :: ts) e).1 := rfl

theorem rounds_nil (n : Nat) : rounds primitive n [] e = e := by
  cases n <;> rfl

/-- The new tasks take their turns, one after the other, and nobody is woken. -/
theorem Tracks.round_launched {ts : List Nat} (hi : Tracks config none h e)
    (primitive : Primitive σ) (hsorted : ts.Pairwise (· < ·))
    (hts : ∀ t, t ∈ ts ↔ h.session.phaseOf? t = some .launched)
    (hgranted : ∀ t, h.session.phaseOf? t ≠ some .granted) :
    ∃ k, Works h k ∧ Tracks config none k (Executor.round primitive ts e).1 ∧
      (Executor.round primitive ts e).2 = [] ∧
      ∀ t p, k.session.phaseOf? t = some p → ¬ p.Ready := by
  induction ts generalizing h e with
  | nil =>
    refine ⟨h, .refl h, hi, rfl, ?_⟩
    intro t p ht hp
    cases p with
    | launched => exact absurd ((hts t).mpr ht) (by simp)
    | granted => exact hgranted t ht
    | waiting | running | ended | counted | reported | finished => exact hp
  | cons t ts ih =>
    obtain ⟨hfirst, hrest⟩ := List.pairwise_cons.mp hsorted
    have ht := (hts t).mp List.mem_cons_self
    obtain ⟨k, hk, htracks, hturned, hnone⟩ := hi.turn_launched primitive ht
      (fun u hu hl => by
        rcases List.mem_cons.mp ((hts u).mpr hl) with rfl | hm
        · exact Nat.lt_irrefl u hu
        · exact Nat.lt_asymm hu (hfirst u hm)) hgranted
    obtain ⟨p, hself, hp⟩ := hturned.self
    have hts' : ∀ u, u ∈ ts ↔ k.session.phaseOf? u = some .launched := by
      intro u
      by_cases hut : u = t
      · subst hut
        rw [hself, Option.some.injEq]
        refine ⟨fun hm => absurd (hfirst u hm) (Nat.lt_irrefl u), ?_⟩
        rintro rfl
        exact absurd trivial hp
      · rw [hturned.others u hut (by simp), ← hts, List.mem_cons]
        simp [hut]
    have hgranted' : ∀ u, k.session.phaseOf? u ≠ some .granted := by
      intro u hu
      by_cases hut : u = t
      · subst hut
        obtain rfl := Option.some.inj (hself.symm.trans hu)
        exact hp trivial
      · exact hgranted u ((hturned.others u hut (by simp)).symm.trans hu)
    obtain ⟨m, hm, hrest'⟩ := ih htracks hrest hts' hgranted'
    rw [round_cons_of_none hnone]
    exact ⟨m, .trans ⟨hk, hturned.size⟩ hm, hrest'⟩

/-- A permit is passed on from round to round, at most to everybody who waits. -/
theorem Tracks.rounds_granted {n : Nat} {w : Option Nat} (hi : Tracks config none h e)
    (primitive : Primitive σ)
    (hw : ∀ t, w = some t ↔ ∃ p, h.session.phaseOf? t = some p ∧ p.Ready)
    (hgranted : ∀ t, w = some t → h.session.phaseOf? t = some .granted)
    (hn : h.session.permits.line.length < n) :
    ∃ k, Works h k ∧ Tracks config none k (Executor.rounds primitive n w.toList e) ∧
      ∀ t p, k.session.phaseOf? t = some p → ¬ p.Ready := by
  induction n generalizing h e w with
  | zero => exact absurd hn (Nat.not_lt_zero _)
  | succ n ih =>
    cases w with
    | none =>
      rw [Option.toList_none, rounds_nil]
      exact ⟨h, .refl h, hi, fun t p ht hp => absurd ((hw t).mpr ⟨p, ht, hp⟩) (by simp)⟩
    | some t =>
      have ht := hgranted t rfl
      obtain ⟨k, hk, htracks, hturned⟩ := hi.turn_granted primitive ht
        fun u hu hg => by
          obtain rfl := Option.some.inj ((hw u).mpr ⟨_, hg, trivial⟩)
          exact Nat.lt_irrefl _ hu
      have hready : ∀ u, (turn primitive t e).2 = some u ↔
          ∃ p, k.session.phaseOf? u = some p ∧ p.Ready := by
        intro u
        refine ⟨fun hu => ⟨_, (hturned.woken u hu).2.2, trivial⟩, ?_⟩
        rintro ⟨p, hu, hp⟩
        by_contra hne
        by_cases hut : u = t
        · subst hut
          obtain ⟨q, hself, hq⟩ := hturned.self
          obtain rfl := Option.some.inj (hself.symm.trans hu)
          exact hq hp
        · have hold := (hturned.others u hut hne).symm.trans hu
          exact hut (Option.some.inj ((hw u).mpr ⟨p, hold, hp⟩)).symm
      rw [Option.toList_some, rounds_cons, round_singleton]
      cases hnext : (turn primitive t e).2 with
      | none =>
        refine ⟨k, ⟨hk, hturned.size⟩, ?_, fun u p hu hp => ?_⟩
        · rw [Option.toList_none, rounds_nil]
          exact htracks
        · exact absurd (hnext.symm.trans ((hready u).mpr ⟨p, hu, hp⟩)) (by simp)
      | some v =>
        obtain ⟨hline, -, hv⟩ := hturned.woken v hnext
        obtain ⟨m, hm, hdone⟩ := ih htracks (hnext ▸ hready)
          (fun u hu => Option.some.inj hu ▸ hv) (by
            rw [hline, List.length_cons] at hn
            omega)
        exact ⟨m, .trans ⟨hk, hturned.size⟩ hm, hdone⟩

/-! ## Until no task can go on -/

/-- The tasks that wait for a turn are in order. -/
theorem sorted_ready (s : Session) : (ready s).Pairwise (· < ·) :=
  List.pairwise_lt_range.filter _

theorem mem_ready {s : Session} : t ∈ ready s ↔ ∃ p, s.phaseOf? t = some p ∧ p.Ready := by
  unfold ready
  rw [List.mem_filter, List.mem_range, decide_eq_true_eq]
  constructor
  · rintro ⟨-, ht | ht⟩
    · exact ⟨_, ht, trivial⟩
    · exact ⟨_, ht, trivial⟩
  · rintro ⟨p, ht, hp⟩
    refine ⟨History.lt_of_phaseOf? ht, ?_⟩
    cases p with
    | launched => exact Or.inl ht
    | granted => exact Or.inr ht
    | waiting | running | ended | counted | reported | finished => exact absurd hp id

/-- Who waits for a permit is one of the tasks, once. -/
theorem length_line_le (hr : h.Reachable config) :
    h.session.permits.line.length ≤ h.session.tasks.size := by
  have hsub : h.session.permits.line ⊆ List.range h.session.tasks.size := fun w hw =>
    List.mem_range.mpr (History.lt_of_phaseOf? (hr.coherent.waiting w hw))
  have hle := (hr.coherent.nodup.subperm hsub).length_le
  rwa [List.length_range] at hle

/-- Where no task is ready, the tasks are parked, and the closers go on that can. -/
theorem Tracks.letReturn (hi : Tracks config none h e)
    (hidle : ∀ t p, h.session.phaseOf? t = some p → ¬ p.Ready) :
    ∃ k, Works h k ∧ Tracks config none k { e with session := e.session.letReturn } ∧
      k.session.Parked := by
  obtain ⟨k, hk, hs, -⟩ := History.exists_called (h := h) (Session.calls_letReturn h.session)
  have htasks : k.session.tasks = h.session.tasks := by rw [hs, Session.tasks_letReturn]
  have hphase := Session.phaseOf?_congr htasks
  refine ⟨k, ⟨hk, congrArg Array.size htasks⟩, ⟨?_, hi.paced.paces hk, hi.nodup, ?_, hi.peak, ?_⟩, ?_⟩
  · rw [hs, hi.session]
  · rw [hphase]
    exact hi.mem_held
  · rw [hphase]
    exact hi.moves
  · intro t p ht hp
    rw [hphase] at ht
    exact hidle t p ht (hi.moves t p ht hp)

/-- What `settle` leads to: the tasks are parked, and nobody was overtaken. -/
theorem exists_settled (hrounds : ∃ k, Works h k ∧
      Tracks config none k
        (Executor.rounds primitive (e.session.tasks.size + 1) (ready e.session) e) ∧
      ∀ t p, k.session.phaseOf? t = some p → ¬ p.Ready) :
    ∃ k, Works h k ∧ Tracks config none k (settle primitive e) ∧ k.session.Parked := by
  obtain ⟨k, hk, htracks, hidle⟩ := hrounds
  obtain ⟨m, hm, htracks', hparked⟩ := htracks.letReturn hidle
  exact ⟨m, hk.trans hm, htracks', hparked⟩

/-- After a call, all tasks that are ready are new. -/
theorem Tracks.settle_launched (hi : Tracks config none h e) (primitive : Primitive σ)
    (hgranted : ∀ t, h.session.phaseOf? t ≠ some .granted) :
    ∃ k, Works h k ∧ Tracks config none k (settle primitive e) ∧ k.session.Parked := by
  refine exists_settled ?_
  have hts : ∀ t, t ∈ ready e.session ↔ h.session.phaseOf? t = some .launched := by
    intro t
    rw [mem_ready, ← hi.session]
    constructor
    · rintro ⟨p, ht, hp⟩
      cases p with
      | launched => exact ht
      | granted => exact absurd ht (hgranted t)
      | waiting | running | ended | counted | reported | finished => exact absurd hp id
    · exact fun ht => ⟨_, ht, trivial⟩
  obtain ⟨k, hk, htracks, hnone, hidle⟩ :=
    hi.round_launched primitive (sorted_ready _) hts hgranted
  refine ⟨k, hk, ?_, hidle⟩
  cases hl : ready e.session with
  | nil =>
    rw [hl] at htracks
    exact htracks
  | cons t ts =>
    rw [hl] at htracks hnone
    rw [rounds_cons, hnone, rounds_nil]
    exact htracks

/-- After a release, one task at most is ready: that to which the permit went. -/
theorem Tracks.settle_granted {w : Option Nat} (hi : Tracks config none h e)
    (primitive : Primitive σ)
    (hw : ∀ t, w = some t ↔ ∃ p, h.session.phaseOf? t = some p ∧ p.Ready)
    (hgranted : ∀ t, w = some t → h.session.phaseOf? t = some .granted) :
    ∃ k, Works h k ∧ Tracks config none k (settle primitive e) ∧ k.session.Parked := by
  refine exists_settled ?_
  have hready : ready e.session = w.toList := by
    refine (sorted_ready _).eq_of_mem_iff (by cases w <;> simp) fun t => ?_
    rw [mem_ready, ← hi.session, Option.mem_toList, hw]
  rw [hready]
  refine hi.rounds_granted primitive hw hgranted ?_
  rw [← hi.session]
  exact Nat.lt_succ_of_le (length_line_le hi.paced.reachable)

/-! ## Calls and releases -/

theorem Tracks.call {s : Session} (hi : Tracks config none h e) (hp : h.session.Parked)
    (primitive : Primitive σ) (hs : e.session.Calls s) :
    ∃ k, h.Paces k ∧ Tracks config none k (settle primitive { e with session := s }) ∧
      k.session.Parked := by
  obtain ⟨k, hk, rfl, hjoined⟩ := History.exists_called (hi.session ▸ hs)
  have hcases : ∀ t p, k.session.phaseOf? t = some p →
      p = .launched ∨ h.session.phaseOf? t = some p := by
    intro t p ht
    by_cases hlt : t < h.session.tasks.size
    · exact Or.inr ((hjoined.old t hlt).symm.trans ht)
    · exact Or.inl (hjoined.new t p (Nat.le_of_not_lt hlt) ht)
  have htracks : Tracks config none k { e with session := k.session } := by
    refine ⟨rfl, hi.paced.paces hk, hi.nodup, ?_, hi.peak, ?_⟩
    · intro t
      refine (hi.mem_held t).trans (and_congr_left fun _ => ⟨fun ht => ?_, fun ht => ?_⟩)
      · exact (hjoined.old t (History.lt_of_phaseOf? ht)).trans ht
      · exact (hcases t _ ht).resolve_left (by simp)
    · intro t p ht hm
      obtain rfl | hold := hcases t p ht
      · trivial
      · exact absurd hm (hp t p hold)
  obtain ⟨m, hm, hdone⟩ := htracks.settle_launched primitive fun t ht =>
    hp t .granted ((hcases t _ ht).resolve_left (by simp)) trivial
  exact ⟨m, hk.trans hm.paces, hdone⟩

/-- A transfer that is released makes its task one that is finished. -/
theorem Tracks.release {reply : Reply} (hi : Tracks config none h e) (hp : h.session.Parked)
    (primitive : Primitive σ) (ht : (t, reply) ∈ e.held) :
    ∃ k, Works h k ∧
      Tracks config none k
        (settle primitive (Executor.complete t reply
          { e with held := e.held.filter (·.1 != t) }).1) ∧
      k.session.Parked ∧ k.session.unfinished < h.session.unfinished := by
  have hrun := ((hi.mem_held t).mp (List.mem_map_of_mem ht)).1
  have hloose : Tracks config (some t) h { e with held := e.held.filter (·.1 != t) } := by
    have hfilter : (e.held.filter (·.1 != t)).map Prod.fst =
        (e.held.map Prod.fst).filter (· != t) := by
      rw [List.filter_map]
      rfl
    refine ⟨hi.session, hi.paced, hfilter ▸ hi.nodup.filter _, fun u => ?_, hi.peak, hi.moves⟩
    rw [hfilter, List.mem_filter, hi.mem_held, bne_iff_ne]
    simp [eq_comm]
  obtain ⟨k, o, code, hk, htracks, hpass, -⟩ := hloose.complete hrun reply
  have hready : ∀ u, h.session.permits.line.head? = some u ↔
      ∃ p, k.session.phaseOf? u = some p ∧ p.Ready := by
    intro u
    refine ⟨fun hu => ⟨_, (hpass.woken u hu).2, trivial⟩, ?_⟩
    rintro ⟨p, hu, hr⟩
    by_contra hne
    by_cases hut : u = t
    · subst hut
      obtain rfl := Option.some.inj (hpass.self.symm.trans hu)
      exact hr
    · refine hp u p ((hpass.others u hut hne).symm.trans hu) ?_
      cases p with
      | launched | granted => trivial
      | waiting | running | ended | counted | reported | finished => exact absurd hr id
  obtain ⟨m, hm, htracks', hparked⟩ :=
    htracks.settle_granted primitive hready fun u hu => (hpass.woken u hu).2
  have hall : Works h m := .trans ⟨hk, hpass.size⟩ hm
  have hfinished : m.session.phaseOf? t = some (.finished o code) :=
    htracks.paced.reachable.finished_reaches hm.paces.reaches hpass.self trivial
  refine ⟨m, hall, htracks', hparked, Session.unfinished_lt hall.size ?_ hrun id hfinished trivial⟩
  exact fun u x hx hfin => hi.paced.reachable.finished_reaches hall.paces.reaches hx hfin

/-- **Every executor is where a paced history is**, and all its tasks are parked. -/
theorem Reachable.tracks (he : e.Reachable config primitive) :
    ∃ h, Tracks config none h e ∧ h.session.Parked := by
  induction he with
  | @start s state hs =>
    have hnone : ∀ t, s.phaseOf? t = none := fun t => by
      rw [History.start_eq hs]
      rfl
    refine ⟨{ session := s }, ⟨rfl, ⟨s, hs, .refl _⟩, by simp, ?_, Nat.zero_le _, ?_⟩, ?_⟩
    · intro t
      simp [hnone]
    · intro t p ht
      exact absurd (ht.symm.trans (hnone t)) (by simp)
    · intro t p ht
      exact absurd (ht.symm.trans (hnone t)) (by simp)
  | call _ hs ih =>
    obtain ⟨h, hi, hp⟩ := ih
    obtain ⟨k, -, htracks⟩ := hi.call hp primitive hs
    exact ⟨k, htracks⟩
  | release _ ht ih =>
    obtain ⟨h, hi, hp⟩ := ih
    obtain ⟨k, -, htracks, hparked, -⟩ := hi.release hp primitive ht
    exact ⟨k, htracks, hparked⟩

theorem Tracks.length_held (hi : Tracks config none h e) : e.held.length = h.session.running := by
  rw [← List.length_map (f := Prod.fst)]
  exact Session.length_eq_running hi.nodup fun t => (hi.mem_held t).trans (by simp)

/-! ## Releasing -/

theorem Reachable.perform {α : Type} (he : e.Reachable config primitive)
    {f : Session → Session × α} (hf : e.session.Calls (f e.session).1) :
    (Executor.perform primitive f e).1.Reachable config primitive :=
  .call he hf

/-- A release is one of a transfer that is held. -/
theorem release_eq_some {fits : TransferCall → Bool} {e' : Executor σ}
    (hs : Executor.release primitive fits e = some e') :
    ∃ t reply, (t, reply) ∈ e.held ∧
      e' = settle primitive (complete t reply { e with held := e.held.filter (·.1 != t) }).1 := by
  obtain ⟨⟨t, reply⟩, hfind, rfl⟩ := Option.map_eq_some_iff.mp hs
  exact ⟨t, reply, List.mem_of_find?_eq_some hfind, rfl⟩

theorem Reachable.release_eq_some (he : e.Reachable config primitive) {fits : TransferCall → Bool}
    {e' : Executor σ} (hs : Executor.release primitive fits e = some e') :
    e'.Reachable config primitive ∧ e'.session.unfinished < e.session.unfinished := by
  obtain ⟨t, reply, ht, rfl⟩ := Executor.release_eq_some hs
  obtain ⟨h, hi, hp⟩ := he.tracks
  obtain ⟨k, -, htracks, -, hlt⟩ := hi.release hp primitive ht
  rw [htracks.session, hi.session] at hlt
  exact ⟨.release he ht, hlt⟩

/-- A release that finds nothing means that nothing is unfinished. -/
theorem Reachable.release_eq_none (he : e.Reachable config primitive)
    (hn : Executor.release primitive (fun _ => true) e = none) : e.session.unfinished = 0 := by
  obtain ⟨h, hi, hp⟩ := he.tracks
  have hempty : e.held = [] := by
    refine List.eq_nil_iff_forall_not_mem.mpr fun ⟨t, reply⟩ hm => ?_
    have hrun := ((hi.mem_held t).mp (List.mem_map_of_mem hm)).1
    obtain ⟨task, htask, -⟩ := Option.map_eq_some_iff.mp hrun
    obtain ⟨call, hcall⟩ := hi.paced.reachable.coherent.callOf?_isSome htask
    refine List.find?_eq_none.mp (Option.map_eq_none_iff.mp hn) (t, reply) hm ?_
    show (e.session.callOf? t).any _ = true
    rw [← hi.session, hcall]
    rfl
  have hlength := hi.length_held
  have hfull := hi.paced.reachable.running_eq hp
  have hpos : config.maxConcurrency.toNat ≠ 0 := fun h0 =>
    config.maxConcurrency_ne_zero (UInt64.toNat_inj.mp h0)
  rw [hempty, List.length_nil] at hlength
  rw [← hi.session]
  omega

theorem Reachable.unfinished_releaseMany {n : Nat} (he : e.Reachable config primitive)
    (hn : e.session.unfinished ≤ n) :
    (releaseMany primitive n e).1.Reachable config primitive ∧
      (releaseMany primitive n e).1.session.unfinished = 0 := by
  induction n generalizing e with
  | zero => exact ⟨he, Nat.le_zero.mp hn⟩
  | succ n ih =>
    rw [releaseMany]
    cases hs : Executor.release primitive (fun _ => true) e with
    | none => exact ⟨he, he.release_eq_none hs⟩
    | some e' =>
      obtain ⟨he', hlt⟩ := he.release_eq_some hs
      exact ih he' (by omega)

/-- **Releasing everything finishes every task.** -/
theorem Reachable.unfinished_releaseAll (he : e.Reachable config primitive) :
    (releaseAll primitive e).1.Reachable config primitive ∧
      (releaseAll primitive e).1.session.unfinished = 0 :=
  he.unfinished_releaseMany Array.countP_le_size

/-- A shutdown leaves no task. -/
theorem Reachable.unfinished_shutdown (he : e.Reachable config primitive) :
    (shutdown primitive e).Reachable config primitive ∧
      (shutdown primitive e).session.unfinished = 0 := by
  have hstop : (Executor.perform primitive (fun s => (s.beginShutdown, ())) e).1.Reachable config
      primitive := he.perform (Session.calls_halt ..)
  unfold Executor.shutdown
  exact hstop.unfinished_releaseAll

end Executor

/-! ## The limit -/

/-- The transfers start in the order of the launches, `l` being the tasks that were let in, as they
were. The permit is what starts a transfer: from then on it is one of the `m` until it ends, and
nothing stands between its task and the call but the task's next turn. -/
structure Session.StartsInOrder (m : Nat) (l : List Nat) (s : Session) : Prop where
  mem : ∀ t, t ∈ l ↔ s.WasLetIn t
  /-- They are the first that were launched, in this order. -/
  first : l = List.range l.length
  chunks : s.chunksOf l <+: s.launches
  /-- They make the calls, each when it has its next turn. -/
  calls : s.starts.toList.Perm (l.filter fun t => s.phaseOf? t ≠ some .granted)
  /-- Once no task can go on by itself, each has made its own. -/
  called : s.Parked → s.starts.toList.Perm l
  /-- A chunk is let in and makes its call once fewer than `m` are unfinished before it. -/
  soon : s.Parked → ∀ t, t < s.tasks.size → s.unfinishedBefore t < m → t ∈ s.starts

/-- The calls are those of the first tasks, in order. -/
structure Session.CallsInOrder (s : Session) : Prop where
  starts : s.starts.toList = List.range s.starts.size
  started : s.started <+: s.launches

/-- What an executor keeps, whatever callers do and in whatever order transfers are released. -/
structure Executor.Kept {σ : Type} (config : Config) (primitive : Primitive σ) (e : Executor σ) :
    Prop where
  /-- Its tasks took their turns in order. -/
  paced : ∃ h : History, h.Paced config ∧ h.session = e.session
  starts : ∃ l, e.session.StartsInOrder config.maxConcurrency.toNat l
  calls : e.session.CallsInOrder
  /-- No task can go on by itself. -/
  parked : e.session.Parked
  /-- The held transfers are those that run. -/
  nodup : (e.held.map Prod.fst).Nodup
  mem_held : ∀ t, t ∈ e.held.map Prod.fst ↔ e.session.phaseOf? t = some .running
  length_held : e.held.length = min config.maxConcurrency.toNat e.session.unfinished
  peak : e.peak ≤ config.maxConcurrency.toNat
  /-- No task is left when everything is released, also when the session is stopped before. -/
  finished : (releaseAll primitive e).1.session.unfinished = 0
  shutdown : (shutdown primitive e).session.unfinished = 0

variable {config : Config}

theorem History.LetsIn.startsInOrder {l : List Nat} {h : History} (ha : LetsIn config l h) :
    h.session.StartsInOrder config.maxConcurrency.toNat l where
  mem _ := ha.mem_iff
  first := ha.eq_range
  chunks := ha.chunksOf_prefix
  calls := ha.perm_starts
  called := ha.perm_starts_of_parked
  soon hs _ := ha.started_of_few hs

theorem History.Paced.callsInOrder {h : History} (hp : h.Paced config) :
    h.session.CallsInOrder :=
  ⟨hp.lined.starts, hp.started_prefix⟩

theorem Executor.Reachable.kept {σ : Type} {primitive : Primitive σ} {e : Executor σ}
    (he : e.Reachable config primitive) : e.Kept config primitive := by
  obtain ⟨h, hi, hp⟩ := he.tracks
  obtain ⟨l, hl⟩ := hi.paced.exists_letsIn
  refine ⟨⟨h, hi.paced, hi.session⟩, ⟨l, hi.session ▸ hl.startsInOrder⟩,
    hi.session ▸ hi.paced.callsInOrder, hi.session ▸ hp, hi.nodup, fun t => ?_, ?_, hi.peak,
    he.unfinished_releaseAll.2, he.unfinished_shutdown.2⟩
  · rw [← hi.session]
    exact (hi.mem_held t).trans (by simp)
  · rw [hi.length_held, ← hi.session]
    exact hi.paced.reachable.running_eq hp

/-- All transfers are held until they are released, and give all their bytes. -/
def Script.gated : Script :=
  [{ held := true }]

namespace Executor

/-- Four chunks were launched, two of which are transferred. -/
def gatedReads : Executor Script :=
  let primitive := Script.answer fun _ => 7
  let e : Executor Script := { session := (History.new .fours).session, state := Script.gated }
  (perform primitive (·.read .eight) (perform primitive (·.read .eight) e).1).1

theorem gatedReads_reachable : gatedReads.Reachable .fours (Script.answer fun _ => 7) := by
  have hread {e : Executor Script} (he : e.Reachable .fours (Script.answer fun _ => 7)) :
      (perform (Script.answer fun _ => 7) (·.read .eight) e).1.Reachable .fours
        (Script.answer fun _ => 7) :=
    he.perform (Session.calls_read ..)
  exact hread (hread (.start (History.start_new (by decide))))

/-- Both transfers end, so that the other two tasks are let in, and the second of these is the first
to go on. All are let in in order, and yet the calls are not those of the first tasks. -/
theorem calls_out_of_turn :
    ∃ (l : List Nat) (h : History), History.LetsIn .fours l h ∧ l = [0, 1, 2, 3] ∧
      h.session.launches = [(0, 0), (0, 1), (1, 0), (1, 1)] ∧
      h.session.started = [(0, 0), (0, 1), (1, 1)] ∧ ¬ h.session.CallsInOrder := by
  obtain ⟨h, hi, -⟩ := gatedReads_reachable.tracks
  have h₀ : h.session.phaseOf? 0 = some .running := by
    rw [hi.session]
    decide +kernel
  obtain ⟨k, -, hk, hks, -⟩ :=
    hi.paced.reachable.exists_completed h₀ [7, 7, 7, 7] (.returned 4)
  have hkp := hi.paced.paces hk
  have h₁ : k.session.phaseOf? 1 = some .running := by
    rw [hks, hi.session]
    decide +kernel
  obtain ⟨m, -, hm, hms, -⟩ := hkp.reachable.exists_completed h₁ [7, 7, 7, 7] (.returned 4)
  rw [hks, hi.session] at hms
  have hasks := History.asksInTurn_of_letIn (h := m) (by rw [hms]; decide +kernel)
  obtain ⟨l, hl⟩ := (hkp.paces hm).exists_letsIn
  have hlast := hl.step (a := .advance 3) (by rw [hms]; decide +kernel) (hasks _)
  have hsession : (m.act (.advance 3)).session = m.session.advance 3 := rfl
  rw [hms] at hsession
  have hfour : ∀ t, (m.act (.advance 3)).session.WasLetIn t ↔ t < 4 := by
    rw [hsession]
    refine fun t => ⟨fun hin => ?_, fun ht => ?_⟩
    · obtain ⟨p, hp, -⟩ := Session.wasLetIn_iff.mp hin
      exact History.lt_of_phaseOf? hp
    · revert t
      decide +kernel
  refine ⟨_, _, hlast, (hlast.eq_range_of_iff hfour).trans rfl, ?_, ?_, fun hin => ?_⟩
  · rw [hsession]
    decide +kernel
  · rw [hsession]
    decide +kernel
  · have hstarts := hin.starts
    rw [hsession] at hstarts
    revert hstarts
    decide +kernel

end Executor

end RangeFetch
