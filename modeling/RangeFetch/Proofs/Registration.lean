import Mathlib.Algebra.GroupWithZero.Nat
import RangeFetch.Proofs.Drain
import RangeFetch.Proofs.Handles

/-!
# The clients of all backends

Identifiers are given out by one counter for all backends, which moves on even when a session cannot
be started. Clients are looked up by backend, and their sessions outlive their registration in the
hands of whoever looked them up before. A `Roll` is what can be kept of the operations and of their
answers; the registry says nothing else.

Headlines:
* **`Chronicle.act`** is an operation, or a step of a session, with its entry in the roll.
* **`Sound.act`**: the registry and the roll agree after every event.
* **`registry_consistent`**: identifiers are never given out again, a client is found where it was
  made until it is removed there, and sessions are stopped by the operations that name them.
-/

namespace RangeFetch

/-! ## What happens to the backends -/

namespace Registry

variable {τ : Type}

/-- An operation, or a step of the session with the identifier `id`, which may be taken by whoever
holds it, whether the client is registered or not. -/
inductive Event (τ : Type) where
  | openBackend (workers : Option UInt64)
  | create (b : Nat) (config : Config) (transfer : τ)
  | remove (b : Nat) (id : UInt64)
  | removeAll (b : Nat)
  | cancelAll (b : Nat)
  | close (b : Nat)
  | work (id : UInt64) (a : Session.Action)

/-- What an operation answers. -/
inductive Answer where
  | done
  | refused (e : RegistryError)
  | created (id : UInt64)
  /-- It waits for these closers of the sessions with these identifiers. -/
  | removing (closers : List (UInt64 × Nat))
  deriving DecidableEq, Repr

/-- The closers that a removal of the clients that satisfy `p` waits for. -/
def closersOf (r : Registry τ) (p : Client τ → Bool) : List (UInt64 × Nat) :=
  (r.clients.filter p).map fun c => (c.id, c.session.closers.size)

/-- The registry after an event, and the answer. -/
def perform (r : Registry τ) : Event τ → Registry τ × Answer
  | .openBackend workers =>
    match r.openBackend workers with
    | .ok (r', _) => (r', .done)
    | .error f => (r, .refused (.broken f))
  | .create b config transfer =>
    match r.create b config transfer with
    | (r', .ok id) => (r', .created id)
    | (r', .error e) => (r', .refused e)
  | .remove b id =>
    match r.remove b id with
    | .ok r' => (r', .removing (r.closersOf (isClient b id)))
    | .error e => (r, .refused e)
  | .removeAll b => (r.removeAll b, .removing (r.closersOf (isAt b)))
  | .cancelAll b => (r.cancelAll b, .done)
  | .close b => (r.close b, .removing (r.closersOf (isAt b)))
  | .work id a => ((r.held? id).elim r fun c => r.setSession id (c.session.act a), .done)

/-- The event may come next. -/
def Possible (r : Registry τ) : Event τ → Prop
  | .work id a => ∃ c ∈ r.held? id, c.session.Enabled a
  | _ => True

instance (r : Registry τ) : DecidablePred r.Possible
  | .work id a => inferInstanceAs (Decidable (∃ c ∈ r.held? id, c.session.Enabled a))
  | .openBackend _ | .create .. | .remove .. | .removeAll _ | .cancelAll _ | .close _ =>
    isTrue trivial

end Registry

/-- What is known of the clients from the operations and their answers. -/
structure Roll where
  /-- How many identifiers are used up. -/
  used : Nat := 0
  /-- The identifiers that were given out, in order. -/
  issued : List UInt64 := []
  /-- The clients that were made and not removed, and the backend of each. -/
  present : List (UInt64 × Nat) := []
  /-- The sessions that an operation has stopped. -/
  stopped : List UInt64 := []
  /-- The sessions that a holder has begun to stop. -/
  approached : List UInt64 := []
  /-- The closers that removals wait for. -/
  removals : List (UInt64 × Nat) := []
  deriving DecidableEq, Repr

namespace Roll

variable (l : Roll)

/-- The clients that satisfy `g` are removed, for which the operation waits for `closers`. -/
def strike (g : UInt64 × Nat → Bool) (closers : List (UInt64 × Nat)) : Roll :=
  { l with
    present := l.present.filter fun p => !g p
    stopped := l.stopped ++ (l.present.filter g).map Prod.fst
    removals := l.removals ++ closers }

/-- The roll after an event that was answered so. -/
def note {τ : Type} : Registry.Event τ → Registry.Answer → Roll
  | .create b _ _, .created id =>
    { l with used := l.used + 1, issued := l.issued ++ [id], present := l.present ++ [(id, b)] }
  | .create .., .refused (.broken _) => { l with used := l.used + 1 }
  | .remove b id, .removing closers => l.strike (fun p => p.2 == b && p.1 == id) closers
  | .removeAll b, .removing closers | .close b, .removing closers => l.strike (·.2 == b) closers
  | .cancelAll b, .done =>
    { l with stopped := l.stopped ++ (l.present.filter (·.2 == b)).map Prod.fst }
  | .work id (.close _), .done => { l with approached := l.approached ++ [id] }
  | _, _ => l

end Roll

/-- A registry with its roll. -/
structure Chronicle (τ : Type) where
  registry : Registry τ := {}
  roll : Roll := {}

namespace Chronicle

variable {τ : Type}

/-- What an event leads to. -/
def act (x : Chronicle τ) (e : Registry.Event τ) : Chronicle τ where
  registry := (x.registry.perform e).1
  roll := x.roll.note e (x.registry.perform e).2

/-- What some events lead to. -/
def run (x : Chronicle τ) (es : List (Registry.Event τ)) : Chronicle τ :=
  es.foldl act x

/-- Each of the events may come when it does. -/
def Legal : Chronicle τ → List (Registry.Event τ) → Prop
  | _, [] => True
  | x, e :: es => x.registry.Possible e ∧ Legal (x.act e) es

instance Legal.decidable : (x : Chronicle τ) → (es : List (Registry.Event τ)) →
    Decidable (x.Legal es)
  | _, [] => isTrue trivial
  | x, e :: es =>
    have := Legal.decidable (x.act e) es
    inferInstanceAs (Decidable (_ ∧ _))

end Chronicle

/-! ## Sessions that are stopped from outside -/

namespace Session

variable {config : Config} {s : Session} {i : Nat}

/-- Closer `i` waits for the tasks, or has waited for them. -/
def Awaited (s : Session) (i : Nat) : Prop :=
  ∃ c, s.closers[i]? = some c ∧ c.waits = true ∧ (c.closing = .draining ∨ c.closing = .returned)

/-- Stopping a session is three steps. -/
theorem Reachable.halt (hr : s.Reachable config) (waits : Bool) :
    (s.halt waits).Reachable config := by
  obtain ⟨s₀, hs, hh⟩ := hr
  have hclose : (s.close waits).closers[s.closers.size]? = some ⟨waits, .raising⟩ :=
    Array.getElem?_push_size
  have hraise : ((s.close waits).closing s.closers.size).closers[s.closers.size]? =
      some ⟨waits, .halting⟩ := by
    simp only [closing, hclose]
    rw [Array.getElem?_modify, if_pos rfl, hclose, Option.map_some]
  refine ⟨s₀, hs, ((hh.step (a := .close waits) trivial).step (a := .closing s.closers.size)
    ⟨_, hclose, by simp, by simp⟩).step (a := .closing s.closers.size) ⟨_, hraise, by simp, by simp⟩⟩

theorem awaited_halt (s : Session) : s.beginShutdown.Awaited s.closers.size := by
  refine ⟨⟨true, .draining⟩, ?_, rfl, Or.inl rfl⟩
  rw [beginShutdown, halt_eq]
  exact Array.getElem?_push_size

theorem stopped_halt (s : Session) (waits : Bool) :
    (s.halt waits).stopped = true ∧ (s.halt waits).queue.stopped = true := by
  rw [halt_eq]
  exact ⟨rfl, rfl⟩

/-- What a session keeps of its closers. -/
theorem Awaited.push {c : Closer} {s' : Session} (ha : s.Awaited i)
    (hk : s'.closers = s.closers.push c) : s'.Awaited i := by
  obtain ⟨c', hc, hrest⟩ := ha
  refine ⟨c', ?_, hrest⟩
  rw [hk, Array.getElem?_push, if_neg (Nat.ne_of_lt (Array.getElem?_eq_some_iff.mp hc).1), hc]

theorem Awaited.halt (ha : s.Awaited i) (waits : Bool) : (s.halt waits).Awaited i := by
  refine ha.push (c := ⟨waits, if waits then .draining else .returned⟩) ?_
  rw [halt_eq]

end Session

namespace History

variable {config : Config} {h k : History} {i : Nat}

theorem Step.awaited (hs : Step h k) (ha : h.session.Awaited i) : k.session.Awaited i := by
  have hmove {j : Nat} {c : Closer} {next : Closing} (hc : h.session.closers[j]? = some c)
      (hk : k.session.closers = h.session.closers.modify j ({ · with closing := next }))
      (hn : c.closing = .draining ∨ c.closing = .returned → next = .returned) :
      k.session.Awaited i := by
    obtain ⟨c', hc', hw, hp⟩ := ha
    rw [Session.Awaited, hk, Array.getElem?_modify]
    by_cases hji : j = i
    · subst hji
      obtain rfl := Option.some.inj (hc.symm.trans hc')
      rw [if_pos rfl, hc]
      exact ⟨_, rfl, hw, Or.inr (hn hp)⟩
    · rw [if_neg hji]
      exact ⟨c', hc', hw, hp⟩
  cases hs with
  | close => exact ha.push rfl
  | raise hc hr => exact hmove hc rfl (by rw [hr]; simp)
  | halt hc hh => exact hmove hc rfl (by rw [hh]; simp)
  | drain hc => exact hmove hc rfl fun _ => rfl
  | idle | accept | enter | look | giveUp | launch | grant | line | begin | count | push | pass
  | leave | write | finish | handOver | take => exact ha

/-- Where nobody began to stop the session, it runs. -/
theorem Reachable.running_of_closers (hr : h.Reachable config) (h0 : h.session.closers = #[]) :
    h.session.stopped = false ∧ h.session.queue.stopped = false := by
  refine hr.induct (P := fun h => h.session.closers = #[] →
    h.session.stopped = false ∧ h.session.queue.stopped = false) (fun _ => ⟨rfl, rfl⟩) ?_ h0
  intro a b _ _ hi hs h0
  have hempty {j : Nat} {c : Closer} (hc : a.session.closers[j]? = some c)
      (hsize : b.session.closers.size = a.session.closers.size) : False := by
    rw [h0] at hsize
    exact absurd (Array.getElem?_eq_some_iff.mp hc).1 (by simp [← hsize])
  cases hs with
  | close => exact absurd h0 (by simp)
  | raise hc | halt hc | drain hc => exact (hempty hc (Array.size_modify ..)).elim
  | idle | accept | enter | look | giveUp | launch | grant | line | begin | count | push | pass
  | leave | write | finish | handOver | take => exact hi h0

end History

namespace Session

variable {config : Config} {s : Session} {a : Action} {i : Nat}

theorem Reachable.act (hr : s.Reachable config) (he : s.Enabled a) : (s.act a).Reachable config := by
  obtain ⟨s₀, hs, hh⟩ := hr
  exact ⟨s₀, hs, hh.step he⟩

theorem Reachable.awaited_act (hr : s.Reachable config) (he : s.Enabled a) (ha : s.Awaited i) :
    (s.act a).Awaited i := by
  obtain ⟨h, hh, rfl⟩ := History.reachable_session_iff.mp hr
  exact (History.step_act hh.coherent he).awaited ha

/-- A stopped session stays stopped. -/
theorem Reachable.stopped_act (hr : s.Reachable config) (he : s.Enabled a)
    (hs : s.stopped = true ∧ s.queue.stopped = true) :
    (s.act a).stopped = true ∧ (s.act a).queue.stopped = true := by
  obtain ⟨h, hh, rfl⟩ := History.reachable_session_iff.mp hr
  obtain ⟨hst, hq⟩ := (History.Stopped.step ⟨hs.1, hs.2⟩ (History.step_act hh.coherent he)).1
  exact ⟨hst, hq⟩

/-- Closers come by themselves only. -/
theorem closers_act (h0 : s.closers = #[]) (ha : ∀ waits, a ≠ .close waits) :
    (s.act a).closers = #[] := by
  have hold {s' : Session} (hf : s'.flags = s.flags) : s'.closers = #[] :=
    (congrArg (·.2.2) hf).trans h0
  cases a with
  | submit x => exact hold (flags_submit ..)
  | launch r => exact hold (flags_launch ..)
  | advance t => exact hold (flags_advance ..)
  | write t i bytes => exact hold (flags_write ..)
  | finish t o => exact hold (flags_finish ..)
  | close waits => exact absurd rfl (ha waits)
  | closing i =>
    rw [act, closing, h0]
    exact h0
  | take =>
    cases hn : s.next? with
    | none =>
      rw [act, hn]
      exact h0
    | some p =>
      rw [act, hn]
      exact hold (flags_next hn)

/-- A session that nobody began to stop is not stopped. -/
theorem Reachable.running_of_closers (hr : s.Reachable config) (h0 : s.closers = #[]) :
    s.stopped = false ∧ s.queue.stopped = false := by
  obtain ⟨h, hh, rfl⟩ := History.reachable_session_iff.mp hr
  exact hh.running_of_closers h0

/-- What whoever holds a removed session can still do with it; closer `i` is that of the removal. -/
structure Gone (s : Session) (i : Nat) : Prop where
  stopped : s.stopped = true ∧ s.queue.stopped = true
  submit : ∀ x, s.submit x = (s, .refused .finished)
  next : s.next? = some (.finished, s)
  waitFor : ∀ mode slots, slots ≠ [] → s.waitFor mode slots = some (⟨.finished, 0, slots⟩, s)
  /-- When the removal has returned, no chunk runs, and none will. -/
  drained : s.hasReturned i = true → ∀ s', s.Reaches s' →
    ∀ (t : Nat) (task : Task), s'.tasks[t]? = some task → task.phase.Finished

theorem Reachable.gone (hr : s.Reachable config) (hs : s.Awaited i) : s.Gone i := by
  obtain ⟨h, hh, rfl⟩ := History.reachable_session_iff.mp hr
  obtain ⟨c, hc, hw, hp⟩ := hs
  have hst := hh.stopped_of_queue (hh.signalled.past i c hc hp)
  refine ⟨⟨hst.session, hst.queue⟩, submit_of_stopped hst.session, next?_of_stopped hst.queue,
    fun mode slots => waitFor_of_stopped hst.queue mode, ?_⟩
  intro hret s' hs' t task ht
  have hclosing : c.closing = .returned := by
    rw [hasReturned, hc] at hret
    simpa using hret
  have hdrains := hh.drains.2 i c hc hw hclosing
  exact hdrains.finished t task ((hdrains.still s' hs').1 ▸ ht)

end Session

/-! ## The roll and the registry -/

/-- The roll is right about the client `c`. -/
structure Roll.Knows {τ : Type} (l : Roll) (c : Client τ) : Prop where
  reachable : ∃ config, c.session.Reachable config
  stopped : c.id ∈ l.stopped → c.session.stopped = true ∧ c.session.queue.stopped = true
  running : c.id ∉ l.stopped → c.id ∉ l.approached → c.session.closers = #[]
  removed : c.registered = false ↔ ∃ i, (c.id, i) ∈ l.removals
  awaited : ∀ i, (c.id, i) ∈ l.removals → c.session.Awaited i

/-- The roll is that of the registry. -/
structure Sound {τ : Type} (x : Chronicle τ) : Prop where
  next : x.registry.nextId.toNat = x.roll.used + 1
  issued : x.registry.clients.map (·.id) = x.roll.issued
  increasing : x.roll.issued.Pairwise (·.toNat < ·.toNat)
  bounded : ∀ id ∈ x.roll.issued, id.toNat ≤ x.roll.used
  present : (x.registry.clients.filter (·.registered)).map (fun c => (c.id, c.backend)) =
    x.roll.present
  stopped : ∀ id ∈ x.roll.stopped, id ∈ x.roll.issued
  removals : ∀ p ∈ x.roll.removals, p.1 ∈ x.roll.issued
  knows : ∀ c ∈ x.registry.clients, x.roll.Knows c

namespace Sound

variable {τ : Type} {x : Chronicle τ}

theorem unique (hi : Sound x) {c c' : Client τ} (hc : c ∈ x.registry.clients)
    (hc' : c' ∈ x.registry.clients) (hid : c.id = c'.id) : c = c' := by
  have hnodup : (x.registry.clients.map (·.id)).Nodup := by
    rw [hi.issued]
    exact hi.increasing.imp fun {a b} hlt heq => absurd hlt (by simp [heq])
  exact List.inj_on_of_nodup_map hnodup hc hc' hid

theorem mem_present (hi : Sound x) {id : UInt64} {b : Nat} :
    (id, b) ∈ x.roll.present ↔
      ∃ c ∈ x.registry.clients, c.registered = true ∧ c.id = id ∧ c.backend = b := by
  rw [← hi.present, List.mem_map]
  simp only [List.mem_filter, Prod.mk.injEq]
  constructor
  · rintro ⟨c, ⟨hc, hreg⟩, rfl, rfl⟩
    exact ⟨c, hc, hreg, rfl, rfl⟩
  · rintro ⟨c, hc, hreg, rfl, rfl⟩
    exact ⟨c, ⟨hc, hreg⟩, rfl, rfl⟩

/-- The client that an identifier stands for, registered or not. -/
theorem held?_eq (hi : Sound x) {c : Client τ} (hc : c ∈ x.registry.clients) :
    x.registry.held? c.id = some c := by
  obtain ⟨c', hc', hfind, hid⟩ := exists_find? (p := (·.id == c.id)) hc (by simp)
  rw [Registry.held?, hfind, hi.unique hc' hc (by simpa using hid)]

theorem mem_of_held? {r : Registry τ} {id : UInt64} {c : Client τ} (hc : r.held? id = some c) :
    c ∈ r.clients ∧ c.id = id :=
  ⟨List.mem_of_find?_eq_some hc, by simpa using List.find?_some hc⟩

/-! ### Events -/

/-- An event that changes sessions, or registrations, of the clients that satisfy `p`. -/
theorem modify (hi : Sound x) {p : Client τ → Bool} {f : Client τ → Client τ} {l : Roll}
    (hid : ∀ c, (f c).id = c.id) (hu : l.used = x.roll.used) (his : l.issued = x.roll.issued)
    (hp : ((x.registry.modify p f).clients.filter (·.registered)).map
      (fun c => (c.id, c.backend)) = l.present)
    (hs : ∀ id ∈ l.stopped, id ∈ x.roll.issued) (hr : ∀ q ∈ l.removals, q.1 ∈ x.roll.issued)
    (hk : ∀ c ∈ x.registry.clients, l.Knows (if p c then f c else c)) :
    Sound ⟨x.registry.modify p f, l⟩ where
  next := hu ▸ hi.next
  issued := (x.registry.map_id_modify hid).trans (hi.issued.trans his.symm)
  increasing := his ▸ hi.increasing
  bounded := by
    rw [his, hu]
    exact hi.bounded
  present := hp
  stopped := his ▸ hs
  removals := his ▸ hr
  knows := by
    intro c hc
    obtain ⟨c₀, hc₀, rfl⟩ := List.mem_map.mp hc
    exact hk c₀ hc₀

/-- The registrations that are left when the clients that satisfy `g` are removed. -/
theorem present_detach {p : Client τ → Bool} {g : UInt64 × Nat → Bool}
    (hp : ∀ c, p c = (c.registered && g (c.id, c.backend))) (cs : List (Client τ)) :
    ((cs.map fun c => if p c then Registry.detach c else c).filter (·.registered)).map
        (fun c => (c.id, c.backend)) =
      ((cs.filter (·.registered)).map fun c => (c.id, c.backend)).filter fun q => !g q := by
  induction cs with
  | nil => rfl
  | cons c cs ih =>
    rw [List.map_cons, hp]
    cases hreg : c.registered with
    | false => simp [hreg, ih]
    | true =>
      cases hg : g (c.id, c.backend) with
      | false => simp [hreg, hg, ih]
      | true =>
        have hgone : (Registry.detach c).registered = false := rfl
        simp [hreg, hg, ih, hgone]

/-- The identifiers of the clients that satisfy `g`. -/
theorem mem_struck (hi : Sound x) {p : Client τ → Bool} {g : UInt64 × Nat → Bool}
    (hp : ∀ c, p c = (c.registered && g (c.id, c.backend))) {id : UInt64} :
    id ∈ (x.roll.present.filter g).map Prod.fst ↔
      ∃ c ∈ x.registry.clients, p c = true ∧ c.id = id := by
  rw [List.mem_map]
  constructor
  · rintro ⟨⟨id, b⟩, hm, rfl⟩
    obtain ⟨hm, hg⟩ := List.mem_filter.mp hm
    obtain ⟨c, hc, hreg, rfl, rfl⟩ := hi.mem_present.mp hm
    exact ⟨c, hc, by rw [hp, hreg, hg]; rfl, rfl⟩
  · rintro ⟨c, hc, hpc, rfl⟩
    rw [hp, Bool.and_eq_true] at hpc
    exact ⟨(c.id, c.backend), List.mem_filter.mpr
      ⟨hi.mem_present.mpr ⟨c, hc, hpc.1, rfl, rfl⟩, hpc.2⟩, rfl⟩

theorem mem_issued (hi : Sound x) {c : Client τ} (hc : c ∈ x.registry.clients) :
    c.id ∈ x.roll.issued :=
  hi.issued ▸ List.mem_map_of_mem hc

/-- Who satisfies `g` is removed. -/
theorem detach (hi : Sound x) {p : Client τ → Bool} {g : UInt64 × Nat → Bool}
    (hp : ∀ c, p c = (c.registered && g (c.id, c.backend))) :
    Sound ⟨x.registry.modify p Registry.detach, x.roll.strike g (x.registry.closersOf p)⟩ := by
  have hclosers {q : UInt64 × Nat} : q ∈ x.registry.closersOf p ↔
      ∃ c ∈ x.registry.clients, p c = true ∧ (c.id, c.session.closers.size) = q := by
    rw [Registry.closersOf, List.mem_map]
    simp only [List.mem_filter, and_assoc]
  refine hi.modify (fun _ => rfl) rfl rfl ?_ ?_ ?_ ?_
  · exact (present_detach hp _).trans (by rw [hi.present]; rfl)
  · intro id hid
    rcases List.mem_append.mp hid with hid | hid
    · exact hi.stopped id hid
    · obtain ⟨c, hc, -, rfl⟩ := (hi.mem_struck hp).mp hid
      exact hi.mem_issued hc
  · intro q hq
    rcases List.mem_append.mp hq with hq | hq
    · exact hi.removals q hq
    · obtain ⟨c, hc, -, rfl⟩ := hclosers.mp hq
      exact hi.mem_issued hc
  · intro c hc
    have hknows := hi.knows c hc
    by_cases hpc : p c = true
    · -- the client is struck off, and its session is being shut down
      rw [if_pos hpc]
      have hmine : (c.id, c.session.closers.size) ∈ x.registry.closersOf p :=
        hclosers.mpr ⟨c, hc, hpc, rfl⟩
      obtain ⟨config, hr⟩ := hknows.reachable
      refine ⟨⟨config, hr.halt true⟩, fun _ => c.session.stopped_halt true, fun hnot => ?_,
        iff_of_true rfl ⟨_, List.mem_append_right _ hmine⟩, ?_⟩
      · exact absurd (List.mem_append_right _ ((hi.mem_struck hp).mpr ⟨c, hc, hpc, rfl⟩)) hnot
      · intro i hm
        rcases List.mem_append.mp hm with hm | hm
        · exact (hknows.awaited i hm).halt true
        · obtain ⟨c', hc', -, heq⟩ := hclosers.mp hm
          obtain ⟨hid, rfl⟩ := Prod.mk.inj heq
          rw [hi.unique hc' hc hid]
          exact c.session.awaited_halt
    · -- every entry that is new is of another client
      rw [if_neg hpc]
      have hother {c' : Client τ} (hc' : c' ∈ x.registry.clients) (hpc' : p c' = true) :
          c'.id ≠ c.id := fun hid => hpc (hi.unique hc' hc hid ▸ hpc')
      have hold {i : Nat} (hm : (c.id, i) ∈ x.roll.removals ++ x.registry.closersOf p) :
          (c.id, i) ∈ x.roll.removals := by
        refine (List.mem_append.mp hm).resolve_right fun hm => ?_
        obtain ⟨c', hc', hpc', heq⟩ := hclosers.mp hm
        exact hother hc' hpc' (Prod.mk.inj heq).1
      refine ⟨hknows.reachable, fun hm => ?_, fun hnot => ?_, ?_, fun i hm => ?_⟩
      · refine hknows.stopped ((List.mem_append.mp hm).resolve_right fun hm => ?_)
        obtain ⟨c', hc', hpc', hid⟩ := (hi.mem_struck hp).mp hm
        exact hother hc' hpc' hid
      · exact hknows.running fun hm => hnot (List.mem_append_left _ hm)
      · rw [hknows.removed]
        exact ⟨fun ⟨i, hm⟩ => ⟨i, List.mem_append_left _ hm⟩, fun ⟨i, hm⟩ => ⟨i, hold hm⟩⟩
      · exact hknows.awaited i (hold hm)

/-- An event that changes sessions only. -/
theorem change (hi : Sound x) {p : Client τ → Bool} {g : Client τ → Session} {l : Roll}
    (hu : l.used = x.roll.used) (his : l.issued = x.roll.issued)
    (hp : l.present = x.roll.present) (hr : l.removals = x.roll.removals)
    (hs : ∀ id ∈ l.stopped, id ∈ x.roll.issued)
    (hk : ∀ c ∈ x.registry.clients,
      l.Knows { c with session := if p c then g c else c.session }) :
    Sound ⟨x.registry.modify p fun c => { c with session := g c }, l⟩ := by
  have hif (c : Client τ) : (if p c then { c with session := g c } else c) =
      { c with session := if p c then g c else c.session } := by
    split <;> rfl
  refine hi.modify (fun _ => rfl) hu his ?_ hs (hr ▸ hi.removals) fun c hc => hif c ▸ hk c hc
  rw [hp, ← hi.present, Registry.modify]
  simp only [hif, List.filter_map, List.map_map]
  rfl

/-- The sessions of the clients of a backend are stopped. -/
theorem cancelAll (hi : Sound x) (b : Nat) : Sound (x.act (.cancelAll b)) := by
  have hp (c : Client τ) : Registry.isAt b c = (c.registered && (c.id, c.backend).2 == b) := rfl
  refine hi.change (p := Registry.isAt b) rfl rfl rfl rfl ?_ ?_
  · intro id hid
    rcases List.mem_append.mp hid with hid | hid
    · exact hi.stopped id hid
    · obtain ⟨c, hc, -, rfl⟩ := (hi.mem_struck hp).mp hid
      exact hi.mem_issued hc
  · intro c hc
    have hknows := hi.knows c hc
    by_cases hat : Registry.isAt b c = true
    · simp only [if_pos hat]
      have hmine : c.id ∈ (x.roll.present.filter (·.2 == b)).map Prod.fst :=
        (hi.mem_struck hp).mpr ⟨c, hc, hat, rfl⟩
      obtain ⟨config, hr⟩ := hknows.reachable
      exact ⟨⟨config, hr.halt false⟩, fun _ => c.session.stopped_halt false,
        fun hnot => absurd (List.mem_append_right _ hmine) hnot, hknows.removed,
        fun i hm => (hknows.awaited i hm).halt false⟩
    · simp only [if_neg hat]
      refine ⟨hknows.reachable, fun hm => ?_, fun hnot => ?_, hknows.removed, hknows.awaited⟩
      · refine hknows.stopped ((List.mem_append.mp hm).resolve_right fun hm => ?_)
        obtain ⟨c', hc', hat', hid⟩ := (hi.mem_struck hp).mp hm
        exact hat (hi.unique hc' hc hid ▸ hat')
      · exact hknows.running fun hm => hnot (List.mem_append_left _ hm)

/-- A step of a session. -/
theorem work (hi : Sound x) {id : UInt64} {a : Session.Action}
    (hp : x.registry.Possible (.work id a)) : Sound (x.act (.work id a)) := by
  obtain ⟨c₀, hheld, he⟩ := hp
  obtain ⟨hc₀, rfl⟩ := mem_of_held? hheld
  have hstopped : (x.act (.work c₀.id a)).roll.stopped = x.roll.stopped := by
    cases a <;> rfl
  have hremovals : (x.act (.work c₀.id a)).roll.removals = x.roll.removals := by
    cases a <;> rfl
  have happroached (id : UInt64) (hm : id ∈ x.roll.approached) :
      id ∈ (x.act (.work c₀.id a)).roll.approached := by
    cases a with
    | close => exact List.mem_append_left _ hm
    | submit | launch | advance | write | finish | closing | take => exact hm
  have hact : x.act (.work c₀.id a) =
      ⟨x.registry.modify (·.id == c₀.id) fun c => { c with session := c₀.session.act a },
        (x.act (.work c₀.id a)).roll⟩ := by
    simp [Chronicle.act, Registry.perform, show x.registry.held? c₀.id = some c₀ from hheld,
      Registry.setSession]
  rw [hact]
  refine hi.change (by cases a <;> rfl) (by cases a <;> rfl) (by cases a <;> rfl) hremovals
    (hstopped ▸ hi.stopped) ?_
  intro c hc
  have hknows := hi.knows c hc
  by_cases hid : c.id = c₀.id
  · obtain rfl := hi.unique hc hc₀ hid
    obtain ⟨config, hr⟩ := hknows.reachable
    simp only [beq_self_eq_true, if_true]
    refine ⟨⟨config, hr.act he⟩, fun hm => ?_, fun hnot happ => ?_, ?_, fun i hm => ?_⟩
    · exact hr.stopped_act he (hknows.stopped (hstopped ▸ hm))
    · refine Session.closers_act (hknows.running (hstopped ▸ hnot) fun hm =>
        happ (happroached c.id hm)) ?_
      rintro waits rfl
      exact happ (List.mem_append_right _ (List.mem_singleton_self c.id))
    · rw [hremovals]
      exact hknows.removed
    · exact hr.awaited_act he (hknows.awaited i (hremovals ▸ hm))
  · have hne : (c.id == c₀.id) = false := by simpa using hid
    simp only [hne, Bool.false_eq_true, if_false]
    refine ⟨hknows.reachable, fun hm => hknows.stopped (hstopped ▸ hm), fun hnot happ => ?_, ?_,
      fun i hm => hknows.awaited i (hremovals ▸ hm)⟩
    · exact hknows.running (hstopped ▸ hnot) fun hm => happ (happroached c.id hm)
    · rw [hremovals]
      exact hknows.removed

/-- Backends are opened and closed without a client. -/
theorem congr (hi : Sound x) {r : Registry τ} (hn : r.nextId = x.registry.nextId)
    (hc : r.clients = x.registry.clients) : Sound ⟨r, x.roll⟩ where
  next := hn ▸ hi.next
  issued := hc ▸ hi.issued
  increasing := hi.increasing
  bounded := hi.bounded
  present := hc ▸ hi.present
  stopped := hi.stopped
  removals := hi.removals
  knows := hc ▸ hi.knows

theorem toNat_nextId (hi : Sound x) (hfew : x.roll.used + 1 < UInt64.size - 1) :
    (x.registry.nextId + 1).toNat = x.roll.used + 2 := by
  rw [UInt64.toNat_add, hi.next, UInt64.toNat_one]
  unfold UInt64.size at hfew
  exact Nat.mod_eq_of_lt (by omega)

/-- A creation that fails uses up an identifier. -/
theorem createFailed (hi : Sound x) (hfew : x.roll.used + 1 < UInt64.size - 1) :
    Sound ⟨{ x.registry with nextId := x.registry.nextId + 1 },
      { x.roll with used := x.roll.used + 1 }⟩ where
  next := hi.toNat_nextId hfew
  issued := hi.issued
  increasing := hi.increasing
  bounded id hid := Nat.le_succ_of_le (hi.bounded id hid)
  present := hi.present
  stopped := hi.stopped
  removals := hi.removals
  knows c hc := ⟨(hi.knows c hc).reachable, (hi.knows c hc).stopped, (hi.knows c hc).running,
    (hi.knows c hc).removed, (hi.knows c hc).awaited⟩

/-- A creation that succeeds gives out the next identifier. -/
theorem createOk (hi : Sound x) (hfew : x.roll.used + 1 < UInt64.size - 1) {b : Nat}
    {config : Config} {session : Session} {transfer : τ}
    (hs : Session.start config = .ok session) :
    Sound ⟨{ x.registry with
        nextId := x.registry.nextId + 1
        clients := x.registry.clients ++
          [{ id := x.registry.nextId, backend := b, session, transfer }] },
      { x.roll with
        used := x.roll.used + 1
        issued := x.roll.issued ++ [x.registry.nextId]
        present := x.roll.present ++ [(x.registry.nextId, b)] }⟩ := by
  have hfailed := hi.createFailed hfew
  have hnew (id : UInt64) (hid : id ∈ x.roll.issued) : id.toNat < x.registry.nextId.toNat := by
    rw [hi.next]
    exact Nat.lt_succ_of_le (hi.bounded id hid)
  have hfresh : x.registry.nextId ∉ x.roll.issued := fun hm =>
    absurd (hnew _ hm) (Nat.lt_irrefl _)
  refine ⟨hfailed.next, ?_, ?_, ?_, ?_, fun id hid => List.mem_append_left _ (hi.stopped id hid),
    fun q hq => List.mem_append_left _ (hi.removals q hq), ?_⟩
  · rw [List.map_append, hi.issued]
    rfl
  · refine List.pairwise_append.mpr ⟨hi.increasing, List.pairwise_singleton .., ?_⟩
    intro id hid id' hid'
    rw [List.mem_singleton.mp hid']
    exact hnew id hid
  · intro id hid
    rcases List.mem_append.mp hid with hid | hid
    · exact hfailed.bounded id hid
    · rw [List.mem_singleton.mp hid]
      exact Nat.le_of_eq hi.next
  · rw [List.filter_append, List.map_append, hi.present]
    rfl
  · intro c hc
    rcases List.mem_append.mp hc with hc | hc
    · exact ⟨(hfailed.knows c hc).reachable, (hfailed.knows c hc).stopped,
        (hfailed.knows c hc).running, (hfailed.knows c hc).removed, (hfailed.knows c hc).awaited⟩
    · rw [List.mem_singleton.mp hc]
      have hnone (i : Nat) : (x.registry.nextId, i) ∉ x.roll.removals :=
        fun hm => hfresh (hi.removals _ hm)
      refine ⟨⟨config, session, hs, .refl _⟩, fun hm => absurd (hi.stopped _ hm) hfresh,
        fun _ _ => ?_, ?_, fun i hm => absurd hm (hnone i)⟩
      · rw [History.start_eq hs]
        rfl
      · exact iff_of_false (by simp) fun ⟨i, hm⟩ => hnone i hm

theorem create (hi : Sound x) {b : Nat} {config : Config} {transfer : τ}
    (hfew : (x.act (.create b config transfer)).roll.used < UInt64.size - 1) :
    Sound (x.act (.create b config transfer)) := by
  cases hopen : x.registry.isOpen b with
  | false => simpa [Chronicle.act, Registry.perform, Registry.create, hopen, Roll.note] using hi
  | true =>
    cases hs : Session.start config with
    | error f =>
      simp only [Chronicle.act, Registry.perform, Registry.create, hopen, hs, Roll.note,
        if_true] at hfew ⊢
      exact hi.createFailed hfew
    | ok session =>
      simp only [Chronicle.act, Registry.perform, Registry.create, hopen, hs, Roll.note,
        if_true] at hfew ⊢
      exact hi.createOk hfew hs

theorem remove (hi : Sound x) (b : Nat) (id : UInt64) : Sound (x.act (.remove b id)) := by
  cases hfound : (x.registry.client? b id).isSome with
  | false => simpa [Chronicle.act, Registry.perform, Registry.remove, hfound, Roll.note] using hi
  | true =>
    simp only [Chronicle.act, Registry.perform, Registry.remove, hfound, Roll.note, if_true]
    exact hi.detach fun c => by simp [Registry.isClient, Registry.isAt, Bool.and_assoc]

theorem removeAll (hi : Sound x) (b : Nat) : Sound (x.act (.removeAll b)) :=
  hi.detach fun _ => rfl

/-- **The roll and the registry agree after every event.** -/
theorem act (hi : Sound x) {e : Registry.Event τ} (hp : x.registry.Possible e)
    (hfew : (x.act e).roll.used < UInt64.size - 1) : Sound (x.act e) := by
  cases e with
  | openBackend workers =>
    by_cases hw : workers = some 0
    · simpa [Chronicle.act, Registry.perform, Registry.openBackend, hw, Roll.note] using hi
    · simp only [Chronicle.act, Registry.perform, Registry.openBackend, if_neg hw, Roll.note]
      exact hi.congr rfl rfl
  | create b config transfer => exact hi.create hfew
  | remove b id => exact hi.remove b id
  | removeAll b => exact hi.removeAll b
  | cancelAll b => exact hi.cancelAll b
  | close b => exact (hi.removeAll b).congr rfl rfl
  | work id a => exact hi.work hp

end Sound

/-! ## Every sequence of operations -/

theorem Roll.used_le {τ : Type} (l : Roll) (e : Registry.Event τ) (a : Registry.Answer) :
    l.used ≤ (l.note e a).used := by
  unfold note
  split
  case h_1 | h_2 => exact Nat.le_succ _
  all_goals exact Nat.le_refl _

namespace Chronicle

variable {τ : Type} {x : Chronicle τ} {es : List (Registry.Event τ)}

theorem used_le (x : Chronicle τ) (es : List (Registry.Event τ)) :
    x.roll.used ≤ (x.run es).roll.used := by
  induction es generalizing x with
  | nil => exact Nat.le_refl _
  | cons e es ih => exact Nat.le_trans (x.roll.used_le e _) (ih (x.act e))

theorem sound_new : Sound ({} : Chronicle τ) where
  next := rfl
  issued := rfl
  increasing := List.Pairwise.nil
  bounded _ hid := absurd hid List.not_mem_nil
  present := rfl
  stopped _ hid := absurd hid List.not_mem_nil
  removals _ hq := absurd hq List.not_mem_nil
  knows _ hc := absurd hc List.not_mem_nil

theorem sound_run (hi : Sound x) (hl : x.Legal es)
    (hfew : (x.run es).roll.used < UInt64.size - 1) : Sound (x.run es) := by
  induction es generalizing x with
  | nil => exact hi
  | cons e es ih =>
    exact ih (hi.act hl.1 (Nat.lt_of_le_of_lt (used_le (x.act e) es) hfew)) hl.2 hfew

/-- What the roll says of the registry. -/
structure Consistent (x : Chronicle τ) : Prop where
  increasing : x.roll.issued.Pairwise (·.toNat < ·.toNat)
  /-- The next identifier is greater than all before, and than those that were used up in vain. -/
  next : ∀ b config transfer, x.registry.isOpen b = true →
    config.maxConcurrency.toNat ≤ maxPermits →
      ∃ id, (x.registry.perform (.create b config transfer)).2 = .created id ∧
        id.toNat = x.roll.used + 1 ∧ ∀ old ∈ x.roll.issued, old.toNat < id.toNat
  /-- A session that cannot be started uses up an identifier, and adds no client. -/
  broken : ∀ b config transfer, x.registry.isOpen b = true →
    maxPermits < config.maxConcurrency.toNat →
      x.registry.perform (.create b config transfer) =
        ({ x.registry with nextId := x.registry.nextId + 1 }, .refused (.broken .tooManyPermits))
  closed : ∀ b config transfer, x.registry.isOpen b = false →
    x.registry.perform (.create b config transfer) = (x.registry, .refused .closed)
  /-- A client is found at the backend that made it, until it is removed there. -/
  lookup : ∀ b id, (x.registry.client? b id).isSome ↔ (id, b) ∈ x.roll.present
  count : ∀ b, x.registry.clientCount b = x.roll.present.countP (·.2 == b)
  once : (x.roll.present.map Prod.fst).Nodup
  whereabouts : ∀ id ∈ x.roll.issued,
    (∃ b, (id, b) ∈ x.roll.present) ↔ ¬ ∃ i, (id, i) ∈ x.roll.removals
  /-- Nobody else can be removed. -/
  unknown : ∀ b id, (id, b) ∉ x.roll.present →
    x.registry.perform (.remove b id) = (x.registry, .refused (.unknownClient id))
  /-- A removed session is gone, and drained when the removal has returned. -/
  gone : ∀ id i, (id, i) ∈ x.roll.removals →
    ∃ c, x.registry.held? id = some c ∧ c.registered = false ∧ c.session.Gone i
  /-- The sessions that operations have stopped are stopped, and others only by their holders. -/
  stopped : ∀ id ∈ x.roll.stopped, ∃ c, x.registry.held? id = some c ∧
    c.session.stopped = true ∧ c.session.queue.stopped = true
  running : ∀ id c, x.registry.held? id = some c → id ∉ x.roll.stopped →
    id ∉ x.roll.approached → c.session.stopped = false ∧ c.session.queue.stopped = false
  /-- A cancellation leaves all clients registered, and no trace at those of other backends. -/
  cancelled : ∀ b, (∀ b' id, ((x.registry.cancelAll b).client? b' id).isSome =
      (x.registry.client? b' id).isSome) ∧
    ∀ id c, x.registry.held? id = some c →
      (x.registry.cancelAll b).held? id = some
        (if (id, b) ∈ x.roll.present then { c with session := c.session.stop } else c)

end Chronicle

namespace Sound

variable {τ : Type} {x : Chronicle τ}

theorem lookup (hi : Sound x) (b : Nat) (id : UInt64) :
    (x.registry.client? b id).isSome ↔ (id, b) ∈ x.roll.present := by
  rw [hi.mem_present, Registry.client?, List.find?_isSome]
  refine exists_congr fun c => and_congr_right fun _ => ?_
  simp [Registry.isClient, Registry.isAt, and_assoc, and_comm]

theorem count (hi : Sound x) (b : Nat) :
    x.registry.clientCount b = x.roll.present.countP (·.2 == b) := by
  rw [← hi.present, List.countP_map, List.countP_filter]
  refine List.countP_congr fun c _ => ?_
  simp [Registry.isAt, and_comm]

theorem once (hi : Sound x) : (x.roll.present.map Prod.fst).Nodup := by
  have hnodup : (x.registry.clients.map (·.id)).Nodup := by
    rw [hi.issued]
    exact hi.increasing.imp fun {a b} hlt heq => absurd hlt (by simp [heq])
  rw [← hi.present, List.map_map]
  exact hnodup.sublist (List.filter_sublist.map _)

theorem exists_held (hi : Sound x) {id : UInt64} (hid : id ∈ x.roll.issued) :
    ∃ c ∈ x.registry.clients, c.id = id ∧ x.registry.held? id = some c := by
  rw [← hi.issued] at hid
  obtain ⟨c, hc, rfl⟩ := List.mem_map.mp hid
  exact ⟨c, hc, rfl, hi.held?_eq hc⟩

theorem whereabouts (hi : Sound x) {id : UInt64} (hid : id ∈ x.roll.issued) :
    (∃ b, (id, b) ∈ x.roll.present) ↔ ¬ ∃ i, (id, i) ∈ x.roll.removals := by
  obtain ⟨c, hc, rfl, -⟩ := hi.exists_held hid
  rw [← (hi.knows c hc).removed, Bool.not_eq_false]
  constructor
  · rintro ⟨b, hm⟩
    obtain ⟨c', hc', hreg, hid', -⟩ := hi.mem_present.mp hm
    rwa [← hi.unique hc' hc hid']
  · intro hreg
    exact ⟨c.backend, hi.mem_present.mpr ⟨c, hc, hreg, rfl, rfl⟩⟩

theorem unknown (hi : Sound x) {b : Nat} {id : UInt64} (hm : (id, b) ∉ x.roll.present) :
    x.registry.perform (.remove b id) = (x.registry, .refused (.unknownClient id)) := by
  rw [← hi.lookup] at hm
  simp [Registry.perform, Registry.remove, hm]

theorem gone (hi : Sound x) {id : UInt64} {i : Nat} (hm : (id, i) ∈ x.roll.removals) :
    ∃ c, x.registry.held? id = some c ∧ c.registered = false ∧ c.session.Gone i := by
  obtain ⟨c, hc, rfl, hheld⟩ := hi.exists_held (hi.removals _ hm)
  obtain ⟨config, hr⟩ := (hi.knows c hc).reachable
  exact ⟨c, hheld, (hi.knows c hc).removed.mpr ⟨i, hm⟩, hr.gone ((hi.knows c hc).awaited i hm)⟩

theorem cancelled (hi : Sound x) (b : Nat) :
    (∀ b' id, ((x.registry.cancelAll b).client? b' id).isSome =
      (x.registry.client? b' id).isSome) ∧
    ∀ id c, x.registry.held? id = some c →
      (x.registry.cancelAll b).held? id = some
        (if (id, b) ∈ x.roll.present then { c with session := c.session.stop } else c) := by
  have hafter := hi.cancelAll b
  constructor
  · intro b' id
    rw [Bool.eq_iff_iff, hi.lookup]
    exact hafter.lookup b' id
  · intro id c hheld
    obtain ⟨hc, rfl⟩ := mem_of_held? hheld
    have hat : (c.id, b) ∈ x.roll.present ↔ Registry.isAt b c = true := by
      rw [hi.mem_present, Registry.isAt, Bool.and_eq_true, beq_iff_eq]
      constructor
      · rintro ⟨c', hc', hreg, hid, hb⟩
        rw [← hi.unique hc' hc hid]
        exact ⟨hreg, hb⟩
      · rintro ⟨hreg, hb⟩
        exact ⟨c, hc, hreg, rfl, hb⟩
    simp only [hat]
    have hnew : (if Registry.isAt b c then { c with session := c.session.stop } else c) ∈
        (x.registry.cancelAll b).clients := List.mem_map_of_mem hc
    have hfound := hafter.held?_eq hnew
    have hid : (if Registry.isAt b c then { c with session := c.session.stop } else c).id = c.id := by
      split <;> rfl
    rw [hid] at hfound
    exact hfound

end Sound

namespace Chronicle

variable {τ : Type} {es : List (Registry.Event τ)}

/-- **The registry is what the operations made of it.** Identifiers are given out in order and never
again. A client is found where it was made until it is removed there, and its session is stopped by
then, and drained when the removal returns. A cancellation stops the sessions that are registered
with its backend at the time, and nothing else. -/
theorem registry_consistent (hl : ({} : Chronicle τ).Legal es)
    (hfew : (({} : Chronicle τ).run es).roll.used < 2 ^ 64 - 1) :
    (({} : Chronicle τ).run es).Consistent := by
  have hi : Sound (({} : Chronicle τ).run es) := sound_run sound_new hl hfew
  generalize ({} : Chronicle τ).run es = x at hi
  refine ⟨hi.increasing, ?next, ?broken, ?closed, hi.lookup, hi.count, hi.once,
    fun id hid => hi.whereabouts hid, fun b id hm => hi.unknown hm, fun id i hm => hi.gone hm,
    ?stopped, ?running, hi.cancelled⟩
  case next =>
    intro b config transfer hopen hfit
    refine ⟨x.registry.nextId, ?_, hi.next, fun old hold => ?_⟩
    · simp [Registry.perform, Registry.create, hopen, History.start_new hfit]
    · rw [hi.next]
      exact Nat.lt_succ_of_le (hi.bounded old hold)
  case broken =>
    intro b config transfer hopen hlarge
    have hs : Session.start config = .error .tooManyPermits := by
      rw [Session.start, Permits.ofCount, if_neg (Nat.not_le.mpr hlarge)]
      rfl
    simp [Registry.perform, Registry.create, hopen, hs]
  case closed =>
    intro b config transfer hopen
    simp [Registry.perform, Registry.create, hopen]
  case stopped =>
    intro id hid
    obtain ⟨c, hc, rfl, hheld⟩ := hi.exists_held (hi.stopped id hid)
    exact ⟨c, hheld, (hi.knows c hc).stopped hid⟩
  case running =>
    intro id c hheld hnot happ
    obtain ⟨hc, rfl⟩ := Sound.mem_of_held? hheld
    obtain ⟨config, hr⟩ := (hi.knows c hc).reachable
    exact hr.running_of_closers ((hi.knows c hc).running hnot happ)

end Chronicle

/-! ## Two backends -/

/-- More transfers at once than a limiter can permit. -/
def Config.crowded : Config :=
  { Config.fours with maxConcurrency := 0xffffffffffffffff, maxConcurrency_ne_zero := by decide }

/-- Clients of two backends: a creation in vain, a cancellation of two clients, a later one, the
removal of a client whose session was stopped before, and that of the clients of a closed backend. -/
def Registry.fourClients : List (Registry.Event Unit) :=
  [.openBackend none, .openBackend (some 2), .create 0 .fours (), .create 1 .crowded (),
    .create 1 .fours (), .create 0 .fours (), .work 1 (.submit .eight), .cancelAll 0,
    .create 0 .fours (), .remove 1 1, .remove 0 1, .close 1, .create 1 .fours (),
    .work 3 (.closing 0), .work 1 (.launch 0)]

namespace Chronicle

theorem registry_consistent_fourClients :
    (({} : Chronicle Unit).run Registry.fourClients).Consistent ∧
      (({} : Chronicle Unit).run Registry.fourClients).roll =
        { used := 5, issued := [1, 3, 4, 5], present := [(4, 0), (5, 0)],
          stopped := [1, 4, 1, 3], removals := [(1, 1), (3, 0)] } :=
  ⟨registry_consistent (by decide +kernel) (by decide +kernel), by decide +kernel⟩

end Chronicle

end RangeFetch
