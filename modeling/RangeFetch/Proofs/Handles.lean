import Mathlib.Data.List.Induction
import Mathlib.Data.List.Nodup
import RangeFetch.Boundary
import RangeFetch.Proofs.Calls

/-!
# Handles of clients

Callers know a client by a bare number that every open backend is asked for. A `Ledger` is what a
caller can keep of the calls it made and of their answers: which backends it opened and did not
close, and of each handle that it was given whether it is live, cancelled or dead. No look at the
sessions is needed to tell how a handle answers.

Headlines:
* **`Boundary.perform`** is one event at the boundary, and **`Ledger.after`** what the caller notes.
* **`Agrees.step`**: the ledger and the registry agree after every event.
* **`Boundary.handles_safe`**: handles are different and not null, they answer as the ledger says,
  and a dead one stays dead.
-/

namespace RangeFetch

/-! ## What happens at the boundary -/

namespace Boundary

/-- A call of a function, or a step that goes on in the session of a client between the calls. -/
inductive Event where
  | openBackend (hasPlace : Bool)
  | closeBackend (backend : Option Nat)
  | createClient (backend : Option Nat) (arg : Option ConfigArg) (hasPlace : Bool)
      (env : Environment)
  | removeClient (client : UInt64)
  | requestRead (client : UInt64) (path : Memory) (range : ByteRange)
      (destination : Option Buffer) (id : UInt64)
  | waitForCompletions (client : UInt64) (memory : Option (List Completion)) (room : Nat)
      (hasPlace : Bool) (mode : Session.WaitMode)
  | cancelAllReads
  | removeAllClients
  | work (client : UInt64) (a : Session.Action) (works : a.Works)

/-- What a caller is told. -/
inductive Answer where
  /-- Nothing: no call was made, or its caller has to wait. -/
  | nothing
  | code (c : Code)
  | opened (c : Code) (backend : Option Nat)
  | created (c : Code) (client : Option UInt64)
  | waited (reply : WaitReply)

/-- The state after an event, and what the caller is told. -/
def perform (x : Boundary) : Event → Boundary × Answer
  | .openBackend hasPlace =>
    let (y, code, b) := x.openBackend hasPlace
    (y, .opened code b)
  | .closeBackend backend =>
    let (y, code) := x.closeBackend backend
    (y, .code code)
  | .createClient backend arg hasPlace env =>
    let (y, code, id) := x.createClient backend arg hasPlace env
    (y, .created code id)
  | .removeClient client =>
    let (y, code) := x.removeClient client
    (y, .code code)
  | .requestRead client path range destination id =>
    let (y, code) := x.requestRead client path range destination id
    (y, .code code)
  | .waitForCompletions client memory room hasPlace mode =>
    match x.waitForCompletions client memory room hasPlace mode with
    | some (reply, y) => (y, .waited reply)
    | none => (x, .nothing)
  | .cancelAllReads =>
    let (y, code) := x.cancelAllReads
    (y, .code code)
  | .removeAllClients =>
    let (y, code) := x.removeAllClients
    (y, .code code)
  | .work client a _ =>
    ({ x with registry := x.registry.modify (·.id == client) fun c =>
        { c with session := c.session.act a } }, .nothing)

end Boundary

/-! ## What the caller keeps -/

/-- Where a handle stands. -/
inductive HandleState where
  | live
  | cancelled
  | dead
  deriving DecidableEq, Repr

/-- A handle that was given out, and the backend that its client belongs to. -/
structure Handle where
  id : UInt64
  backend : Nat
  state : HandleState
  deriving DecidableEq, Repr

/-- What the calls and their answers tell. -/
structure Ledger where
  /-- The backends that were opened and not closed. -/
  backends : List Nat := []
  /-- In the order in which they were given out. -/
  handles : List Handle := []
  /-- The creations that were not refused for their arguments. -/
  creations : Nat := 0
  deriving DecidableEq, Repr

namespace Ledger

open Boundary (Event Answer)

variable (l : Ledger)

/-- The handles that satisfy `p` change their state. -/
def change (p : Handle → Bool) (state : HandleState) : Ledger :=
  { l with handles := l.handles.map fun k => if p k then { k with state } else k }

/-- The ledger after an event and its answer. -/
def after : Event → Answer → Ledger
  | .openBackend _, .opened _ (some b) => { l with backends := l.backends ++ [b] }
  | .closeBackend (some b), _ =>
    { l.change (·.backend == b) .dead with backends := l.backends.filter (· != b) }
  | .createClient (some b) .., .created code (some id) =>
    { l with
      creations := l.creations + if code = .invalidParameter then 0 else 1
      handles := l.handles ++ [⟨id, b, .live⟩] }
  | .createClient .., .created code _ =>
    { l with creations := l.creations + if code = .invalidParameter then 0 else 1 }
  | .removeClient id, _ => l.change (·.id == id) .dead
  | .cancelAllReads, _ => l.change (fun k => k.state = .live ∧ k.backend ∈ l.backends) .cancelled
  | .removeAllClients, _ => l.change (·.backend ∈ l.backends) .dead
  | _, _ => l

/-- Where the handle `id` stands. One that was never given out is as good as dead. -/
def stateOf (id : UInt64) : HandleState :=
  ((l.handles.find? (·.id == id)).map (·.state)).getD .dead

end Ledger

namespace Boundary

/-- One event, with a caller that keeps a ledger. -/
def observe (p : Boundary × Ledger) (e : Event) : Boundary × Ledger :=
  ((p.1.perform e).1, p.2.after e (p.1.perform e).2)

/-- The boundary and the ledger after some events, in a process that has the files of `tree`. -/
def observed (tree : FileTree) (events : List Event) : Boundary × Ledger :=
  events.foldl observe ({ tree }, {})

end Boundary

/-! ## The registry -/

/-- A search finds something, if there is something to find. -/
theorem exists_find? {α : Type} {p : α → Bool} {xs : List α} {a : α} (ha : a ∈ xs)
    (hp : p a = true) : ∃ b ∈ xs, xs.find? p = some b ∧ p b = true := by
  have hsome : (xs.find? p).isSome := by
    rw [List.find?_isSome]
    exact ⟨a, ha, hp⟩
  obtain ⟨b, hb⟩ := Option.isSome_iff_exists.mp hsome
  exact ⟨b, List.mem_of_find?_eq_some hb, hb, List.find?_some hb⟩

namespace Registry

variable {τ : Type} {r : Registry τ}

theorem mem_openBackends {b : Nat} : b ∈ r.openBackends ↔ r.isOpen b = true := by
  unfold openBackends
  rw [List.mem_filter, List.mem_range, and_iff_right_iff_imp]
  intro hb
  by_contra hlen
  unfold isOpen at hb
  rw [List.getElem?_eq_none (Nat.le_of_not_lt hlen)] at hb
  exact absurd hb (by simp)

theorem nodup_openBackends : r.openBackends.Nodup :=
  List.nodup_range.filter _

/-- Changing the clients of one backend after the other changes those of all. -/
theorem foldl_modify {f : Client τ → Client τ} (hf : ∀ c, (f c).backend = c.backend)
    {bs : List Nat} (hn : bs.Nodup) (r : Registry τ) :
    bs.foldl (fun r b => r.modify (isAt b) f) r =
      r.modify (fun c => c.registered && bs.contains c.backend) f := by
  induction bs generalizing r with
  | nil =>
    simp only [List.foldl_nil, modify, List.contains_nil, Bool.and_false, Bool.false_eq_true,
      if_false, List.map_id']
  | cons b bs ih =>
    obtain ⟨hb, hbs⟩ := List.nodup_cons.mp hn
    rw [List.foldl_cons, ih hbs]
    unfold modify
    simp only [List.map_map]
    congr 1
    refine List.map_congr_left ?_
    intro c _
    simp only [Function.comp]
    by_cases hc : c.registered = true ∧ c.backend = b
    · obtain ⟨hreg, rfl⟩ := hc
      simp [isAt, hreg, hf, hb]
    · have hat : isAt b c = false := by
        simpa [isAt] using hc
      simp only [hat, Bool.false_eq_true, if_false]
      by_cases hreg : c.registered = true
      · have hne : c.backend ≠ b := fun h => hc ⟨hreg, h⟩
        simp [hreg, hne]
      · simp [hreg]

end Registry

/-! ## The ledger and the registry -/

/-- What the ledger has of a client. -/
def Handle.ofClient (c : Client Store) : Handle where
  id := c.id
  backend := c.backend
  state := if c.registered then (if c.session.stopped then .cancelled else .live) else .dead

/-- The ledger is that of the registry. -/
structure Agrees (x : Boundary) (l : Ledger) : Prop where
  handles : l.handles = x.registry.clients.map Handle.ofClient
  backends : ∀ b, b ∈ l.backends ↔ x.registry.isOpen b = true
  /-- A client is registered with an open backend. -/
  housed : ∀ c ∈ x.registry.clients, c.registered = true → x.registry.isOpen c.backend = true
  quiet : ∀ c ∈ x.registry.clients, c.session.Quiet
  /-- Identifiers are given out in order, from one on. -/
  increasing : (x.registry.clients.map (·.id.toNat)).Pairwise (· < ·)
  below : ∀ c ∈ x.registry.clients, 0 < c.id.toNat ∧ c.id.toNat < x.registry.nextId.toNat
  next_pos : 0 < x.registry.nextId.toNat
  next_le : x.registry.nextId.toNat ≤ l.creations + 1

namespace Agrees

variable {x : Boundary} {l : Ledger}

/-! ### Looking up -/

theorem unique (hi : Agrees x l) {c c' : Client Store} (hc : c ∈ x.registry.clients)
    (hc' : c' ∈ x.registry.clients) (hid : c.id = c'.id) : c = c' := by
  have hnodup : (x.registry.clients.map (·.id.toNat)).Nodup :=
    hi.increasing.imp Nat.ne_of_lt
  exact List.inj_on_of_nodup_map hnodup hc hc' (congrArg UInt64.toNat hid)

/-- A registered client is found in its own backend. -/
theorem client?_at (hi : Agrees x l) {c : Client Store} (hc : c ∈ x.registry.clients)
    (hreg : c.registered = true) : x.registry.client? c.backend c.id = some c := by
  have hclient : Registry.isClient c.backend c.id c = true := by
    simp [Registry.isClient, Registry.isAt, hreg]
  obtain ⟨c', hc', hfind, hp⟩ := exists_find? hc hclient
  simp only [Registry.isClient, Bool.and_eq_true, beq_iff_eq] at hp
  rw [Registry.client?, hfind, hi.unique hc' hc hp.2]

/-- **A registered client is found**, and in one backend only. -/
theorem owner?_eq (hi : Agrees x l) {c : Client Store} (hc : c ∈ x.registry.clients)
    (hreg : c.registered = true) : x.owner? c.id = some c.backend := by
  have hfound : (x.registry.client? c.backend c.id).isSome = true := by
    rw [hi.client?_at hc hreg]
    rfl
  obtain ⟨b, -, hb, hp⟩ := exists_find? (p := fun b => (x.registry.client? b c.id).isSome)
    (Registry.mem_openBackends.mpr (hi.housed c hc hreg)) hfound
  obtain ⟨c', hc'⟩ := Option.isSome_iff_exists.mp hp
  have hp' := List.find?_some hc'
  simp only [Registry.isClient, Registry.isAt, Bool.and_eq_true, beq_iff_eq] at hp'
  obtain rfl := hi.unique (List.mem_of_find?_eq_some hc') hc hp'.2
  rw [Boundary.owner?, hb, hp'.1.2]

theorem client?_eq (hi : Agrees x l) {c : Client Store} (hc : c ∈ x.registry.clients)
    (hreg : c.registered = true) : x.client? c.id = some c := by
  rw [Boundary.client?, hi.owner?_eq hc hreg, Option.bind_some, hi.client?_at hc hreg]

/-- Who is not registered is not found. -/
theorem owner?_eq_none {id : UInt64}
    (hnone : ∀ c ∈ x.registry.clients, c.registered = true → c.id ≠ id) : x.owner? id = none := by
  unfold Boundary.owner?
  rw [List.find?_eq_none]
  intro b _ hsome
  obtain ⟨c, hc⟩ := Option.isSome_iff_exists.mp hsome
  have hp := List.find?_some hc
  simp only [Registry.isClient, Registry.isAt, Bool.and_eq_true, beq_iff_eq] at hp
  exact hnone c (List.mem_of_find?_eq_some hc) hp.1.1 hp.2

theorem client?_eq_none {id : UInt64}
    (hnone : ∀ c ∈ x.registry.clients, c.registered = true → c.id ≠ id) : x.client? id = none := by
  rw [Boundary.client?, owner?_eq_none hnone, Option.bind_none]

/-- What the look-up of `id` gives. -/
theorem client?_cases (hi : Agrees x l) (id : UInt64) :
    (∃ c ∈ x.registry.clients, c.registered = true ∧ c.id = id ∧ x.owner? id = some c.backend ∧
      x.client? id = some c) ∨
    ((∀ c ∈ x.registry.clients, c.registered = true → c.id ≠ id) ∧ x.owner? id = none ∧
      x.client? id = none) := by
  by_cases hex : ∃ c ∈ x.registry.clients, c.registered = true ∧ c.id = id
  · obtain ⟨c, hc, hreg, rfl⟩ := hex
    exact Or.inl ⟨c, hc, hreg, rfl, hi.owner?_eq hc hreg, hi.client?_eq hc hreg⟩
  · have hnone : ∀ c ∈ x.registry.clients, c.registered = true → c.id ≠ id :=
      fun c hc hreg hid => hex ⟨c, hc, hreg, hid⟩
    exact Or.inr ⟨hnone, owner?_eq_none hnone, client?_eq_none hnone⟩

/-! ### Changes of clients -/

/-- Clients change, and their handles with them. -/
theorem modify (hi : Agrees x l) {p : Client Store → Bool} {f : Client Store → Client Store}
    {g : Handle → Handle} (hid : ∀ c, (f c).id = c.id) (hb : ∀ c, (f c).backend = c.backend)
    (hreg : ∀ c, (f c).registered = true → c.registered = true)
    (hq : ∀ c ∈ x.registry.clients, p c = true → (f c).session.Quiet)
    (hg : ∀ c ∈ x.registry.clients,
      g (.ofClient c) = if p c then .ofClient (f c) else .ofClient c) :
    Agrees { x with registry := x.registry.modify p f } { l with handles := l.handles.map g } where
  handles := by
    show l.handles.map g = (x.registry.clients.map fun c => if p c then f c else c).map _
    rw [hi.handles, List.map_map, List.map_map]
    refine List.map_congr_left ?_
    intro c hc
    show g (.ofClient c) = .ofClient (if p c then f c else c)
    rw [hg c hc, apply_ite Handle.ofClient]
  backends := hi.backends
  housed := by
    intro c' hc' hreg'
    obtain ⟨c, hc, rfl⟩ := List.mem_map.mp hc'
    split at hreg'
    · rw [if_pos ‹_›, hb]
      exact hi.housed c hc (hreg c hreg')
    · rw [if_neg ‹_›]
      exact hi.housed c hc hreg'
  quiet := by
    intro c' hc'
    obtain ⟨c, hc, rfl⟩ := List.mem_map.mp hc'
    split
    · exact hq c hc ‹_›
    · exact hi.quiet c hc
  increasing := by
    have hids := congrArg (List.map UInt64.toNat) (x.registry.map_id_modify (p := p) hid)
    rw [List.map_map, List.map_map] at hids
    exact hids ▸ hi.increasing
  below := by
    intro c' hc'
    obtain ⟨c, hc, rfl⟩ := List.mem_map.mp hc'
    split
    · rw [hid]
      exact hi.below c hc
    · exact hi.below c hc
  next_pos := hi.next_pos
  next_le := hi.next_le

/-- Clients change, and their handles do not. -/
theorem modify_same (hi : Agrees x l) {p : Client Store → Bool}
    {f : Client Store → Client Store} (hid : ∀ c, (f c).id = c.id)
    (hb : ∀ c, (f c).backend = c.backend)
    (hreg : ∀ c, (f c).registered = true → c.registered = true)
    (hq : ∀ c ∈ x.registry.clients, p c = true → (f c).session.Quiet)
    (hg : ∀ c ∈ x.registry.clients, p c = true → Handle.ofClient (f c) = .ofClient c) :
    Agrees { x with registry := x.registry.modify p f } l := by
  have hsame := hi.modify (p := p) (g := id) hid hb hreg hq (by
    intro c hc
    split
    · exact (hg c hc ‹_›).symm
    · rfl)
  rwa [List.map_id] at hsame

/-- Clients are removed, and their sessions begin to shut down. -/
theorem detach (hi : Agrees x l) {p : Client Store → Bool} {g : Handle → Handle}
    (hg : ∀ c ∈ x.registry.clients,
      g (.ofClient c) = if p c then .ofClient (Registry.detach c) else .ofClient c) :
    Agrees { x with registry := x.registry.modify p Registry.detach }
      { l with handles := l.handles.map g } :=
  hi.modify (fun _ => rfl) (fun _ => rfl) (fun _ h => absurd h (by simp [Registry.detach]))
    (fun c hc _ => ((hi.quiet c hc).halt true).1) hg

/-- The session of a client goes on, and its stop flag stays as it is. -/
theorem setSession (hi : Agrees x l) {c : Client Store} (hc : c ∈ x.registry.clients)
    {s : Session} (hf : s.flags = c.session.flags) :
    Agrees { x with registry := x.registry.setSession c.id s } l := by
  have hstop : s.stopped = c.session.stopped := congrArg Prod.fst hf
  refine hi.modify_same (fun _ => rfl) (fun _ => rfl) (fun _ h => h) ?_ ?_
  · exact fun _ _ _ => (hi.quiet c hc).congr hf
  · intro c' hc' hp
    obtain rfl := hi.unique hc' hc (by simpa using hp)
    unfold Handle.ofClient
    rw [hstop]

/-! ### One event -/

theorem openBackend (hi : Agrees x l) (hasPlace : Bool) :
    Agrees (x.perform (.openBackend hasPlace)).1
      (l.after (.openBackend hasPlace) (x.perform (.openBackend hasPlace)).2) := by
  cases hasPlace with
  | false => exact hi
  | true =>
    have hopen : ∀ b, Registry.isOpen { x.registry with
        backends := x.registry.backends ++ [true] } b = true ↔
          x.registry.isOpen b = true ∨ b = x.registry.backends.length := by
      intro b
      unfold Registry.isOpen
      rcases Nat.lt_trichotomy b x.registry.backends.length with hb | rfl | hb
      · simp [List.getElem?_append_left hb, Nat.ne_of_lt hb]
      · simp
      · have hlen : (x.registry.backends ++ [true]).length ≤ b := by
          rw [List.length_append]
          exact hb
        rw [List.getElem?_eq_none hlen, List.getElem?_eq_none (Nat.le_of_lt hb)]
        simp [Nat.ne_of_gt hb]
    refine ⟨hi.handles, ?_, ?_, hi.quiet, hi.increasing, hi.below, hi.next_pos, hi.next_le⟩
    · intro b
      refine (List.mem_append.trans ?_).trans (hopen b).symm
      rw [hi.backends b, List.mem_singleton]
    · exact fun c hc hreg => (hopen _).mpr (Or.inl (hi.housed c hc hreg))

theorem closeBackend (hi : Agrees x l) (backend : Option Nat) :
    Agrees (x.perform (.closeBackend backend)).1
      (l.after (.closeBackend backend) (x.perform (.closeBackend backend)).2) := by
  cases backend with
  | none => exact hi
  | some b =>
    have hall := hi.detach (p := Registry.isAt b)
      (g := fun k => if k.backend == b then { k with state := .dead } else k) (by
        intro c _
        by_cases hb : c.backend = b
        · by_cases hreg : c.registered = true
          · simp [Handle.ofClient, Registry.isAt, Registry.detach, hb, hreg]
          · simp [Handle.ofClient, Registry.isAt, hb, hreg]
        · simp [Handle.ofClient, Registry.isAt, hb])
    have hopen : ∀ b', Registry.isOpen { x.registry.removeAll b with
        backends := x.registry.backends.set b false } b' = true ↔
          x.registry.isOpen b' = true ∧ b' ≠ b := by
      intro b'
      unfold Registry.isOpen
      by_cases hb : b' = b
      · subst hb
        simp only [List.getElem?_set_self', ne_eq, not_true_eq_false, and_false, iff_false]
        cases x.registry.backends[b']? <;> simp
      · simp [Ne.symm hb, hb]
    refine ⟨hall.handles, ?_, ?_, hall.quiet, hall.increasing, hall.below, hall.next_pos,
      hall.next_le⟩
    · intro b'
      refine (List.mem_filter.trans ?_).trans (hopen b').symm
      rw [hi.backends b']
      simp
    · intro c hc hreg
      refine (hopen _).mpr ⟨hall.housed c hc hreg, ?_⟩
      obtain ⟨c', -, rfl⟩ := List.mem_map.mp hc
      split at hreg
      · exact absurd hreg (by simp [Registry.detach])
      · rename_i hat
        rw [if_neg hat]
        rintro rfl
        exact hat (by simp [Registry.isAt, hreg])

theorem toNat_nextId (hi : Agrees x l) (hfew : l.creations + 1 < UInt64.size - 1) :
    (x.registry.nextId + 1).toNat = x.registry.nextId.toNat + 1 := by
  have hle := hi.next_le
  rw [UInt64.toNat_add, UInt64.toNat_one]
  unfold UInt64.size at hfew
  exact Nat.mod_eq_of_lt (by omega)

/-- A creation that fails uses up an identifier, or none. -/
theorem createFailed (hi : Agrees x l) (hfew : l.creations + 1 < UInt64.size - 1) {next : UInt64}
    (hnext : next = x.registry.nextId ∨ next = x.registry.nextId + 1) :
    Agrees { x with registry := { x.registry with nextId := next } }
      { l with creations := l.creations + 1 } := by
  have hval : next.toNat = x.registry.nextId.toNat ∨
      next.toNat = x.registry.nextId.toNat + 1 := by
    rcases hnext with rfl | rfl
    · exact Or.inl rfl
    · exact Or.inr (hi.toNat_nextId hfew)
  have hpos := hi.next_pos
  have hle := hi.next_le
  refine ⟨hi.handles, hi.backends, hi.housed, hi.quiet, hi.increasing, ?_, ?_, ?_⟩
  · intro c hc
    have hc := hi.below c hc
    exact ⟨hc.1, by show c.id.toNat < next.toNat; omega⟩
  · show 0 < next.toNat
    omega
  · show next.toNat ≤ l.creations + 1 + 1
    omega

/-- A creation that succeeds gives out the next identifier. -/
theorem createOk (hi : Agrees x l) (hfew : l.creations + 1 < UInt64.size - 1) {b : Nat}
    {config : Config} {store : Store} {session : Session} (hopen : x.registry.isOpen b = true)
    (hs : Session.start config = .ok session) :
    Agrees { x with registry := { x.registry with
        nextId := x.registry.nextId + 1
        clients := x.registry.clients ++
          [{ id := x.registry.nextId, backend := b, session, transfer := store }] } }
      { l with
        creations := l.creations + 1
        handles := l.handles ++ [⟨x.registry.nextId, b, .live⟩] } := by
  have hnext := hi.createFailed hfew (Or.inr rfl)
  obtain rfl := History.start_eq hs
  refine ⟨?_, hnext.backends, ?_, ?_, ?_, ?_, hnext.next_pos, hnext.next_le⟩
  · rw [hi.handles, List.map_append]
    rfl
  · intro c hc hreg
    rcases List.mem_append.mp hc with hc | hc
    · exact hi.housed c hc hreg
    · rw [List.mem_singleton.mp hc]
      exact hopen
  · intro c hc
    rcases List.mem_append.mp hc with hc | hc
    · exact hi.quiet c hc
    · rw [List.mem_singleton.mp hc]
      exact ⟨rfl, fun i c hc => absurd hc (by simp [History.new])⟩
  · rw [List.map_append]
    refine List.pairwise_append.mpr ⟨hi.increasing, List.pairwise_singleton .., ?_⟩
    intro n hn m hm
    obtain ⟨c, hc, rfl⟩ := List.mem_map.mp hn
    rw [List.mem_singleton.mp hm]
    exact (hi.below c hc).2
  · intro c hc
    rcases List.mem_append.mp hc with hc | hc
    · exact hnext.below c hc
    · rw [List.mem_singleton.mp hc]
      refine ⟨hi.next_pos, ?_⟩
      show x.registry.nextId.toNat < (x.registry.nextId + 1).toNat
      rw [hi.toNat_nextId hfew]
      exact Nat.lt_succ_self _

theorem createClient (hi : Agrees x l) {backend : Option Nat} {arg : Option ConfigArg}
    {hasPlace : Bool} {env : Environment}
    (hfew : (l.after (.createClient backend arg hasPlace env)
      (x.perform (.createClient backend arg hasPlace env)).2).creations < UInt64.size - 1) :
    Agrees (x.perform (.createClient backend arg hasPlace env)).1
      (l.after (.createClient backend arg hasPlace env)
        (x.perform (.createClient backend arg hasPlace env)).2) := by
  revert hfew
  simp only [Boundary.perform]
  unfold Boundary.createClient
  split
  · rename_i b arg
    split
    · exact fun _ => hi
    · rename_i config store _
      unfold Registry.create
      by_cases hopen : x.registry.isOpen b = true
      · simp only [hopen, if_true]
        cases hs : Session.start config with
        | error f => exact fun hfew => hi.createFailed hfew (Or.inr rfl)
        | ok session => exact fun hfew => hi.createOk hfew hopen hs
      · simp only [hopen]
        exact fun hfew => hi.createFailed hfew (Or.inl rfl)
  · cases backend <;> exact fun _ => hi

theorem removeClient (hi : Agrees x l) (id : UInt64) :
    Agrees (x.perform (.removeClient id)).1
      (l.after (.removeClient id) (x.perform (.removeClient id)).2) := by
  simp only [Boundary.perform]
  unfold Boundary.removeClient
  obtain ⟨c, hc, hreg, rfl, howner, -⟩ | ⟨hnone, howner, -⟩ := hi.client?_cases id
  · have hsome : (x.registry.client? c.backend c.id).isSome = true := by
      rw [hi.client?_at hc hreg]
      rfl
    simp only [howner, Registry.remove, hsome, if_true]
    refine hi.detach (p := Registry.isClient c.backend c.id) ?_
    intro c' hc'
    by_cases hid : c'.id = c.id
    · obtain rfl := hi.unique hc' hc hid
      simp [Handle.ofClient, Registry.isClient, Registry.isAt, Registry.detach, hreg]
    · simp [Handle.ofClient, Registry.isClient, hid]
  · simp only [howner]
    -- nobody is registered under `id`, so its handle was dead before
    have hsame : l.change (·.id == id) .dead = l := by
      unfold Ledger.change
      congr 1
      rw [hi.handles, List.map_map]
      refine List.map_congr_left ?_
      intro c hc
      by_cases hid : c.id = id
      · have hreg : ¬ c.registered = true := fun h => hnone c hc h hid
        simp [Handle.ofClient, hid, hreg]
      · simp [Handle.ofClient, hid]
    show Agrees x (l.change _ _)
    rw [hsame]
    exact hi

theorem requestRead (hi : Agrees x l) (client : UInt64) (path : Memory) (range : ByteRange)
    (destination : Option Buffer) (id : UInt64) :
    Agrees (x.perform (.requestRead client path range destination id)).1 l := by
  simp only [Boundary.perform]
  unfold Boundary.requestRead
  split
  · rename_i c _ _ hc
    obtain ⟨c', hc', -, rfl, -, hfound⟩ | ⟨-, -, hnone⟩ := hi.client?_cases client
    · obtain rfl := Option.some.inj (hc.symm.trans hfound)
      exact hi.setSession hc' (Session.flags_read ..)
    · exact absurd (hc.symm.trans hnone) (by simp)
  · exact hi

theorem waitForCompletions (hi : Agrees x l) (client : UInt64)
    (memory : Option (List Completion)) (room : Nat) (hasPlace : Bool)
    (mode : Session.WaitMode) :
    Agrees (x.perform (.waitForCompletions client memory room hasPlace mode)).1 l := by
  simp only [Boundary.perform]
  unfold Boundary.waitForCompletions
  cases hasPlace with
  | false => exact hi
  | true =>
    simp only [if_true]
    split
    · rename_i reply y hy
      split at hy
      · obtain ⟨-, rfl⟩ := Prod.mk.inj (Option.some.inj hy)
        exact hi
      · obtain ⟨c, hc, -, rfl, -, hfound⟩ | ⟨-, -, hnone⟩ := hi.client?_cases client
        · rw [hfound] at hy
          obtain ⟨⟨w, s⟩, hw, hpair⟩ := Option.map_eq_some_iff.mp hy
          obtain ⟨-, rfl⟩ := Prod.mk.inj hpair
          exact hi.setSession hc (Session.flags_waitFor hw)
        · rw [hnone] at hy
          obtain ⟨-, rfl⟩ := Prod.mk.inj (Option.some.inj hy)
          exact hi
    · exact hi

/-- The clients of all open backends are the registered ones. -/
theorem foldl_modify (hi : Agrees x l) {f : Client Store → Client Store}
    (hf : ∀ c, (f c).backend = c.backend) :
    x.registry.openBackends.foldl (fun r b => r.modify (Registry.isAt b) f) x.registry =
      x.registry.modify (·.registered) f := by
  rw [Registry.foldl_modify hf Registry.nodup_openBackends]
  unfold Registry.modify
  congr 1
  refine List.map_congr_left ?_
  intro c hc
  by_cases hreg : c.registered = true
  · have hmem := Registry.mem_openBackends.mpr (hi.housed c hc hreg)
    simp [hreg, hmem]
  · simp [hreg]

theorem cancelAllReads (hi : Agrees x l) :
    Agrees (x.perform .cancelAllReads).1
      (l.after .cancelAllReads (x.perform .cancelAllReads).2) := by
  have hall := hi.modify (p := (·.registered))
    (f := fun c => { c with session := c.session.stop })
    (g := fun k => if decide (k.state = .live ∧ k.backend ∈ l.backends) then
      { k with state := .cancelled } else k)
    (fun _ => rfl) (fun _ => rfl) (fun _ h => h) (fun c hc _ => ((hi.quiet c hc).halt false).1) (by
      intro c hc
      by_cases hreg : c.registered = true
      · have hmem := (hi.backends c.backend).mpr (hi.housed c hc hreg)
        have hstop : c.session.stop.stopped = true := ((hi.quiet c hc).halt false).2
        cases hs : c.session.stopped <;> simp [Handle.ofClient, hreg, hs, hstop, hmem]
      · simp [Handle.ofClient, hreg])
  rw [← hi.foldl_modify (f := fun c => { c with session := c.session.stop }) fun _ => rfl] at hall
  exact hall

theorem removeAllClients (hi : Agrees x l) :
    Agrees (x.perform .removeAllClients).1
      (l.after .removeAllClients (x.perform .removeAllClients).2) := by
  have hall := hi.detach (p := (·.registered))
    (g := fun k => if decide (k.backend ∈ l.backends) then { k with state := .dead } else k) (by
      intro c hc
      by_cases hreg : c.registered = true
      · have hmem := (hi.backends c.backend).mpr (hi.housed c hc hreg)
        simp [Handle.ofClient, Registry.detach, hreg, hmem]
      · simp [Handle.ofClient, hreg])
  rw [← hi.foldl_modify (f := Registry.detach) fun _ => rfl] at hall
  exact hall

theorem work (hi : Agrees x l) (client : UInt64) {a : Session.Action} (works : a.Works) :
    Agrees (x.perform (.work client a works)).1 l := by
  refine hi.modify_same (fun _ => rfl) (fun _ => rfl) (fun _ h => h) ?_ ?_
  · exact fun c hc _ => ((hi.quiet c hc).work works).1
  · intro c hc _
    unfold Handle.ofClient
    rw [((hi.quiet c hc).work works).2]

/-- **The ledger and the registry agree after every event**, as long as there are identifiers
left. -/
theorem step (hi : Agrees x l) {e : Boundary.Event}
    (hfew : (l.after e (x.perform e).2).creations < UInt64.size - 1) :
    Agrees (x.perform e).1 (l.after e (x.perform e).2) := by
  cases e with
  | openBackend hasPlace => exact hi.openBackend hasPlace
  | closeBackend backend => exact hi.closeBackend backend
  | createClient => exact hi.createClient hfew
  | removeClient id => exact hi.removeClient id
  | requestRead client path range destination id =>
    exact hi.requestRead client path range destination id
  | waitForCompletions client memory room hasPlace mode =>
    exact hi.waitForCompletions client memory room hasPlace mode
  | cancelAllReads => exact hi.cancelAllReads
  | removeAllClients => exact hi.removeAllClients
  | work client a works => exact hi.work client works

end Agrees

/-! ## What handles answer -/

namespace Ledger

variable {l : Ledger}

theorem creations_le (l : Ledger) (e : Boundary.Event) (a : Boundary.Answer) :
    l.creations ≤ (l.after e a).creations := by
  unfold after
  split
  all_goals first
    | exact Nat.le_refl _
    | exact Nat.le_add_right ..

theorem stateOf_of_mem (hn : (l.handles.map (·.id)).Nodup) {k : Handle} (hk : k ∈ l.handles) :
    l.stateOf k.id = k.state := by
  obtain ⟨k', hk', hfind, hid⟩ := exists_find? (p := (·.id == k.id)) hk (beq_self_eq_true k.id)
  rw [stateOf, hfind, List.inj_on_of_nodup_map hn hk' hk (by simpa using hid)]
  rfl

theorem stateOf_of_notMem {id : UInt64} (hid : id ∉ l.handles.map (·.id)) :
    l.stateOf id = .dead := by
  have hnone : l.handles.find? (·.id == id) = none := by
    rw [List.find?_eq_none]
    intro k hk hkid
    exact hid (List.mem_map.mpr ⟨k, hk, by simpa using hkid⟩)
  rw [stateOf, hnone]
  rfl

/-- What a change of states makes of one handle. -/
theorem stateOf_change (l : Ledger) (p : Handle → Bool) (state : HandleState) (id : UInt64) :
    (l.change p state).stateOf id =
      ((l.handles.find? (·.id == id)).map fun k => if p k then state else k.state).getD .dead := by
  have hid : (fun k : Handle => k.id == id) ∘ (fun k => if p k then { k with state } else k) =
      fun k => k.id == id := by
    funext k
    simp only [Function.comp]
    split <;> rfl
  unfold stateOf change
  rw [List.find?_map, hid, Option.map_map]
  congr 2
  funext k
  simp only [Function.comp]
  split <;> rfl

/-- The ledger has a handle of this name, and it is dead. -/
structure Buried (l : Ledger) (id : UInt64) : Prop where
  mem : id ∈ l.handles.map (·.id)
  dead : l.stateOf id = .dead

theorem Buried.find? {id : UInt64} (hb : l.Buried id) :
    ∃ k, l.handles.find? (·.id == id) = some k ∧ k.state = .dead := by
  obtain ⟨k, hk, hid⟩ := List.mem_map.mp hb.mem
  obtain ⟨k', -, hfind, -⟩ := exists_find? (p := (·.id == id)) hk (by simpa using hid)
  have hd := hb.dead
  rw [stateOf, hfind] at hd
  exact ⟨k', hfind, hd⟩

theorem Buried.change {id : UInt64} (hb : l.Buried id) {p : Handle → Bool} {state : HandleState}
    (hp : state = .dead ∨ ∀ k, p k = true → k.state = .live) : (l.change p state).Buried id := by
  constructor
  · have hids : (l.change p state).handles.map (·.id) = l.handles.map (·.id) := by
      unfold Ledger.change
      rw [List.map_map]
      refine List.map_congr_left ?_
      intro k _
      simp only [Function.comp]
      split <;> rfl
    rw [hids]
    exact hb.mem
  · obtain ⟨k, hk, hd⟩ := hb.find?
    rw [stateOf_change, hk]
    show (if p k then state else k.state) = .dead
    split
    · rename_i hpk
      exact hp.elim (fun h => h) fun hlive => absurd ((hlive k hpk).symm.trans hd) (by simp)
    · exact hd

theorem Buried.append {id : UInt64} (hb : l.Buried id) (k : Handle) {n : Nat} :
    Buried { l with creations := n, handles := l.handles ++ [k] } id := by
  constructor
  · rw [List.map_append]
    exact List.mem_append_left _ hb.mem
  · obtain ⟨k', hk', hd⟩ := hb.find?
    unfold stateOf
    rw [List.find?_append, hk']
    exact hd

/-- **A dead handle stays dead.** -/
theorem Buried.after {id : UInt64} (hb : l.Buried id) (e : Boundary.Event)
    (a : Boundary.Answer) : (l.after e a).Buried id := by
  unfold Ledger.after
  split
  · exact ⟨hb.mem, hb.dead⟩
  · exact ⟨(hb.change (Or.inl rfl)).mem, (hb.change (Or.inl rfl)).dead⟩
  · exact hb.append _
  · exact ⟨hb.mem, hb.dead⟩
  · exact hb.change (Or.inl rfl)
  · exact hb.change (Or.inr fun k hk => (of_decide_eq_true hk).1)
  · exact hb.change (Or.inl rfl)
  · exact hb

end Ledger

/-- The code that reading with a handle is answered with, when nothing else is wrong. -/
def HandleState.code : HandleState → Code
  | .live => .success
  | .cancelled => .finished
  | .dead => .invalidParameter

namespace Boundary

/-- The handle `id` answers as one in state `state`. -/
structure Answers (x : Boundary) (id : UInt64) (state : HandleState) : Prop where
  /-- A request with valid arguments. -/
  read : ∀ (bytes : List UInt8) (path : String) (location : Location) (range : ByteRange)
    (destination : Option Buffer) (buffer : Buffer) (request : UInt64),
    readText bytes = .ok path → Location.ofUri path = .ok location →
    Buffer.ofParts? destination range.length = some buffer →
    buffer.size = range.length.toNat → range.Fits →
      (x.requestRead id (some bytes) range destination request).2 = state.code
  /-- A wait with room for completions. -/
  wait : state ≠ .live → ∀ (slots : List Completion) (room : Nat) (mode : Session.WaitMode),
    0 < room → room ≤ slots.length →
      ∃ reply y, x.waitForCompletions id (some slots) room true mode = some (reply, y) ∧
        reply.code = state.code ∧ reply.count = some 0
  remove : (x.removeClient id).2 = if state = .dead then .invalidParameter else .success

end Boundary

namespace Agrees

variable {x : Boundary} {l : Ledger}

theorem nodup_handles (hi : Agrees x l) : (l.handles.map (·.id)).Nodup := by
  have hnodup : (x.registry.clients.map (·.id.toNat)).Nodup := hi.increasing.imp Nat.ne_of_lt
  rw [hi.handles, List.map_map]
  refine List.Nodup.of_map UInt64.toNat ?_
  rw [List.map_map]
  exact hnodup

theorem stateOf_registered (hi : Agrees x l) {c : Client Store} (hc : c ∈ x.registry.clients)
    (hreg : c.registered = true) :
    l.stateOf c.id = if c.session.stopped then .cancelled else .live := by
  have hmem : Handle.ofClient c ∈ l.handles := hi.handles ▸ List.mem_map_of_mem hc
  have hstate := Ledger.stateOf_of_mem hi.nodup_handles hmem
  simpa [Handle.ofClient, hreg] using hstate

theorem stateOf_unregistered (hi : Agrees x l) {id : UInt64}
    (hnone : ∀ c ∈ x.registry.clients, c.registered = true → c.id ≠ id) :
    l.stateOf id = .dead := by
  by_cases hid : id ∈ l.handles.map (·.id)
  · obtain ⟨k, hk, rfl⟩ := List.mem_map.mp hid
    rw [Ledger.stateOf_of_mem hi.nodup_handles hk]
    rw [hi.handles] at hk
    obtain ⟨c, hc, rfl⟩ := List.mem_map.mp hk
    have hreg : ¬ c.registered = true := fun h => hnone c hc h rfl
    exact if_neg hreg
  · exact Ledger.stateOf_of_notMem hid

/-- **A handle answers as the ledger says.** -/
theorem answers (hi : Agrees x l) (id : UInt64) : x.Answers id (l.stateOf id) := by
  obtain ⟨c, hc, hreg, rfl, howner, hfound⟩ | ⟨hnone, howner, hmiss⟩ := hi.client?_cases id
  · rw [hi.stateOf_registered hc hreg]
    refine ⟨?_, ?_, ?_⟩
    · intro bytes path location range destination buffer request htext huri hparts hsize hfits
      unfold Boundary.requestRead
      simp only [Option.map_some, htext, hparts, hfound]
      cases hs : c.session.stopped with
      | true =>
        rw [Session.read, Session.submitBetween_of_stopped hs]
        rfl
      | false =>
        have ha : c.session.accept { id := request, path, range, buffer } = .ok location := by
          simp [Session.accept, hs, huri, hsize, hfits]
        rw [Session.read_of_accept ha]
        rfl
    · intro hlive slots room mode hpos hroom
      have hs : c.session.stopped = true := by
        by_contra hs
        exact hlive (if_neg hs)
      have hslots : slots.take room ≠ [] := by
        refine List.ne_nil_of_length_pos ?_
        rw [List.length_take]
        omega
      unfold Boundary.waitForCompletions
      simp only [if_true, Option.isNone_some, Bool.false_eq_true, and_false, if_false, hfound,
        Option.getD_some]
      rw [Session.waitFor_of_stopped ((hi.quiet c hc).agree.trans hs) mode hslots, hs]
      exact ⟨_, _, rfl, rfl, rfl⟩
    · have hsome : (x.registry.client? c.backend c.id).isSome = true := by
        rw [hi.client?_at hc hreg]
        rfl
      have hdead : (if c.session.stopped then HandleState.cancelled else .live) ≠ .dead := by
        split <;> simp
      rw [if_neg hdead]
      simp only [Boundary.removeClient, howner, Registry.remove, hsome, if_true]
  · rw [hi.stateOf_unregistered hnone]
    refine ⟨?_, ?_, ?_⟩
    · intro bytes path location range destination buffer request htext huri hparts hsize hfits
      unfold Boundary.requestRead
      simp only [Option.map_some, htext, hparts, hmiss]
      rfl
    · intro _ slots room mode hpos hroom
      unfold Boundary.waitForCompletions
      simp only [if_true, Option.isNone_some, Bool.false_eq_true, and_false, if_false, hmiss]
      exact ⟨_, _, rfl, rfl, rfl⟩
    · simp only [Boundary.removeClient, howner]
      rfl

end Agrees

namespace Boundary

variable {tree : FileTree} {events : List Event}

theorem observed_append (tree : FileTree) (events more : List Event) :
    observed tree (events ++ more) = more.foldl observe (observed tree events) :=
  List.foldl_append

/-- The ledger and the registry agree after all events. -/
theorem agrees_observed (hfew : (observed tree events).2.creations < UInt64.size - 1) :
    Agrees (observed tree events).1 (observed tree events).2 := by
  induction events using List.reverseRecOn with
  | nil =>
    refine ⟨rfl, fun b => ?_, ?_, ?_, .nil, ?_, Nat.one_pos, Nat.le_refl _⟩
    · simp [observed, Registry.isOpen]
    all_goals exact fun c hc => absurd hc (by simp [observed])
  | append_singleton events e ih =>
    rw [observed_append] at hfew ⊢
    exact (ih (Nat.lt_of_le_of_lt (Ledger.creations_le ..) hfew)).step hfew

/-- What holds of the handles after some events. -/
structure HandlesSafe (tree : FileTree) (events : List Event) : Prop where
  /-- The handles that were given out are pairwise different. -/
  distinct : ((observed tree events).2.handles.map (·.id)).Nodup
  /-- None is null. -/
  not_null : 0 ∉ (observed tree events).2.handles.map (·.id)
  /-- Each handle, and each number that is none, answers by its state. -/
  answers : ∀ id, (observed tree events).1.Answers id ((observed tree events).2.stateOf id)
  /-- A handle has one state. -/
  state : ∀ k ∈ (observed tree events).2.handles, (observed tree events).2.stateOf k.id = k.state
  /-- A dead handle stays dead, whatever is called later. -/
  forever : ∀ (more : List Event) (k : Handle), k ∈ (observed tree events).2.handles →
    k.state = .dead → (observed tree (events ++ more)).2.stateOf k.id = .dead

/-- **Handles are a safe state machine.** -/
theorem handles_safe (hfew : (observed tree events).2.creations < UInt64.size - 1) :
    HandlesSafe tree events := by
  have hi := agrees_observed hfew
  have hstate : ∀ k ∈ (observed tree events).2.handles,
      (observed tree events).2.stateOf k.id = k.state :=
    fun k hk => Ledger.stateOf_of_mem hi.nodup_handles hk
  refine ⟨hi.nodup_handles, ?_, hi.answers, hstate, ?_⟩
  · intro hzero
    rw [hi.handles, List.map_map] at hzero
    obtain ⟨c, hc, h0⟩ := List.mem_map.mp hzero
    have hpos := (hi.below c hc).1
    rw [show c.id = 0 from h0] at hpos
    exact absurd hpos (by decide)
  · intro more k hk hd
    have hburied : (observed tree events).2.Buried k.id :=
      ⟨List.mem_map_of_mem hk, (hstate k hk).trans hd⟩
    rw [observed_append]
    generalize observed tree events = p at hburied
    induction more generalizing p with
    | nil => exact hburied.dead
    | cons e more ih => exact ih (observe p e) (hburied.after e _)

/-- Three clients of two backends: the first is removed, the second is cancelled, and the backend of
the third is closed. -/
theorem handles_safe_of_three :
    ∃ events, (observed {} events).2.creations < UInt64.size - 1 ∧
      (observed {} events).2.handles = [⟨1, 0, .dead⟩, ⟨2, 0, .cancelled⟩, ⟨3, 1, .dead⟩] ∧
      HandlesSafe {} events := by
  let env : Environment := fun _ => some "/srv"
  let arg : ConfigArg := { parameters := .null 0, chunkSize := 4 }
  let create (b : Nat) : Event := .createClient (some b) (some arg) true env
  let events : List Event := [.openBackend true, .openBackend true, create 0, create 0, create 1,
    .removeClient 1, .closeBackend (some 1), .cancelAllReads]
  have hfew : (observed {} events).2.creations < UInt64.size - 1 := by decide +kernel
  exact ⟨events, hfew, by decide +kernel, handles_safe hfew⟩

end Boundary

end RangeFetch
