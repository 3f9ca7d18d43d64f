import RangeFetch.Proofs.Arguments
import RangeFetch.Proofs.Handles

/-!
# Creations of clients

A creation looks at its arguments, then at the backend, and at last starts a session, which may not
be possible. By then the identifier of the client is used up, and that is all that a creation which
fails can leave behind. Nobody who has a handle can tell: two boundaries are `Level` over some
handles if they have the same backends and the same clients with these handles, and a call on one of
the handles is answered alike by both and leaves them level.

Headlines:
* **`Boundary.createClient_of_asks`** and **`createClient_of_refused`**: what a creation does, by
  its arguments.
* **`Level.step`**: boundaries stay level, whatever is called.
* **`Boundary.observed_alike`**: a run with a failed creation and one without it, side by side.
* **`Boundary.creation_safe`**: which creations are refused, that a failure leaves no trace, and
  what a success gives.
-/

namespace RangeFetch

/-! ## One creation -/

/-- A session is started if a limiter can count its permits. -/
theorem History.start_eq_ite (config : Config) : Session.start config =
    if config.maxConcurrency.toNat ≤ maxPermits then .ok (new config).session
    else .error .tooManyPermits := by
  rw [Session.start, Permits.ofCount]
  split <;> rfl

namespace Boundary

/-- Something is wrong with the arguments of a creation. -/
inductive Refused (backend : Option Nat) (arg : Option ConfigArg) (hasPlace : Bool)
    (env : Environment) : Prop where
  | noBackend (h : backend = none)
  | noArg (h : arg = none)
  | noPlace (h : hasPlace = false)
  | badArg (a : ConfigArg) (h : arg = some a) (hbad : a.Invalid env)

/-- The arguments of a creation ask backend `b` for a client with this configuration and store. -/
structure Asks (backend : Option Nat) (arg : Option ConfigArg) (hasPlace : Bool)
    (env : Environment) (b : Nat) (config : Config) (store : Store) : Prop where
  backend : backend = some b
  place : hasPlace = true
  resolved : ∃ a ps url, arg = some a ∧ a.Says ps url ∧
    Config.resolve ps url a.chunkSize env = .ok config
  located : Locates config.credentials.endpoint (String.ofList store.root)

variable {backend : Option Nat} {arg : Option ConfigArg} {hasPlace : Bool} {env : Environment}
  {b : Nat} {config : Config} {store : Store}

theorem asks_or_refused (backend : Option Nat) (arg : Option ConfigArg) (hasPlace : Bool)
    (env : Environment) :
    (∃ b config store, Asks backend arg hasPlace env b config store) ∨
      Refused backend arg hasPlace env := by
  cases backend with
  | none => exact .inr (.noBackend rfl)
  | some b =>
    cases arg with
    | none => exact .inr (.noArg rfl)
    | some a =>
      cases hasPlace with
      | false => exact .inr (.noPlace rfl)
      | true =>
        cases hr : a.resolve env with
        | error e => exact .inr (.badArg a rfl (ConfigArg.exists_error_iff.mp ⟨e, hr⟩))
        | ok resolved =>
          obtain ⟨config, store⟩ := resolved
          obtain ⟨ps, url, hsays, hconfig, hpath⟩ := ConfigArg.resolve_eq_ok_iff.mp hr
          exact .inl ⟨b, config, store, rfl, rfl, ⟨a, ps, url, rfl, hsays, hconfig⟩, hpath⟩

/-- **A creation with wrong arguments** does nothing. -/
theorem createClient_of_refused (x : Boundary) (h : Refused backend arg hasPlace env) :
    x.createClient backend arg hasPlace env = (x, .invalidParameter, none) := by
  cases h with
  | noBackend h =>
    rw [h]
    rfl
  | noArg h =>
    rw [h]
    cases backend <;> rfl
  | noPlace h =>
    rw [h]
    cases backend <;> cases arg <;> rfl
  | badArg a h hbad =>
    rw [h]
    obtain ⟨e, he⟩ := ConfigArg.exists_error_iff.mpr hbad
    cases backend with
    | none => rfl
    | some b => cases hasPlace <;> simp [createClient, he]

/-- An identifier is used up. -/
def skip (x : Boundary) : Boundary :=
  { x with registry := { x.registry with nextId := x.registry.nextId + 1 } }

/-- The client that backend `b` makes next. -/
def nextClient (x : Boundary) (b : Nat) (config : Config) (store : Store) : Client Store where
  id := x.registry.nextId
  backend := b
  session := (History.new config).session
  transfer := store

/-- An identifier is used up by a client. -/
def enter (x : Boundary) (c : Client Store) : Boundary :=
  { x with registry := { x.registry with
      nextId := x.registry.nextId + 1
      clients := x.registry.clients ++ [c] } }

/-- **A creation with right arguments** fails if the backend is closed, or if a limiter cannot count
the permits; then the identifier is gone. -/
theorem createClient_of_asks (x : Boundary) (h : Asks backend arg hasPlace env b config store) :
    x.createClient backend arg hasPlace env =
      if x.registry.isOpen b = true then
        if config.maxConcurrency.toNat ≤ maxPermits then
          (x.enter (x.nextClient b config store), .success, some x.registry.nextId)
        else (x.skip, .unknown, none)
      else (x, .unknown, none) := by
  obtain ⟨rfl, rfl, ⟨a, ps, url, rfl, hsays, hconfig⟩, hpath⟩ := h
  have hr := ConfigArg.resolve_eq_ok_iff.mpr ⟨ps, url, hsays, hconfig, hpath⟩
  simp only [createClient, hr, Registry.create, History.start_eq_ite]
  by_cases hopen : x.registry.isOpen b = true
  · by_cases hmax : config.maxConcurrency.toNat ≤ maxPermits
    · simp only [if_pos hopen, if_pos hmax]
      rfl
    · simp only [if_pos hopen, if_neg hmax]
      rfl
  · simp only [if_neg hopen]

/-- **The creations that are refused for their arguments.** -/
theorem createClient_code_iff (x : Boundary) :
    (x.createClient backend arg hasPlace env).2.1 = .invalidParameter ↔
      Refused backend arg hasPlace env := by
  constructor
  · intro hcode
    refine (asks_or_refused backend arg hasPlace env).resolve_left ?_
    rintro ⟨b, config, store, hasks⟩
    rw [createClient_of_asks x hasks] at hcode
    split at hcode
    · split at hcode <;> exact absurd hcode (by simp)
    · exact absurd hcode (by simp)
  · intro hrefused
    rw [createClient_of_refused x hrefused]

/-- What a creation that fails leaves as it was. Only the next identifier may be another. -/
structure Untouched (x y : Boundary) : Prop where
  tree : y.tree = x.tree
  backends : y.registry.backends = x.registry.backends
  clients : y.registry.clients = x.registry.clients

/-- **A creation that fails changes nothing**, and the caller has no identifier. -/
theorem untouched_of_failed (x : Boundary)
    (hcode : (x.createClient backend arg hasPlace env).2.1 ≠ .success) :
    Untouched x (x.createClient backend arg hasPlace env).1 ∧
      (x.createClient backend arg hasPlace env).2.2 = none := by
  obtain ⟨b, config, store, hasks⟩ | hrefused := asks_or_refused backend arg hasPlace env
  · rw [createClient_of_asks x hasks] at hcode ⊢
    split at hcode
    · rename_i hopen
      rw [if_pos hopen]
      split at hcode
      · exact absurd rfl hcode
      · rename_i hmax
        rw [if_neg hmax]
        exact ⟨⟨rfl, rfl, rfl⟩, rfl⟩
    · rename_i hopen
      rw [if_neg hopen]
      exact ⟨⟨rfl, rfl, rfl⟩, rfl⟩
  · rw [createClient_of_refused x hrefused]
    exact ⟨⟨rfl, rfl, rfl⟩, rfl⟩

end Boundary

/-! ## Clients with known handles -/

namespace Registry

variable {τ : Type} {r : Registry τ} {S : List UInt64}

/-- The clients whose handles are in `S`. -/
def seen (S : List UInt64) (r : Registry τ) : List (Client τ) :=
  r.clients.filter (S.contains ·.id)

theorem client?_eq_seen {id : UInt64} (hid : id ∈ S) (b : Nat) :
    r.client? b id = (r.seen S).find? (isClient b id) := by
  unfold client? seen
  rw [List.find?_filter]
  congr 1
  funext c
  by_cases hc : c.id = id
  · simp [hc, hid]
  · simp [isClient, hc]

theorem seen_modify {p : Client τ → Bool} {f : Client τ → Client τ} (hf : ∀ c, (f c).id = c.id) :
    (r.modify p f).seen S = (r.seen S).map fun c => if p c then f c else c := by
  unfold seen modify
  rw [List.filter_map]
  congr 2
  funext c
  simp only [Function.comp]
  split
  · rw [hf]
  · rfl

/-- A change of other clients is not seen. -/
theorem seen_modify_of_notMem {p : Client τ → Bool} {f : Client τ → Client τ}
    (hf : ∀ c, (f c).id = c.id) (hp : ∀ c, p c = true → c.id ∉ S) :
    (r.modify p f).seen S = r.seen S := by
  rw [seen_modify hf]
  refine (List.map_congr_left ?_).trans (List.map_id _)
  intro c hc
  have hmem : c.id ∈ S := by simpa using (List.mem_filter.mp hc).2
  exact if_neg fun hpc => hp c hpc hmem

end Registry

/-! ## Calls on a handle -/

namespace Boundary

/-- The handle that an event names. -/
def Event.handle? : Event → Option UInt64
  | .removeClient client | .requestRead client .. | .waitForCompletions client ..
  | .work client .. => some client
  | .openBackend _ | .closeBackend _ | .createClient .. | .cancelAllReads | .removeAllClients =>
    none

theorem isSome_of_owner? {x : Boundary} {id : UInt64} {b : Nat} (h : x.owner? id = some b) :
    (x.registry.client? b id).isSome = true :=
  List.find?_some (p := fun b => (x.registry.client? b id).isSome) h

/-- Two boundaries do the same: they change clients with the handle `id`, or nothing, and they give
one answer. -/
inductive SameChange (id : UInt64) (x y : Boundary) :
    Boundary × Answer → Boundary × Answer → Prop where
  | still (a : Answer) : SameChange id x y (x, a) (y, a)
  | clients (p : Client Store → Bool) (f : Client Store → Client Store) (a : Answer)
    (hp : ∀ c, p c = true → c.id = id) (hf : ∀ c, (f c).id = c.id) :
    SameChange id x y ({ x with registry := x.registry.modify p f }, a)
      ({ y with registry := y.registry.modify p f }, a)

theorem SameChange.answer {id : UInt64} {x y : Boundary} {r r' : Boundary × Answer}
    (h : SameChange id x y r r') : r'.2 = r.2 := by
  cases h <;> rfl

section SameChange

variable {x y : Boundary} {client : UInt64}

/-- The session of a client goes on. -/
theorem SameChange.setSession (s : Session) (a : Answer) :
    SameChange client x y ({ x with registry := x.registry.setSession client s }, a)
      ({ y with registry := y.registry.setSession client s }, a) :=
  .clients (·.id == client) (fun c => { c with session := s }) a (fun _ hc => beq_iff_eq.mp hc)
    fun _ => rfl

theorem sameChange_removeClient (howner : y.owner? client = x.owner? client) :
    SameChange client x y (x.perform (.removeClient client)) (y.perform (.removeClient client)) := by
  simp only [perform]
  cases hx : x.owner? client with
  | none =>
    rw [hx] at howner
    simp only [removeClient, hx, howner]
    exact .still _
  | some b =>
    rw [hx] at howner
    simp only [removeClient, hx, howner, Registry.remove, isSome_of_owner? hx,
      isSome_of_owner? howner, if_true]
    refine .clients (Registry.isClient b client) Registry.detach _ ?_ fun _ => rfl
    intro c hc
    simp only [Registry.isClient, Bool.and_eq_true, beq_iff_eq] at hc
    exact hc.2

theorem sameChange_requestRead (hclient : y.client? client = x.client? client) (path : Memory)
    (range : ByteRange) (destination : Option Buffer) (id : UInt64) :
    SameChange client x y (x.perform (.requestRead client path range destination id))
      (y.perform (.requestRead client path range destination id)) := by
  simp only [perform, requestRead, hclient]
  split
  · exact .setSession _ _
  · exact .still _

theorem sameChange_waitForCompletions (hclient : y.client? client = x.client? client)
    (memory : Option (List Completion)) (room : Nat) (hasPlace : Bool)
    (mode : Session.WaitMode) :
    SameChange client x y (x.perform (.waitForCompletions client memory room hasPlace mode))
      (y.perform (.waitForCompletions client memory room hasPlace mode)) := by
  simp only [perform, waitForCompletions, hclient]
  cases hasPlace with
  | false => exact .still _
  | true =>
    simp only [if_true]
    by_cases hnull : room ≠ 0 ∧ memory.isNone = true
    · simp only [if_pos hnull]
      exact .still _
    · simp only [if_neg hnull]
      cases x.client? client with
      | none => exact .still _
      | some c =>
        cases hw : c.session.waitFor mode ((memory.getD []).take room) with
        | none =>
          simp only [hw]
          exact .still _
        | some r =>
          simp only [hw]
          exact .setSession _ _

end SameChange

/-- **What a call on a handle does** is the same wherever the handle stands for the same client, and
it concerns clients with this handle only. -/
theorem sameChange {x y : Boundary} {e : Event} {id : UInt64} (he : e.handle? = some id)
    (howner : y.owner? id = x.owner? id) (hclient : y.client? id = x.client? id) :
    SameChange id x y (x.perform e) (y.perform e) := by
  cases e with
  | openBackend | closeBackend | createClient | cancelAllReads | removeAllClients =>
    exact absurd he (by simp [Event.handle?])
  | removeClient client =>
    obtain rfl := Option.some.inj he
    exact sameChange_removeClient howner
  | requestRead client path range destination request =>
    obtain rfl := Option.some.inj he
    exact sameChange_requestRead hclient ..
  | waitForCompletions client memory room hasPlace mode =>
    obtain rfl := Option.some.inj he
    exact sameChange_waitForCompletions hclient ..
  | work client a works =>
    obtain rfl := Option.some.inj he
    exact .clients (·.id == client) (fun c => { c with session := c.session.act a }) .nothing
      (fun _ hc => beq_iff_eq.mp hc) fun _ => rfl

end Boundary

/-! ## Boundaries that are level -/

/-- The boundaries have the same backends, and the same clients with handles in `S`. -/
structure Level (S : List UInt64) (x y : Boundary) : Prop where
  backends : y.registry.backends = x.registry.backends
  seen : y.registry.seen S = x.registry.seen S

namespace Level

open Boundary (Event Answer)

variable {S : List UInt64} {x y z : Boundary}

theorem symm (h : Level S x y) : Level S y x :=
  ⟨h.backends.symm, h.seen.symm⟩

theorem trans (h : Level S x y) (h' : Level S y z) : Level S x z :=
  ⟨h'.backends.trans h.backends, h'.seen.trans h.seen⟩

theorem of_untouched (h : Boundary.Untouched x y) : Level S x y :=
  ⟨h.backends, by rw [Registry.seen, Registry.seen, h.clients]⟩

/-! ### Looking up -/

theorem isOpen_eq (h : Level S x y) (b : Nat) : y.registry.isOpen b = x.registry.isOpen b := by
  rw [Registry.isOpen, Registry.isOpen, h.backends]

theorem openBackends_eq (h : Level S x y) :
    y.registry.openBackends = x.registry.openBackends := by
  unfold Registry.openBackends
  rw [h.backends]
  exact List.filter_congr fun b _ => h.isOpen_eq b

theorem client?_at (h : Level S x y) {id : UInt64} (hid : id ∈ S) (b : Nat) :
    y.registry.client? b id = x.registry.client? b id := by
  rw [Registry.client?_eq_seen hid, Registry.client?_eq_seen hid, h.seen]

theorem owner?_eq (h : Level S x y) {id : UInt64} (hid : id ∈ S) : y.owner? id = x.owner? id := by
  unfold Boundary.owner?
  simp only [h.openBackends_eq, h.client?_at hid]

theorem client?_eq (h : Level S x y) {id : UInt64} (hid : id ∈ S) :
    y.client? id = x.client? id := by
  unfold Boundary.client?
  simp only [h.owner?_eq hid, h.client?_at hid]

/-! ### Changes -/

/-- The same clients change in both. -/
theorem modify (h : Level S x y) {p : Client Store → Bool} {f : Client Store → Client Store}
    (hf : ∀ c, (f c).id = c.id) :
    Level S { x with registry := x.registry.modify p f }
      { y with registry := y.registry.modify p f } :=
  ⟨h.backends, by rw [Registry.seen_modify hf, Registry.seen_modify hf, h.seen]⟩

/-- Other clients change. -/
theorem modify_of_notMem {p : Client Store → Bool} {f : Client Store → Client Store}
    (hf : ∀ c, (f c).id = c.id) (hp : ∀ c, p c = true → c.id ∉ S) :
    Level S x { x with registry := x.registry.modify p f } :=
  ⟨rfl, Registry.seen_modify_of_notMem hf hp⟩

/-- A client with another handle is made. -/
theorem enter {c : Client Store} (hc : c.id ∉ S) : Level S x (x.enter c) := by
  have hnone : [c].filter (S.contains ·.id) = [] := by simp [hc]
  refine ⟨rfl, ?_⟩
  unfold Registry.seen Boundary.enter
  rw [List.filter_append, hnone, List.append_nil]

/-- The clients of all open backends change. -/
theorem foldl_modify (h : Level S x y) {f : Client Store → Client Store}
    (hid : ∀ c, (f c).id = c.id) (hb : ∀ c, (f c).backend = c.backend) :
    Level S
      { x with
        registry := x.registry.openBackends.foldl
          (fun r b => r.modify (Registry.isAt b) f) x.registry }
      { y with
        registry := y.registry.openBackends.foldl
          (fun r b => r.modify (Registry.isAt b) f) y.registry } := by
  rw [Registry.foldl_modify hb Registry.nodup_openBackends,
    Registry.foldl_modify hb Registry.nodup_openBackends, h.openBackends_eq]
  exact h.modify hid

/-! ### One event -/

/-- **A call on a handle in `S`** is answered alike by both. -/
theorem answer_eq (h : Level S x y) {e : Event} {id : UInt64} (he : e.handle? = some id)
    (hid : id ∈ S) : (y.perform e).2 = (x.perform e).2 :=
  (Boundary.sameChange he (h.owner?_eq hid) (h.client?_eq hid)).answer

theorem of_sameChange (h : Level S x y) {id : UInt64} {r r' : Boundary × Answer}
    (hr : Boundary.SameChange id x y r r') : Level S r.1 r'.1 := by
  cases hr with
  | still => exact h
  | clients p f a hp hf => exact h.modify hf

/-- A call on another handle is not seen. -/
theorem of_stranger {id : UInt64} (hid : id ∉ S) {r r' : Boundary × Answer}
    (hr : Boundary.SameChange id x y r r') : Level S x r.1 := by
  cases hr with
  | still => exact ⟨rfl, rfl⟩
  | clients p f a hp hf => exact modify_of_notMem hf fun c hc => hp c hc ▸ hid

/-- A call on a handle leaves the boundaries level. -/
theorem named (h : Level S x y) {e : Event} {id : UInt64} (he : e.handle? = some id) :
    Level S (x.perform e).1 (y.perform e).1 := by
  by_cases hid : id ∈ S
  · exact h.of_sameChange (Boundary.sameChange he (h.owner?_eq hid) (h.client?_eq hid))
  · have hx := of_stranger hid (Boundary.sameChange (x := x) (y := x) he rfl rfl)
    have hy := of_stranger hid (Boundary.sameChange (x := y) (y := y) he rfl rfl)
    exact hx.symm.trans (h.trans hy)

/-- A creation, after which no handle in `S` was given out again. -/
theorem createClient (h : Level S x y) (hx : x.registry.nextId ∉ S) (hy : y.registry.nextId ∉ S)
    (backend : Option Nat) (arg : Option ConfigArg) (hasPlace : Bool) (env : Environment) :
    Level S (x.createClient backend arg hasPlace env).1
        (y.createClient backend arg hasPlace env).1 ∧
      (y.createClient backend arg hasPlace env).2.1 =
        (x.createClient backend arg hasPlace env).2.1 := by
  obtain ⟨b, config, store, hasks⟩ | hrefused :=
    Boundary.asks_or_refused backend arg hasPlace env
  · rw [Boundary.createClient_of_asks x hasks, Boundary.createClient_of_asks y hasks,
      h.isOpen_eq b]
    by_cases hopen : x.registry.isOpen b = true
    · by_cases hmax : config.maxConcurrency.toNat ≤ maxPermits
      · simp only [if_pos hopen, if_pos hmax]
        exact ⟨(enter hx).symm.trans (h.trans (enter hy)), trivial⟩
      · simp only [if_pos hopen, if_neg hmax]
        exact ⟨⟨h.backends, h.seen⟩, trivial⟩
    · simp only [if_neg hopen]
      exact ⟨h, trivial⟩
  · rw [Boundary.createClient_of_refused x hrefused, Boundary.createClient_of_refused y hrefused]
    exact ⟨h, rfl⟩

/-- **Boundaries stay level**, whatever is called. -/
theorem step (h : Level S x y) (hx : x.registry.nextId ∉ S) (hy : y.registry.nextId ∉ S)
    (e : Event) : Level S (x.perform e).1 (y.perform e).1 := by
  cases e with
  | openBackend hasPlace =>
    cases hasPlace with
    | false => exact h
    | true => exact ⟨congrArg (· ++ [true]) h.backends, h.seen⟩
  | closeBackend backend =>
    cases backend with
    | none => exact h
    | some b =>
      have hall := h.modify (p := Registry.isAt b) (f := Registry.detach) fun _ => rfl
      exact ⟨congrArg (·.set b false) h.backends, hall.seen⟩
  | createClient backend arg hasPlace env => exact (h.createClient hx hy ..).1
  | cancelAllReads => exact h.foldl_modify (fun _ => rfl) fun _ => rfl
  | removeAllClients => exact h.foldl_modify (fun _ => rfl) fun _ => rfl
  | removeClient | requestRead | waitForCompletions | work => exact h.named rfl

end Level

/-! ## Two runs side by side -/

namespace Ledger

open Boundary (Event Answer)

variable {l : Ledger}

/-- What an event adds to the creations. -/
def cost : Event → Answer → Nat
  | .createClient .., .created code _ => if code = .invalidParameter then 0 else 1
  | _, _ => 0

theorem creations_after (l : Ledger) (e : Event) (a : Answer) :
    (l.after e a).creations = l.creations + cost e a := by
  cases e with
  | createClient backend =>
    cases a with
    | created code id => cases backend <;> cases id <;> rfl
    | nothing | code | opened | waited => cases backend <;> rfl
  | openBackend =>
    cases a with
    | opened c b => cases b <;> rfl
    | nothing | code | created | waited => rfl
  | closeBackend backend => cases backend <;> rfl
  | removeClient | requestRead | waitForCompletions | cancelAllReads | removeAllClients | work =>
    rfl

theorem ids_change (l : Ledger) (p : Handle → Bool) (state : HandleState) :
    (l.change p state).handles.map (·.id) = l.handles.map (·.id) := by
  unfold change
  rw [List.map_map]
  refine List.map_congr_left ?_
  intro k _
  simp only [Function.comp]
  split <;> rfl

/-- A handle that was given out stays in the ledger. -/
theorem mem_after {id : UInt64} (hid : id ∈ l.handles.map (·.id)) (e : Event) (a : Answer) :
    id ∈ (l.after e a).handles.map (·.id) := by
  unfold after
  split
  · exact hid
  · exact (ids_change ..).symm ▸ hid
  · rw [List.map_append]
    exact List.mem_append_left _ hid
  · exact hid
  · exact (ids_change ..).symm ▸ hid
  · exact (ids_change ..).symm ▸ hid
  · exact (ids_change ..).symm ▸ hid
  · exact hid

end Ledger

/-- The next handle was never given out. -/
theorem Agrees.next_notMem {x : Boundary} {l : Ledger} (hi : Agrees x l) :
    x.registry.nextId ∉ l.handles.map (·.id) := by
  rw [hi.handles, List.map_map]
  intro hmem
  obtain ⟨c, hc, hid⟩ := List.mem_map.mp hmem
  exact Nat.ne_of_lt (hi.below c hc).2 (congrArg UInt64.toNat hid)

namespace Boundary

/-- Two runs that are level over handles which both gave out. The second may have made more
creations. -/
structure Companions (S : List UInt64) (p q : Boundary × Ledger) : Prop where
  first : Agrees p.1 p.2
  second : Agrees q.1 q.2
  given : ∀ id ∈ S, id ∈ p.2.handles.map (·.id) ∧ id ∈ q.2.handles.map (·.id)
  level : Level S p.1 q.1
  creations : p.2.creations ≤ q.2.creations

namespace Companions

variable {S : List UInt64} {p q : Boundary × Ledger}

theorem cost_eq (h : Companions S p q) (e : Event) :
    Ledger.cost e (q.1.perform e).2 = Ledger.cost e (p.1.perform e).2 := by
  cases e with
  | createClient backend arg hasPlace env =>
    have hcode := (h.level.createClient (fun hid => h.first.next_notMem (h.given _ hid).1)
      (fun hid => h.second.next_notMem (h.given _ hid).2) backend arg hasPlace env).2
    exact congrArg (fun code => if code = Code.invalidParameter then 0 else 1) hcode
  | openBackend | closeBackend | removeClient | requestRead | waitForCompletions | cancelAllReads
  | removeAllClients | work => rfl

/-- The runs go on with the same event. -/
theorem step (h : Companions S p q) {e : Event}
    (hfew : (observe q e).2.creations < UInt64.size - 1) :
    Companions S (observe p e) (observe q e) := by
  have hcreations : (observe p e).2.creations ≤ (observe q e).2.creations := by
    unfold observe
    rw [Ledger.creations_after, Ledger.creations_after, h.cost_eq]
    exact Nat.add_le_add_right h.creations _
  refine ⟨h.first.step (Nat.lt_of_le_of_lt hcreations hfew), h.second.step hfew, ?_, ?_,
    hcreations⟩
  · intro id hid
    exact ⟨Ledger.mem_after (h.given id hid).1 .., Ledger.mem_after (h.given id hid).2 ..⟩
  · exact h.level.step (fun hid => h.first.next_notMem (h.given _ hid).1)
      (fun hid => h.second.next_notMem (h.given _ hid).2) e

/-- The runs go on with the same events. -/
theorem run (h : Companions S p q) {more : List Event}
    (hfew : (more.foldl observe q).2.creations < UInt64.size - 1) :
    Companions S (more.foldl observe p) (more.foldl observe q) := by
  induction more using List.reverseRecOn with
  | nil => exact h
  | append_singleton more e ih =>
    rw [List.foldl_append] at hfew ⊢
    rw [List.foldl_append]
    exact (ih (Nat.lt_of_le_of_lt (Ledger.creations_le ..) hfew)).step hfew

end Companions

variable {tree : FileTree} {events : List Event} {backend : Option Nat} {arg : Option ConfigArg}
  {hasPlace : Bool} {env : Environment}

theorem creations_le_run (p : Boundary × Ledger) (more : List Event) :
    p.2.creations ≤ (more.foldl observe p).2.creations := by
  induction more generalizing p with
  | nil => exact Nat.le_refl _
  | cons e more ih => exact Nat.le_trans (Ledger.creations_le ..) (ih (observe p e))

/-- **A run with a failed creation in it, and the run without it**. -/
theorem observed_alike
    (hcode : ((observed tree events).1.createClient backend arg hasPlace env).2.1 ≠ .success)
    {more : List Event} (hfew : (observed tree
      (events ++ .createClient backend arg hasPlace env :: more)).2.creations < UInt64.size - 1) :
    Companions ((observed tree events).2.handles.map (·.id)) (observed tree (events ++ more))
      (observed tree (events ++ .createClient backend arg hasPlace env :: more)) := by
  rw [observed_append, List.foldl_cons] at hfew
  rw [observed_append tree events more, observed_append, List.foldl_cons]
  have hstep := Nat.lt_of_le_of_lt (creations_le_run _ more) hfew
  have hi : Agrees (observed tree events).1 (observed tree events).2 :=
    agrees_observed (Nat.lt_of_le_of_lt (Ledger.creations_le ..) hstep)
  refine Companions.run ⟨hi, hi.step hstep, ?_, ?_, Ledger.creations_le ..⟩ hfew
  · exact fun id hid => ⟨hid, Ledger.mem_after hid ..⟩
  · exact .of_untouched (untouched_of_failed _ hcode).1

/-! ## What a creation gives -/

/-- The handle `id` stands for the same client, and each call on it is answered alike. -/
structure SameFor (id : UInt64) (x y : Boundary) : Prop where
  client : y.client? id = x.client? id
  answer : ∀ e : Event, e.handle? = some id → (y.perform e).2 = (x.perform e).2

/-- The handle `id` is new, and it stands for a new client with a session that runs. -/
structure Gives (before : Ledger) (y : Boundary) (b : Nat) (config : Config) (store : Store)
    (id : UInt64) : Prop where
  not_null : id ≠ 0
  new : id ∉ before.handles.map (·.id)
  found : y.client? id = some {
    id
    backend := b
    session := { config, permits := { available := config.maxConcurrency.toNat } }
    transfer := store }
  running : y.Answers id .live

/-- The client that has been made is found under its handle. -/
theorem gives_enter {x : Boundary} {l : Ledger} (hi : Agrees x l)
    (hfew : l.creations + 1 < UInt64.size - 1) {b : Nat} {config : Config} {store : Store}
    (hopen : x.registry.isOpen b = true) (hmax : config.maxConcurrency.toNat ≤ maxPermits) :
    Gives l (x.enter (x.nextClient b config store)) b config store x.registry.nextId := by
  have hy : Agrees (x.enter (x.nextClient b config store)) _ :=
    hi.createOk hfew hopen (History.start_new hmax)
  have hmem : x.nextClient b config store ∈
      (x.enter (x.nextClient b config store)).registry.clients :=
    List.mem_append_right _ (List.mem_singleton_self _)
  refine ⟨?_, hi.next_notMem, hy.client?_eq hmem rfl, ?_⟩
  · intro hzero
    have hpos := hi.next_pos
    rw [hzero] at hpos
    exact absurd hpos (by decide)
  · have hlive := hy.answers (x.nextClient b config store).id
    rwa [hy.stateOf_registered hmem rfl] at hlive

/-- What holds of a creation after some events: it leaves the boundary `y`, and its caller is told
`code` and perhaps a handle. -/
structure CreationSafe (tree : FileTree) (events : List Event) (backend : Option Nat)
    (arg : Option ConfigArg) (hasPlace : Bool) (env : Environment) (y : Boundary) (code : Code)
    (id : Option UInt64) : Prop where
  /-- It is refused exactly when something is wrong with its arguments. -/
  refused : code = .invalidParameter ↔ Refused backend arg hasPlace env
  /-- A failure gives no handle, and it leaves all clients of all backends as they were. -/
  untouched : code ≠ .success → Untouched (observed tree events).1 y ∧ id = none
  /-- After a failure, whatever is called later, each handle is what it would be without it, as
  long as there are identifiers left. -/
  alike : code ≠ .success → ∀ more : List Event, (observed tree
    (events ++ .createClient backend arg hasPlace env :: more)).2.creations < UInt64.size - 1 →
      ∀ k ∈ (observed tree events).2.handles, SameFor k.id (observed tree (events ++ more)).1
        (observed tree (events ++ .createClient backend arg hasPlace env :: more)).1
  /-- A success gives a handle of the client that was asked for. -/
  gives : code = .success →
    (observed tree events).2.creations + 1 < UInt64.size - 1 →
      ∃ b config store i, Asks backend arg hasPlace env b config store ∧ id = some i ∧
        Gives (observed tree events).2 y b config store i

/-- What a creation gives that succeeds. -/
theorem gives_of_success {y : Boundary} {id : Option UInt64}
    (hcreate : (observed tree events).1.createClient backend arg hasPlace env = (y, .success, id))
    (hfew : (observed tree events).2.creations + 1 < UInt64.size - 1) :
    ∃ b config store i, Asks backend arg hasPlace env b config store ∧ id = some i ∧
      Gives (observed tree events).2 y b config store i := by
  have hi : Agrees (observed tree events).1 (observed tree events).2 :=
    agrees_observed (Nat.lt_trans (Nat.lt_succ_self _) hfew)
  obtain ⟨b, config, store, hasks⟩ | hrefused := asks_or_refused backend arg hasPlace env
  · rw [createClient_of_asks _ hasks] at hcreate
    split at hcreate
    · rename_i hopen
      split at hcreate
      · rename_i hmax
        simp only [Prod.mk.injEq, true_and] at hcreate
        obtain ⟨rfl, rfl⟩ := hcreate
        exact ⟨b, config, store, _, hasks, rfl, gives_enter hi hfew hopen hmax⟩
      · exact absurd hcreate (by simp)
    · exact absurd hcreate (by simp)
  · rw [createClient_of_refused _ hrefused] at hcreate
    exact absurd hcreate (by simp)

/-- **Creations are safe.** -/
theorem creation_safe {y : Boundary} {code : Code} {id : Option UInt64}
    (hcreate : (observed tree events).1.createClient backend arg hasPlace env = (y, code, id)) :
    CreationSafe tree events backend arg hasPlace env y code id := by
  have hcode : ((observed tree events).1.createClient backend arg hasPlace env).2.1 = code := by
    rw [hcreate]
  refine ⟨?_, ?_, ?_, ?_⟩
  · rw [← hcode]
    exact createClient_code_iff _
  · intro hfailed
    have huntouched := untouched_of_failed _ (hcode ▸ hfailed)
    rwa [hcreate] at huntouched
  · intro hfailed more hfew k hk
    have h := observed_alike (hcode ▸ hfailed) hfew
    have hmem := List.mem_map_of_mem (f := (·.id)) hk
    exact ⟨h.level.client?_eq hmem, fun e he => h.level.answer_eq he hmem⟩
  · rintro rfl hfew
    exact gives_of_success hcreate hfew

/-- A client is made; the next creation asks for more permits than a limiter can count, and fails;
the one after it is given the third identifier. -/
theorem creation_safe_of_many_permits :
    ∃ (events : List Event) (few many : ConfigArg) (env : Environment) (y z : Boundary),
      (observed {} events).2.handles = [⟨1, 0, .live⟩] ∧
      CreationSafe {} events (some 0) (some many) true env y .unknown none ∧
      CreationSafe {} (events ++ [.createClient (some 0) (some many) true env]) (some 0) (some few)
        true env z .success (some 3) := by
  let bytes (text : String) : Memory := some text.toUTF8.data.toList
  let env : Environment := fun _ => some "/srv"
  let few : ConfigArg := { parameters := .null 0, chunkSize := 4 }
  let many : ConfigArg := {
    parameters := .entries [⟨bytes "max_concurrency", bytes "2305843009213693952"⟩]
    chunkSize := 4 }
  let events : List Event := [.openBackend true, .createClient (some 0) (some few) true env]
  let failed : Event := .createClient (some 0) (some many) true env
  have hy : ((observed {} events).1.createClient (some 0) (some many) true env).2 =
      (.unknown, none) := by decide +kernel
  have hz : ((observed {} (events ++ [failed])).1.createClient (some 0) (some few) true env).2 =
      (.success, some 3) := by decide +kernel
  exact ⟨events, few, many, env, _, _, by decide +kernel, creation_safe (Prod.ext rfl hy),
    creation_safe (Prod.ext rfl hz)⟩

end Boundary

end RangeFetch
