import RangeFetch.Session.Call
import RangeFetch.Text.Decimal

/-!
# Backends and their clients

A process has backends, and a backend has clients, each with a session of its own. A client is known
by an identifier that no other client of the process ever has. A client that is removed is forgotten
by its backend and its session is stopped; whoever still holds the session may go on using it.

A backend is a `Backend`, and the operations are its `open`, `create_client`, `client`,
`client_count`, `remove_client`, `remove_all_clients`, `cancel_all_reads` and `close`; identifiers
come from one counter, `NEXT_CLIENT_ID` (sections 4.5 and B.3).

Headlines:
* **`Registry`** holds every client that was ever made, with the backend that made it and whether it
  is registered there; `client?` looks a client up.
* **`create`**, **`remove`**, **`removeAll`**, **`cancelAll`** and **`close`** are the operations. A
  removal returns when the tasks of the session are through: its closer waits for them.
* `clientCount_removeAll`: after the removal of all clients none is registered.
-/

namespace RangeFetch

/-- A client, whose session calls the primitive that `transfer` stands for. -/
structure Client (τ : Type) where
  id : UInt64
  /-- The number of the backend that made it. -/
  backend : Nat
  /-- The backend has not forgotten it. -/
  registered : Bool := true
  session : Session
  transfer : τ

/-- Why an operation on a backend fails. -/
inductive RegistryError where
  | unknownClient (id : UInt64)
  /-- The backend was closed. -/
  | closed
  | broken (f : Fault)
  deriving DecidableEq, Repr

/-- The text of an error. -/
def RegistryError.message : RegistryError → String
  | .unknownClient id => "unknown client: " ++ String.ofList (Text.digits id.toNat)
  | .closed => "failed to start transfer runtime: not connected"
  | .broken f => f.message

/-- What closing a backend does with outstanding work. -/
inductive ShutdownPolicy where
  /-- Waits for it. -/
  | drainOnClose
  | discardOnClose
  deriving DecidableEq, Repr

/-- The number of a policy. -/
def ShutdownPolicy.number : ShutdownPolicy → Nat
  | .drainOnClose => 0
  | .discardOnClose => 1

/-- The backends and the clients of a process. -/
structure Registry (τ : Type) where
  /-- The identifier of the next client. -/
  nextId : UInt64 := 1
  /-- For each backend, whether it is open. -/
  backends : List Bool := []
  /-- In the order in which they were made. -/
  clients : List (Client τ) := []

namespace Registry

variable {τ : Type} (r : Registry τ)

/-- The policy of every backend. -/
def shutdownPolicy : ShutdownPolicy :=
  .drainOnClose

/-! ## Looking up -/

/-- The client is registered with backend `b`. -/
def isAt (b : Nat) (c : Client τ) : Bool :=
  c.registered && c.backend == b

/-- The client is registered with backend `b` under the identifier `id`. -/
def isClient (b : Nat) (id : UInt64) (c : Client τ) : Bool :=
  isAt b c && c.id == id

/-- The client that backend `b` knows by the identifier `id`. -/
def client? (b : Nat) (id : UInt64) : Option (Client τ) :=
  r.clients.find? (isClient b id)

/-- The number of clients of backend `b`. -/
def clientCount (b : Nat) : Nat :=
  r.clients.countP (isAt b)

/-- The client with the identifier `id`, registered or not: what a caller holds who looked it up
while it was. -/
def held? (id : UInt64) : Option (Client τ) :=
  r.clients.find? (·.id == id)

/-- Backend `b` is open. -/
def isOpen (b : Nat) : Bool :=
  r.backends[b]?.getD false

/-- The backends that are open, in the order in which they were opened. -/
def openBackends : List Nat :=
  (List.range r.backends.length).filter r.isOpen

/-! ## Operations -/

/-- Changes the clients that satisfy `p`. -/
def modify (p : Client τ → Bool) (f : Client τ → Client τ) : Registry τ :=
  { r with clients := r.clients.map fun c => if p c then f c else c }

theorem map_id_modify {p : Client τ → Bool} {f : Client τ → Client τ} (hf : ∀ c, (f c).id = c.id) :
    (r.modify p f).clients.map (·.id) = r.clients.map (·.id) := by
  simp only [modify, List.map_map]
  refine List.map_congr_left fun c _ => ?_
  simp only [Function.comp]
  split <;> simp [hf]

/-- Gives the client with the identifier `id` a session. -/
def setSession (id : UInt64) (s : Session) : Registry τ :=
  r.modify (·.id == id) fun c => { c with session := s }

/-- Opens a backend that runs on `workers` threads, or on as many as seem right. -/
def openBackend (workers : Option UInt64) : Except Fault (Registry τ × Nat) :=
  if workers = some 0 then .error .noWorkers
  else .ok ({ r with backends := r.backends ++ [true] }, r.backends.length)

/-- Makes a client of backend `b`. A session that cannot be started uses up its identifier. -/
def create (b : Nat) (config : Config) (transfer : τ) : Registry τ × Except RegistryError UInt64 :=
  if r.isOpen b then
    let r' : Registry τ := { r with nextId := r.nextId + 1 }
    match Session.start config with
    | .error f => (r', .error (.broken f))
    | .ok session =>
      let client : Client τ := { id := r.nextId, backend := b, session, transfer }
      ({ r' with clients := r.clients ++ [client] }, .ok r.nextId)
  else (r, .error .closed)

/-- A client that its backend forgets; its session is being shut down. -/
def detach (c : Client τ) : Client τ :=
  { c with registered := false, session := c.session.beginShutdown }

/-- Removes a client of backend `b`. -/
def remove (b : Nat) (id : UInt64) : Except RegistryError (Registry τ) :=
  if (r.client? b id).isSome then .ok (r.modify (isClient b id) detach)
  else .error (.unknownClient id)

/-- Removes every client of backend `b`. -/
def removeAll (b : Nat) : Registry τ :=
  r.modify (isAt b) detach

theorem clientCount_removeAll (b : Nat) : (r.removeAll b).clientCount b = 0 := by
  simp only [clientCount, removeAll, modify, List.countP_eq_zero, List.mem_map]
  rintro _ ⟨c, _, rfl⟩
  split
  · simp [isAt, detach]
  · assumption

/-- Stops the session of every client of backend `b`. -/
def cancelAll (b : Nat) : Registry τ :=
  r.modify (isAt b) fun c => { c with session := c.session.stop }

/-- Removes every client of backend `b` and closes it. -/
def close (b : Nat) : Registry τ :=
  { r.removeAll b with backends := r.backends.set b false }

end Registry

end RangeFetch
