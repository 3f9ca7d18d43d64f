import RangeFetch.Config.Resolve
import RangeFetch.Registry.Run
import RangeFetch.Text.Bytes

/-!
# The foreign interface

Callers of another language reach the backends through functions that take addresses and numbers and
answer with a code. An address may be null; a text is the bytes at its address up to a zero byte. A
client is known to its caller by its identifier, which every open backend is asked for, so that a
client that is gone is told as such. All transfers read from stores on the file system.

The functions are `obj_open_backend`, `obj_close_backend`, `obj_create_client`, `obj_remove_client`,
`obj_request_read`, `obj_wait_for_completions`, `obj_cancel_all_reads` and `obj_remove_all_clients`,
each inside `with_boundary`; `ConfigArg.resolve` is `resolve_config`, and `client?` is `find_client`
(section B.4).

Headlines:
* **`Boundary`** is the state behind the functions.
* **`createClient`**, **`requestRead`**, **`waitForCompletions`** and the others are the functions.
  What breaks inside one of them becomes the code `unknown`.
-/

namespace RangeFetch

/-- The bytes that stand at an address, if it is not null. -/
abbrev Memory := Option (List UInt8)

/-- The key and the value of a parameter. -/
structure ParameterArg where
  key : Memory
  value : Memory
  deriving DecidableEq, Repr

/-- An address of parameters, and their number. -/
inductive ParameterArray where
  | null (count : Nat)
  | entries (parameters : List ParameterArg)
  deriving DecidableEq, Repr

/-- What a caller passes to have a client configured. -/
structure ConfigArg where
  parameters : ParameterArray
  endpointUrl : Memory := none
  chunkSize : UInt64
  deriving DecidableEq, Repr

/-! ## Reading arguments -/

/-- The text at an address that is not null. -/
def readText (bytes : List UInt8) : Except ConfigError String :=
  match Text.ofBytes? (Text.untilNul bytes) with
  | some text => .ok text
  | none => .error .invalidUtf8

/-- The text at an address of parameter `i`. -/
def parameterText (i : Nat) : Memory → Except ConfigError String
  | none => .error (.nullParameter i)
  | some bytes => readText bytes

/-- The parameters from the `i`th on. -/
def readParameters : Nat → List ParameterArg → Except ConfigError (List (String × String))
  | _, [] => .ok []
  | i, p :: ps =>
    match parameterText i p.key with
    | .error e => .error e
    | .ok key =>
      match parameterText i p.value with
      | .error e => .error e
      | .ok value =>
        match readParameters (i + 1) ps with
        | .error e => .error e
        | .ok rest => .ok ((key, value) :: rest)

/-- The parameters of an array. -/
def ParameterArray.read : ParameterArray → Except ConfigError (List (String × String))
  | .null 0 => .ok []
  | .null (_ + 1) => .error (.nullParameter 0)
  | .entries parameters => readParameters 0 parameters

/-- The endpoint that is given on its own, if one is. -/
def readEndpoint : Memory → Except ConfigError (Option String)
  | none => .ok none
  | some bytes =>
    match readText bytes with
    | .error e => .error e
    | .ok text => .ok (some text)

/-- The configuration that a caller asks for, and the store that its endpoint names. -/
def ConfigArg.resolve (arg : ConfigArg) (env : Environment) : Except ConfigError (Config × Store) :=
  match arg.parameters.read with
  | .error e => .error e
  | .ok parameters =>
    match readEndpoint arg.endpointUrl with
    | .error e => .error e
    | .ok endpointUrl =>
      match Config.resolve parameters endpointUrl arg.chunkSize env with
      | .error e => .error e
      | .ok config =>
        match Store.ofEndpoint config.credentials.endpoint with
        | .error e => .error e
        | .ok store => .ok (config, store)

/-! ## The functions -/

/-- The state behind the functions: all backends of the process, and the files. -/
structure Boundary where
  tree : FileTree
  registry : Registry Store := {}

namespace Boundary

variable (x : Boundary)

/-- Lets the tasks of all clients run until none can go on. -/
def settle : Boundary :=
  { x with registry := (x.registry.settle (·.primitive x.tree) ()).1 }

/-- Opens a backend. The caller has its number if there is a place for it. -/
def openBackend (hasPlace : Bool) : Boundary × Code × Option Nat :=
  if hasPlace then
    match x.registry.openBackend none with
    | .error _ => (x, .unknown, none)
    | .ok (registry, b) => ({ x with registry }, .success, some b)
  else (x, .invalidParameter, none)

/-- Closes a backend. -/
def closeBackend : Option Nat → Boundary × Code
  | none => (x, .invalidParameter)
  | some b => ({ x with registry := x.registry.close b }, .success)

/-- Makes a client. The caller has its identifier if there is a place for it; `env` is the
environment of the process. -/
def createClient (backend : Option Nat) (arg : Option ConfigArg) (hasPlace : Bool)
    (env : Environment) : Boundary × Code × Option UInt64 :=
  match backend, arg, hasPlace with
  | some b, some arg, true =>
    match arg.resolve env with
    | .error _ => (x, .invalidParameter, none)
    | .ok (config, store) =>
      match x.registry.create b config store with
      | (registry, .error _) => ({ x with registry }, .unknown, none)
      | (registry, .ok id) => ({ x with registry }, .success, some id)
  | _, _, _ => (x, .invalidParameter, none)

/-- The open backend that knows a client. -/
def owner? (id : UInt64) : Option Nat :=
  x.registry.openBackends.find? fun b => (x.registry.client? b id).isSome

/-- The client that an identifier stands for. -/
def client? (id : UInt64) : Option (Client Store) :=
  (x.owner? id).bind (x.registry.client? · id)

/-- Removes a client. -/
def removeClient (id : UInt64) : Boundary × Code :=
  match x.owner? id with
  | none => (x, .invalidParameter)
  | some b =>
    match x.registry.remove b id with
    | .error _ => (x, .invalidParameter)
    | .ok registry => ({ x with registry }, .success)

/-- Requests the bytes of a blob. `destination` is the memory at the destination's address. -/
def requestRead (client : UInt64) (path : Memory) (range : ByteRange) (destination : Option Buffer)
    (id : UInt64) : Boundary × Code :=
  match path.map readText, Buffer.ofParts? destination range.length, x.client? client with
  | some (.ok path), some buffer, some c =>
    let (s, code) := c.session.read { id, path, range, buffer }
    ({ x with registry := x.registry.setSession client s }, code.getD .unknown)
  | _, _, _ => (x, .invalidParameter)

/-- What a caller that waited for completions has. The number of completions is written if there is
a place for it. -/
structure WaitReply where
  code : Code
  count : Option Nat
  slots : List Completion
  deriving DecidableEq, Repr

/-- Waits for completions, with room for `room` of them at an address. Gives nothing when the caller
has to wait. -/
def waitForCompletions (client : UInt64) (memory : Option (List Completion)) (room : Nat)
    (hasPlace : Bool) (mode : Session.WaitMode) : Option (WaitReply × Boundary) :=
  let slots := memory.getD []
  if hasPlace then
    if room ≠ 0 ∧ memory.isNone then some (⟨.invalidParameter, some 0, slots⟩, x)
    else
      match x.client? client with
      | none => some (⟨.invalidParameter, some 0, slots⟩, x)
      | some c =>
        (c.session.waitFor mode (slots.take room)).map fun (w, s) =>
          (⟨w.code, some w.count, w.slots ++ slots.drop room⟩,
            { x with registry := x.registry.setSession client s })
  else some (⟨.invalidParameter, none, slots⟩, x)

/-- Stops every client of every open backend. -/
def cancelAllReads : Boundary × Code :=
  ({ x with registry := x.registry.openBackends.foldl Registry.cancelAll x.registry }, .success)

/-- Removes every client of every open backend. -/
def removeAllClients : Boundary × Code :=
  ({ x with registry := x.registry.openBackends.foldl Registry.removeAll x.registry }, .success)

end Boundary

end RangeFetch
