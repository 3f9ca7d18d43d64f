/-!
# Client configurations

What a client is opened with: its credentials, the size of a chunk, and how many chunk transfers
may run at once. A configuration has chunks of at least one byte and at least one transfer.

They are `Credentials` and `ClientConfiguration`, with `is_explicit` and `same_credentials` (section
A.4).

Headlines:
* **`Credential`** names the five credentials; `Credentials.get` and `Credentials.set` reach them,
  and `get_set` says that a setting changes the one it names only.
* **`Config`** carries both bounds in its type.
-/

namespace RangeFetch

/-- The credentials a client may be given. -/
inductive Credential where
  | connectionString
  | accountName
  | accountKey
  | sasToken
  | endpoint
  deriving DecidableEq, Repr

namespace Credential

/-- All of them. -/
def all : List Credential :=
  [connectionString, accountName, accountKey, sasToken, endpoint]

theorem mem_all (c : Credential) : c ∈ all := by
  cases c <;> decide

/-- The parameter that sets a credential. -/
def key : Credential → String
  | connectionString => "connection_string"
  | accountName => "account_name"
  | accountKey => "account_key"
  | sasToken => "sas_token"
  | endpoint => "endpoint"

/-- The environment variable that a credential falls back to. -/
def variableName : Credential → String
  | connectionString => "AZURE_STORAGE_CONNECTION_STRING"
  | accountName => "AZURE_STORAGE_ACCOUNT_NAME"
  | accountKey => "AZURE_STORAGE_ACCOUNT_KEY"
  | sasToken => "AZURE_STORAGE_SAS_TOKEN"
  | endpoint => "AZURE_STORAGE_ENDPOINT"

/-- The credential that a parameter sets. -/
def ofKey? (key : String) : Option Credential :=
  all.find? (·.key == key)

theorem ofKey?_key (c : Credential) : ofKey? c.key = some c := by
  cases c <;> decide

theorem key_of_ofKey? {key : String} {c : Credential} (h : ofKey? key = some c) : c.key = key := by
  simpa using List.find?_some h

end Credential

/-- The credentials of a client, each of which may be missing. -/
structure Credentials where
  connectionString : Option String := none
  accountName : Option String := none
  accountKey : Option String := none
  sasToken : Option String := none
  endpoint : Option String := none
  deriving DecidableEq, Repr

namespace Credentials

/-- One of the credentials. -/
def get (cs : Credentials) : Credential → Option String
  | .connectionString => cs.connectionString
  | .accountName => cs.accountName
  | .accountKey => cs.accountKey
  | .sasToken => cs.sasToken
  | .endpoint => cs.endpoint

/-- The credentials with one of them replaced. -/
def set (cs : Credentials) (c : Credential) (value : Option String) : Credentials :=
  match c with
  | .connectionString => { cs with connectionString := value }
  | .accountName => { cs with accountName := value }
  | .accountKey => { cs with accountKey := value }
  | .sasToken => { cs with sasToken := value }
  | .endpoint => { cs with endpoint := value }

theorem get_set (cs : Credentials) (c d : Credential) (value : Option String) :
    (cs.set c value).get d = if d = c then value else cs.get d := by
  cases c <;> cases d <;> rfl

theorem ext_get {as bs : Credentials} (h : ∀ c, as.get c = bs.get c) : as = bs := by
  obtain ⟨a, b, c, d, e⟩ := as
  obtain ⟨a', b', c', d', e'⟩ := bs
  obtain rfl := h .connectionString
  obtain rfl := h .accountName
  obtain rfl := h .accountKey
  obtain rfl := h .sasToken
  obtain rfl := h .endpoint
  rfl

/-- Whether the credentials are complete by themselves. -/
def isExplicit (cs : Credentials) : Bool :=
  cs.connectionString.isSome
    || (cs.accountName.isSome && (cs.accountKey.isSome || cs.sasToken.isSome))

end Credentials

/-- What a client is opened with. -/
structure Config where
  credentials : Credentials
  /-- Bytes in a chunk. -/
  chunkSize : UInt64
  /-- Chunk transfers that may run at once. -/
  maxConcurrency : UInt64
  chunkSize_ne_zero : chunkSize ≠ 0
  maxConcurrency_ne_zero : maxConcurrency ≠ 0
  deriving DecidableEq, Repr

/-- Both configurations have the same credentials. -/
def Config.sameCredentials (a b : Config) : Bool :=
  a.credentials == b.credentials

/-- Why there is no configuration, or no client for it. -/
inductive ConfigError where
  | invalidValue (key value : String)
  | zeroChunkSize
  | zeroConcurrency
  | nullParameter (index : Nat)
  | invalidUtf8
  | unsupportedEndpoint (endpoint : Option String)
  deriving DecidableEq, Repr

end RangeFetch
