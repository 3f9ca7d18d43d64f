import RangeFetch.Config
import RangeFetch.Text.Decimal
import RangeFetch.Text.Quoted

/-!
# A configuration as text

The text of a configuration for a log. Of a secret it shows only whether it is there.

It is what `ClientConfiguration` and `Credentials` print for debugging, and what `ConfigError`
prints for a user.

Headlines:
* **`Config.summary`** writes the text, by `Config.summaryOf`; `Credentials.shown` is what it says
  of a credential.
* **`ConfigError.message`** is the text of an error.
-/

namespace RangeFetch

/-- What stands for the text of a secret. -/
def redacted : List Char :=
  ['<', 'r', 'e', 'd', 'a', 'c', 't', 'e', 'd', '>']

/-- The credentials that open a store to whoever knows them. -/
def Credential.isSecret : Credential → Bool
  | connectionString | accountKey | sasToken => true
  | accountName | endpoint => false

/-- What the text says of a credential. -/
def Credentials.shown (cs : Credentials) (c : Credential) : Option (List Char) :=
  if c.isSecret then (cs.get c).map fun _ => redacted else (cs.get c).map String.toList

/-- A field of a record: its name and its value. -/
def field (name : String) (value : List Char) : List Char :=
  name.toList ++ ':' :: ' ' :: value

/-- A record: its name, and its fields in braces. -/
def record (name : String) (fields : List (List Char)) : List Char :=
  name.toList ++ [' ', '{', ' '] ++ [',', ' '].intercalate fields ++ [' ', '}']

/-- The credentials as text. -/
def Credentials.summary (cs : Credentials) : List Char :=
  record "Credentials" (Credential.all.map fun c => field c.key (Text.quoteOption (cs.shown c)))

/-- The text of credentials and sizes, whether or not a client can be opened with them. -/
def Config.summaryOf (credentials : Credentials) (chunkSize maxConcurrency : UInt64) : String :=
  String.ofList (record "ClientConfiguration" [
    field "credentials" credentials.summary,
    field "chunk_size" (Text.digits chunkSize.toNat),
    field "max_concurrency" (Text.digits maxConcurrency.toNat)])

/-- A configuration as text. -/
def Config.summary (c : Config) : String :=
  Config.summaryOf c.credentials c.chunkSize c.maxConcurrency

/-- The text of an error. -/
def ConfigError.message : ConfigError → String
  | .invalidValue key value =>
    "invalid value for " ++ key ++ ": " ++ String.ofList (Text.quote value.toList)
  | .zeroChunkSize => "chunk size must be greater than zero"
  | .zeroConcurrency => "max_concurrency must be greater than zero"
  | .nullParameter index =>
    "configuration parameter " ++ String.ofList (Text.digits index) ++ " is null"
  | .invalidUtf8 => "configuration is not valid utf-8"
  | .unsupportedEndpoint endpoint =>
    "no transfer available for endpoint: "
      ++ String.ofList (Text.quoteOption (endpoint.map String.toList))

end RangeFetch
