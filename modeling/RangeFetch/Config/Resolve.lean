import RangeFetch.Config
import RangeFetch.Text.Blank
import RangeFetch.Text.Bytes
import RangeFetch.Text.Decimal

/-!
# Resolving a configuration

A configuration is put together from key/value parameters, the environment, an endpoint given on
its own, and a chunk size. The last parameter of a key counts; a credential without a parameter
comes from its environment variable; an endpoint given on its own replaces every other. Parameters
with an unknown key say nothing.

`Config.resolve` is `from_params_with_env` of `ClientConfiguration`, and also its `from_params` when
the environment is that of the process; `Draft` is what `new` makes and the parameters change
(section A.4).

Headlines:
* **`Config.resolve`** puts the configuration together or says which rule is broken.
* `Draft.param_unknown`: an unknown key changes nothing.
-/

namespace RangeFetch

/-- The environment: the text of a variable that is set. -/
abbrev Environment := String → Option String

/-- The environment that holds the given variables, of which the last of a name counts. A variable
whose value is no text counts as not set. -/
def Environment.ofBytes (settings : List (String × List UInt8)) : Environment := fun name =>
  (settings.reverse.find? (·.1 == name)).bind fun v => Text.ofBytes? v.2

/-- How many chunk transfers run at once if nothing is said. -/
def defaultMaxConcurrency : UInt64 := 8

/-- The parameter that sets the number of transfers. -/
def concurrencyKey : String := "max_concurrency"

/-- What the parameters read so far say. -/
structure Draft where
  credentials : Credentials := {}
  maxConcurrency : UInt64 := defaultMaxConcurrency
  deriving DecidableEq, Repr

namespace Draft

/-- Reads one more parameter. -/
def param (d : Draft) (key value : String) : Except ConfigError Draft :=
  match Credential.ofKey? key with
  | some c => .ok { d with credentials := d.credentials.set c (some value) }
  | none =>
    if key = concurrencyKey then
      match Text.word? (Text.trim value.toList) with
      | some n => .ok { d with maxConcurrency := n }
      | none => .error (.invalidValue key value)
    else .ok d

/-- Reads parameters in order, up to the first that is wrong. -/
def params : Draft → List (String × String) → Except ConfigError Draft
  | d, [] => .ok d
  | d, (key, value) :: rest =>
    match d.param key value with
    | .error e => .error e
    | .ok d' => d'.params rest

/-- The text of `c` from its variable, if no parameter gave it. -/
def fallback (env : Environment) (cs : Credentials) (c : Credential) : Credentials :=
  if (cs.get c).isSome then cs else cs.set c (env c.variableName)

/-- Fills every missing credential from the environment. -/
def fill (env : Environment) (cs : Credentials) : Credentials :=
  Credential.all.foldl (fallback env) cs

theorem param_unknown (d : Draft) {key : String} (value : String)
    (hc : Credential.ofKey? key = none) (hk : key ≠ concurrencyKey) : d.param key value = .ok d := by
  rw [param, hc]
  simp only [if_neg hk]

end Draft

/-- Puts a configuration together. -/
def Config.resolve (parameters : List (String × String)) (endpointUrl : Option String)
    (chunkSize : UInt64) (env : Environment) : Except ConfigError Config :=
  if hs : chunkSize = 0 then .error .zeroChunkSize
  else
    match ({} : Draft).params parameters with
    | .error e => .error e
    | .ok draft =>
      let filled := Draft.fill env draft.credentials
      let credentials :=
        match endpointUrl with
        | some url => filled.set .endpoint (some url)
        | none => filled
      if hm : draft.maxConcurrency = 0 then .error .zeroConcurrency
      else .ok ⟨credentials, chunkSize, draft.maxConcurrency, hs, hm⟩

end RangeFetch
