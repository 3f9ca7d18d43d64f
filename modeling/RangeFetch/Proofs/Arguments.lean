import Mathlib.Data.List.Forall2
import RangeFetch.Boundary
import RangeFetch.Proofs.Naming

/-!
# What a caller passes

The arguments of a creation are addresses: of texts, of parameters that are two texts each, of the
whole. `Spells` says what text stands at an address, without a decoder: the bytes in front of the
first zero byte are its UTF-8 form. `ConfigArg.Says` puts the texts of an argument together, and
`ConfigArg.Invalid` lists what can be wrong with one, whatever is looked at first.

Headlines:
* **`readText_eq_ok_iff`**: the text that is read is the one that stands there.
* **`ParameterArray.read_eq_ok_iff`**, **`readEndpoint_eq_ok_iff`**: the same of all parameters and
  of the endpoint.
* **`Store.ofEndpoint_eq_ok_iff`**: the endpoints that a store has.
* **`ConfigArg.resolve_eq_ok_iff`** and **`ConfigArg.exists_error_iff`**: what an argument comes to.
-/

namespace RangeFetch

/-! ## Texts -/

/-- The bytes in front of the first zero byte are the text in UTF-8. -/
def Encodes (bytes : List UInt8) (text : String) : Prop :=
  text.toUTF8.data.toList = bytes.takeWhile (· != 0)

/-- The text stands at the address. -/
def Spells (m : Memory) (text : String) : Prop :=
  ∃ bytes, m = some bytes ∧ Encodes bytes text

theorem ofBytes?_eq_some_iff {bytes : List UInt8} {text : String} :
    Text.ofBytes? bytes = some text ↔ text.toUTF8.data.toList = bytes := by
  unfold Text.ofBytes? String.fromUTF8?
  constructor
  · intro h
    split at h
    · obtain rfl := Option.some.inj h
      rfl
    · exact absurd h (by simp)
  · rintro rfl
    exact dif_pos text.isValidUTF8

theorem readText_eq_ok_iff {bytes : List UInt8} {text : String} :
    readText bytes = .ok text ↔ Encodes bytes text := by
  unfold Encodes
  rw [← Text.untilNul, ← ofBytes?_eq_some_iff, readText]
  cases Text.ofBytes? (Text.untilNul bytes) <;> simp

theorem Encodes.unique {bytes : List UInt8} {s t : String} (hs : Encodes bytes s)
    (ht : Encodes bytes t) : s = t := by
  rw [← readText_eq_ok_iff] at hs ht
  exact Except.ok.inj (hs.symm.trans ht)

/-! ## Parameters -/

/-- The two texts of a parameter. -/
def ParameterArg.Says (p : ParameterArg) (pair : String × String) : Prop :=
  Spells p.key pair.1 ∧ Spells p.value pair.2

/-- The texts of an array of parameters. The null address has none if their number is zero. -/
inductive ParameterArray.Says : ParameterArray → List (String × String) → Prop where
  | null : ParameterArray.Says (.null 0) []
  | entries {parameters : List ParameterArg} {ps : List (String × String)}
    (h : List.Forall₂ ParameterArg.Says parameters ps) :
    ParameterArray.Says (.entries parameters) ps

/-- The text of the endpoint, which may be missing. -/
inductive SaysEndpoint : Memory → Option String → Prop where
  | null : SaysEndpoint none none
  | text {m : Memory} {text : String} (h : Spells m text) : SaysEndpoint m (some text)

/-- The texts of an argument. -/
structure ConfigArg.Says (arg : ConfigArg) (ps : List (String × String)) (url : Option String) :
    Prop where
  parameters : arg.parameters.Says ps
  endpoint : SaysEndpoint arg.endpointUrl url

theorem parameterText_eq_ok_iff {i : Nat} {m : Memory} {text : String} :
    parameterText i m = .ok text ↔ Spells m text := by
  cases m with
  | none => simp [parameterText, Spells]
  | some bytes => simp [parameterText, Spells, readText_eq_ok_iff]

theorem readParameters_eq_ok_iff {i : Nat} {parameters : List ParameterArg}
    {ps : List (String × String)} :
    readParameters i parameters = .ok ps ↔ List.Forall₂ ParameterArg.Says parameters ps := by
  induction parameters generalizing i ps with
  | nil => simp [readParameters, eq_comm]
  | cons p parameters ih =>
    rw [readParameters]
    constructor
    · intro h
      cases hkey : parameterText i p.key with
      | error e => simp [hkey] at h
      | ok key =>
        cases hvalue : parameterText i p.value with
        | error e => simp [hkey, hvalue] at h
        | ok value =>
          cases hrest : readParameters (i + 1) parameters with
          | error e => simp [hkey, hvalue, hrest] at h
          | ok rest =>
            simp only [hkey, hvalue, hrest] at h
            obtain rfl := Except.ok.inj h
            exact .cons ⟨parameterText_eq_ok_iff.mp hkey, parameterText_eq_ok_iff.mp hvalue⟩
              (ih.mp hrest)
    · rintro (_ | ⟨⟨hkey, hvalue⟩, hrest⟩)
      simp only [parameterText_eq_ok_iff.mpr hkey, parameterText_eq_ok_iff.mpr hvalue,
        ih.mpr hrest]

theorem ParameterArray.read_eq_ok_iff {array : ParameterArray} {ps : List (String × String)} :
    array.read = .ok ps ↔ array.Says ps := by
  cases array with
  | null count =>
    cases count with
    | zero =>
      constructor
      · intro h
        obtain rfl := Except.ok.inj h
        exact .null
      · rintro ⟨⟩
        rfl
    | succ count => exact iff_of_false (by simp [read]) (by rintro ⟨⟩)
  | entries parameters =>
    rw [read, readParameters_eq_ok_iff]
    exact ⟨.entries, fun | .entries h => h⟩

theorem readEndpoint_eq_ok_iff {m : Memory} {url : Option String} :
    readEndpoint m = .ok url ↔ SaysEndpoint m url := by
  cases m with
  | none =>
    constructor
    · intro h
      obtain rfl := Except.ok.inj h
      exact .null
    · rintro (_ | ⟨_, h, -⟩)
      · rfl
      · exact absurd h (by simp)
  | some bytes =>
    rw [readEndpoint]
    constructor
    · intro h
      cases htext : readText bytes with
      | error e => simp [htext] at h
      | ok text =>
        simp only [htext] at h
        obtain rfl := Except.ok.inj h
        exact .text ⟨bytes, rfl, readText_eq_ok_iff.mp htext⟩
    · rintro (_ | ⟨_, h, htext⟩)
      obtain rfl := Option.some.inj h
      rw [readText_eq_ok_iff.mpr htext]

/-- An argument says one thing at most. -/
theorem ConfigArg.Says.unique {arg : ConfigArg} {ps ps' : List (String × String)}
    {url url' : Option String} (h : arg.Says ps url) (h' : arg.Says ps' url') :
    ps = ps' ∧ url = url' := by
  have hps := (ParameterArray.read_eq_ok_iff.mpr h.parameters).symm.trans
    (ParameterArray.read_eq_ok_iff.mpr h'.parameters)
  have hurl := (readEndpoint_eq_ok_iff.mpr h.endpoint).symm.trans
    (readEndpoint_eq_ok_iff.mpr h'.endpoint)
  exact ⟨Except.ok.inj hps, Except.ok.inj hurl⟩

/-! ## Endpoints -/

/-- The endpoint is the absolute path, with or without the scheme of files. -/
structure Locates (endpoint : Option String) (path : String) : Prop where
  absolute : ∃ rest, path = "/" ++ rest
  endpoint : endpoint = some path ∨ endpoint = some ("file://" ++ path)

theorem isAbsolute_toList_iff {path : String} :
    Path.isAbsolute path.toList = true ↔ ∃ rest, path = "/" ++ rest := by
  constructor
  · intro h
    cases hpath : path.toList with
    | nil => simp [hpath, Path.isAbsolute] at h
    | cons c cs =>
      obtain rfl : c = '/' := by simpa [hpath, Path.isAbsolute] using h
      obtain ⟨rest, rfl⟩ := Location.exists_toList cs
      refine ⟨rest, String.toList_inj.mp ?_⟩
      rw [hpath, String.toList_append]
      rfl
  · rintro ⟨rest, rfl⟩
    rw [String.toList_append]
    rfl

/-- An absolute path has no scheme. -/
theorem absolute_ne_scheme (s t : String) : "/" ++ s ≠ "file://" ++ t := by
  intro h
  have hlist := congrArg String.toList h
  rw [String.toList_append, String.toList_append] at hlist
  exact absurd (List.cons.inj hlist).1 (by decide)

/-- **The endpoints that a store has.** -/
theorem Store.ofEndpoint_eq_ok_iff {endpoint : Option String} {store : Store} :
    Store.ofEndpoint endpoint = .ok store ↔ Locates endpoint (String.ofList store.root) := by
  cases endpoint with
  | none => exact iff_of_false (by simp [ofEndpoint]) fun h => by simpa using h.endpoint
  | some text =>
    rw [ofEndpoint, show fileScheme = "file://".toList from rfl]
    constructor
    · intro h
      split at h
      · rename_i habsolute
        obtain rfl := Except.ok.inj h
        refine ⟨isAbsolute_toList_iff.mp (by rwa [String.toList_ofList]), ?_⟩
        dsimp only
        cases hpath : "file://".toList.isPrefixOf? text.toList with
        | none => exact .inl (by rw [Option.getD_none, String.ofList_toList])
        | some cs =>
          obtain ⟨path, rfl⟩ := Location.exists_toList cs
          rw [Option.getD_some, String.ofList_toList, ← Location.isPrefixOf?_scheme.mp hpath]
          exact .inr rfl
      · exact absurd h (by simp)
    · rintro ⟨⟨rest, habsolute⟩, htext⟩
      have hroot : ("file://".toList.isPrefixOf? text.toList).getD text.toList = store.root := by
        rcases htext with htext | htext
        · obtain rfl := Option.some.inj htext
          rw [Location.isPrefixOf?_scheme_none.mpr fun t => habsolute ▸ absolute_ne_scheme rest t,
            Option.getD_none, String.toList_ofList]
        · rw [Location.isPrefixOf?_scheme.mpr (Option.some.inj htext), Option.getD_some,
            String.toList_ofList]
      obtain ⟨root, hstore⟩ := store
      obtain rfl : _ = root := hroot
      exact dif_pos hstore

/-! ## The whole argument -/

/-- What can be wrong with an argument. -/
inductive ConfigArg.Invalid (arg : ConfigArg) (env : Environment) : Prop where
  /-- There is no array, but parameters are counted. -/
  | nullArray (count : Nat) (h : arg.parameters = .null (count + 1))
  /-- There is no key or no value. -/
  | nullText (parameters : List ParameterArg) (p : ParameterArg)
    (h : arg.parameters = .entries parameters) (hp : p ∈ parameters)
    (hnull : p.key = none ∨ p.value = none)
  /-- A key or a value is no UTF-8. -/
  | notText (parameters : List ParameterArg) (p : ParameterArg) (bytes : List UInt8)
    (h : arg.parameters = .entries parameters) (hp : p ∈ parameters)
    (hbytes : p.key = some bytes ∨ p.value = some bytes) (hnot : ∀ text, ¬ Encodes bytes text)
  /-- The endpoint is no UTF-8. -/
  | endpointNotText (bytes : List UInt8) (h : arg.endpointUrl = some bytes)
    (hnot : ∀ text, ¬ Encodes bytes text)
  /-- There is no configuration. -/
  | unresolved (ps : List (String × String)) (url : Option String) (e : ConfigError)
    (h : arg.Says ps url) (hr : Config.resolve ps url arg.chunkSize env = .error e)
  /-- There is no store at the endpoint. -/
  | unsupported (ps : List (String × String)) (url : Option String) (config : Config)
    (h : arg.Says ps url) (hr : Config.resolve ps url arg.chunkSize env = .ok config)
    (hpath : ∀ path, ¬ Locates config.credentials.endpoint path)

namespace ConfigArg

variable {arg : ConfigArg} {env : Environment} {config : Config} {store : Store}

/-- **What an argument is resolved to.** -/
theorem resolve_eq_ok_iff : arg.resolve env = .ok (config, store) ↔
    ∃ ps url, arg.Says ps url ∧ Config.resolve ps url arg.chunkSize env = .ok config ∧
      Locates config.credentials.endpoint (String.ofList store.root) := by
  rw [resolve]
  constructor
  · intro h
    cases hps : arg.parameters.read with
    | error e => simp [hps] at h
    | ok ps =>
      cases hurl : readEndpoint arg.endpointUrl with
      | error e => simp [hps, hurl] at h
      | ok url =>
        cases hr : Config.resolve ps url arg.chunkSize env with
        | error e => simp [hps, hurl, hr] at h
        | ok config' =>
          cases hstore : Store.ofEndpoint config'.credentials.endpoint with
          | error e => simp [hps, hurl, hr, hstore] at h
          | ok store' =>
            simp only [hps, hurl, hr, hstore] at h
            obtain ⟨rfl, rfl⟩ := Prod.mk.inj (Except.ok.inj h)
            exact ⟨ps, url, ⟨ParameterArray.read_eq_ok_iff.mp hps, readEndpoint_eq_ok_iff.mp hurl⟩,
              hr, Store.ofEndpoint_eq_ok_iff.mp hstore⟩
  · rintro ⟨ps, url, ⟨hps, hurl⟩, hr, hstore⟩
    simp only [ParameterArray.read_eq_ok_iff.mpr hps, readEndpoint_eq_ok_iff.mpr hurl, hr,
      Store.ofEndpoint_eq_ok_iff.mpr hstore]

/-- Parameters that say nothing have one with a key or a value that says nothing. -/
theorem exists_unreadable {parameters : List ParameterArg}
    (h : ∀ ps, ¬ List.Forall₂ ParameterArg.Says parameters ps) :
    ∃ p ∈ parameters, ∃ m, (p.key = m ∨ p.value = m) ∧ ∀ text, ¬ Spells m text := by
  by_contra hall
  have hreadable : ∀ p ∈ parameters, ∀ m, p.key = m ∨ p.value = m → ∃ text, Spells m text := by
    intro p hp m hm
    by_contra hnone
    exact hall ⟨p, hp, m, hm, not_exists.mp hnone⟩
  have hpair : ∀ p ∈ parameters, ∃ pair, ParameterArg.Says p pair := by
    intro p hp
    obtain ⟨key, hkey⟩ := hreadable p hp p.key (.inl rfl)
    obtain ⟨value, hvalue⟩ := hreadable p hp p.value (.inr rfl)
    exact ⟨(key, value), hkey, hvalue⟩
  clear hall hreadable
  induction parameters with
  | nil => exact h [] .nil
  | cons p parameters ih =>
    obtain ⟨pair, hsays⟩ := hpair p List.mem_cons_self
    refine ih (fun ps hps => h (pair :: ps) (.cons hsays hps)) fun q hq => ?_
    exact hpair q (List.mem_cons_of_mem _ hq)

/-- The parameters say something, or there is something wrong with them. -/
theorem parameters_says_or_invalid (arg : ConfigArg) (env : Environment) :
    (∃ ps, arg.parameters.Says ps) ∨ arg.Invalid env := by
  cases hp : arg.parameters with
  | null count =>
    cases count with
    | zero => exact .inl ⟨[], .null⟩
    | succ count => exact .inr (.nullArray count hp)
  | entries parameters =>
    by_cases hex : ∃ ps, List.Forall₂ ParameterArg.Says parameters ps
    · obtain ⟨ps, hps⟩ := hex
      exact .inl ⟨ps, .entries hps⟩
    · obtain ⟨p, hmem, m, hm, hnone⟩ := exists_unreadable (not_exists.mp hex)
      refine .inr ?_
      cases m with
      | none => exact .nullText parameters p hp hmem hm
      | some bytes =>
        exact .notText parameters p bytes hp hmem hm fun text htext =>
          hnone text ⟨bytes, rfl, htext⟩

/-- The endpoint says something, or there is something wrong with it. -/
theorem endpoint_says_or_invalid (arg : ConfigArg) (env : Environment) :
    (∃ url, SaysEndpoint arg.endpointUrl url) ∨ arg.Invalid env := by
  cases hm : arg.endpointUrl with
  | none => exact .inl ⟨none, .null⟩
  | some bytes =>
    by_cases hex : ∃ text, Encodes bytes text
    · obtain ⟨text, htext⟩ := hex
      exact .inl ⟨some text, .text ⟨bytes, rfl, htext⟩⟩
    · exact .inr (.endpointNotText bytes hm (not_exists.mp hex))

/-- An argument with nothing wrong is resolved. -/
theorem resolves_or_invalid (arg : ConfigArg) (env : Environment) :
    (∃ resolved, arg.resolve env = .ok resolved) ∨ arg.Invalid env := by
  obtain ⟨ps, hps⟩ | hbad := parameters_says_or_invalid arg env
  · obtain ⟨url, hurl⟩ | hbad := endpoint_says_or_invalid arg env
    · cases hr : Config.resolve ps url arg.chunkSize env with
      | error e => exact .inr (.unresolved ps url e ⟨hps, hurl⟩ hr)
      | ok config =>
        by_cases hex : ∃ path, Locates config.credentials.endpoint path
        · obtain ⟨path, hpath⟩ := hex
          let store : Store := ⟨path.toList, isAbsolute_toList_iff.mpr hpath.absolute⟩
          refine .inl ⟨(config, store), resolve_eq_ok_iff.mpr ⟨ps, url, ⟨hps, hurl⟩, hr, ?_⟩⟩
          rwa [show String.ofList store.root = path from String.ofList_toList]
        · exact .inr (.unsupported ps url config ⟨hps, hurl⟩ hr (not_exists.mp hex))
    · exact .inr hbad
  · exact .inr hbad

/-- An argument that says something has a key and a value for each parameter. -/
theorem Says.entry {ps : List (String × String)} {url : Option String} (h : arg.Says ps url)
    {parameters : List ParameterArg} (hp : arg.parameters = .entries parameters)
    {p : ParameterArg} (hmem : p ∈ parameters) : ∃ pair, ParameterArg.Says p pair := by
  have hsays := h.parameters
  rw [hp] at hsays
  obtain _ | hall := hsays
  obtain ⟨i, hi, rfl⟩ := List.getElem_of_mem hmem
  exact ⟨_, hall.get hi (hall.length_eq ▸ hi)⟩

/-- An argument with something wrong is not resolved. -/
theorem Invalid.not_resolves (h : arg.Invalid env) : arg.resolve env ≠ .ok (config, store) := by
  intro hok
  obtain ⟨ps, url, hsays, hr, hpath⟩ := resolve_eq_ok_iff.mp hok
  cases h with
  | nullArray count hnull =>
    have hps := hsays.parameters
    rw [hnull] at hps
    cases hps
  | nullText parameters p hp hmem hnull =>
    obtain ⟨_, ⟨_, hkey, -⟩, ⟨_, hvalue, -⟩⟩ := hsays.entry hp hmem
    simp [hkey, hvalue] at hnull
  | notText parameters p bytes hp hmem hbytes hnot =>
    obtain ⟨⟨key, value⟩, ⟨kbytes, hkey, hk⟩, ⟨vbytes, hvalue, hv⟩⟩ := hsays.entry hp hmem
    rcases hbytes with hbytes | hbytes
    · obtain rfl := Option.some.inj (hkey.symm.trans hbytes)
      exact hnot key hk
    · obtain rfl := Option.some.inj (hvalue.symm.trans hbytes)
      exact hnot value hv
  | endpointNotText bytes hm hnot =>
    have hurl := hsays.endpoint
    rw [hm] at hurl
    obtain _ | ⟨_, hsome, htext⟩ := hurl
    obtain rfl := Option.some.inj hsome
    exact hnot _ htext
  | unresolved ps' url' e hsays' herror =>
    obtain ⟨rfl, rfl⟩ := hsays.unique hsays'
    exact absurd (hr.symm.trans herror) (by simp)
  | unsupported ps' url' config' hsays' hr' hnot =>
    obtain ⟨rfl, rfl⟩ := hsays.unique hsays'
    obtain rfl := Except.ok.inj (hr.symm.trans hr')
    exact hnot _ hpath

/-- **An argument is refused exactly when something is wrong with it.** -/
theorem exists_error_iff : (∃ e, arg.resolve env = .error e) ↔ arg.Invalid env := by
  constructor
  · rintro ⟨e, he⟩
    refine (resolves_or_invalid arg env).resolve_left ?_
    rintro ⟨resolved, hok⟩
    exact absurd (he.symm.trans hok) (by simp)
  · intro hbad
    cases h : arg.resolve env with
    | error e => exact ⟨e, rfl⟩
    | ok resolved => exact absurd h hbad.not_resolves

end ConfigArg

end RangeFetch
