import Mathlib.Data.List.Induction
import Mathlib.Data.List.TakeWhile
import Mathlib.Data.Nat.Digits.Defs
import Mathlib.Logic.Function.Basic
import RangeFetch.Config.Resolve

/-!
# What counts in a configuration

A configuration is read from its parameters one after the other, and what is missing is filled in
afterwards. The rules speak of each setting by itself: the last of its parameters counts, then the
environment, and an endpoint given on its own counts before both. `Resolves` states them through the
values that the parameters of one key have, in order; nothing else of the list matters.

Headlines:
* **`Text.word?_trim_eq_some_iff`**: the texts that say a number of transfers.
* **`Draft.params_of_words`** and **`Draft.params_of_invalid`**: what a list of parameters comes to.
* **`Config.resolve_iff`**: resolving gives what the rules say, and nothing else.
* **`Config.precedence`**: the rules, and what can be changed without changing the result.
-/

namespace RangeFetch

/-! ## Numbers -/

namespace Text

/-- What decimal digits are worth, by the weight of their places. -/
def worth (digits : List Char) : Nat :=
  Nat.ofDigits 10 (digits.reverse.map fun c => c.toNat - '0'.toNat)

/-- The text says the number `n`: in decimal digits, behind a plus sign or none, and with nothing
but blanks around it. -/
def Says (text : String) (n : Nat) : Prop :=
  ∃ front sign digits back : List Char, text.toList = front ++ (sign ++ digits) ++ back ∧
    (∀ c ∈ front, isBlank c = true) ∧ (∀ c ∈ back, isBlank c = true) ∧
    (sign = [] ∨ sign = ['+']) ∧ digits ≠ [] ∧ (∀ c ∈ digits, c.isDigit = true) ∧ worth digits = n

/-- The text says a number that a 64-bit word holds. -/
def SaysWord (text : String) : Prop :=
  ∃ w : UInt64, Says text w.toNat

theorem ofDigitChars_eq_worth (cs : List Char) : Nat.ofDigitChars 10 cs 0 = worth cs := by
  induction cs using List.reverseRecOn with
  | nil => rfl
  | append_singleton cs c ih =>
    unfold worth at ih ⊢
    rw [List.reverse_append, List.reverse_singleton, List.singleton_append, List.map_cons,
      Nat.ofDigits_cons, ← ih]
    unfold Nat.ofDigitChars
    rw [List.foldl_append, List.foldl_cons, List.foldl_nil, Nat.add_comm]

theorem natural?_eq_some_iff {cs : List Char} {n : Nat} :
    natural? cs = some n ↔ cs ≠ [] ∧ (∀ c ∈ cs, c.isDigit = true) ∧ worth cs = n := by
  unfold natural?
  rw [ofDigitChars_eq_worth]
  split
  · rename_i h
    rw [Option.some.injEq]
    exact ⟨fun hn => ⟨h.1, List.all_eq_true.mp h.2, hn⟩, fun hn => hn.2.2⟩
  · rename_i h
    simp only [reduceCtorEq, false_iff]
    exact fun hn => h ⟨hn.1, List.all_eq_true.mpr hn.2.1⟩

/-- Trimming takes blanks off both ends. -/
theorem exists_trim (cs : List Char) : ∃ front back, cs = front ++ trim cs ++ back ∧
    (∀ c ∈ front, isBlank c = true) ∧ ∀ c ∈ back, isBlank c = true := by
  let rest := cs.dropWhile isBlank
  refine ⟨cs.takeWhile isBlank, (rest.reverse.takeWhile isBlank).reverse, ?_, ?_, ?_⟩
  · have hrest : trim cs ++ (rest.reverse.takeWhile isBlank).reverse = rest := by
      unfold trim trimEnd
      rw [← List.reverse_append, List.takeWhile_append_dropWhile, List.reverse_reverse]
    rw [List.append_assoc, hrest, List.takeWhile_append_dropWhile]
  · exact fun c hc => List.mem_takeWhile_imp hc
  · exact fun c hc => List.mem_takeWhile_imp (List.mem_reverse.mp hc)

/-- Of a text between blanks, trimming leaves the text. -/
theorem trim_between {front core back : List Char} (hfront : ∀ c ∈ front, isBlank c = true)
    (hback : ∀ c ∈ back, isBlank c = true) (hcore : core ≠ [])
    (hsolid : ∀ c ∈ core, isBlank c = false) : trim (front ++ core ++ back) = core := by
  have hhead : Solid (core ++ back).head? := by
    intro c hc
    rw [List.head?_append, List.head?_eq_some_head hcore] at hc
    exact hsolid c (Option.some.inj hc ▸ List.head_mem hcore)
  have hlast : Solid core.getLast? := fun c hc => hsolid c (List.mem_of_getLast? hc)
  unfold trim trimEnd
  rw [List.append_assoc, List.dropWhile_append_of_pos hfront,
    (dropWhile_blank_eq_self_iff _).mpr hhead, List.reverse_append,
    List.dropWhile_append_of_pos fun c hc => hback c (List.mem_reverse.mp hc)]
  exact (trimEnd_eq_self_iff core).mpr hlast

theorem isBlank_of_isDigit {c : Char} (h : c.isDigit = true) : isBlank c = false := by
  obtain ⟨hlow, hhigh⟩ : 48 ≤ c.toNat ∧ c.toNat ≤ 57 := by
    simpa [Char.isDigit, UInt32.le_iff_toNat_le] using h
  simp only [isBlank, blanks, List.any_cons, List.any_nil, Bool.or_false, Bool.or_eq_false_iff,
    Bool.and_eq_false_imp, decide_eq_true_eq, decide_eq_false_iff_not]
  omega

theorem unsigned_of_digits {digits : List Char} (h : ∀ c ∈ digits, c.isDigit = true) :
    unsigned digits = digits := by
  unfold unsigned
  split
  · exact absurd (h '+' List.mem_cons_self) (by decide)
  · rfl

/-- What is without its sign has a plus sign, or none. -/
theorem exists_sign (cs : List Char) :
    ∃ sign, cs = sign ++ unsigned cs ∧ (sign = [] ∨ sign = ['+']) := by
  unfold unsigned
  split
  · exact ⟨['+'], rfl, .inr rfl⟩
  · exact ⟨[], rfl, .inl rfl⟩

/-- **The texts that a word is read from.** -/
theorem word?_trim_eq_some_iff {text : String} {w : UInt64} :
    word? (trim text.toList) = some w ↔ Says text w.toNat := by
  rw [word?_eq_some_iff, natural?_eq_some_iff]
  constructor
  · rintro ⟨hne, hdigits, hworth⟩
    obtain ⟨front, back, htext, hfront, hback⟩ := exists_trim text.toList
    obtain ⟨sign, hsign, hs⟩ := exists_sign (trim text.toList)
    refine ⟨front, sign, unsigned (trim text.toList), back, ?_, hfront, hback, hs, hne, hdigits,
      hworth⟩
    rw [← hsign]
    exact htext
  · rintro ⟨front, sign, digits, back, htext, hfront, hback, hs, hne, hdigits, hworth⟩
    have hsolid : ∀ c ∈ sign ++ digits, isBlank c = false := by
      intro c hc
      rcases List.mem_append.mp hc with hc | hc
      · rcases hs with rfl | rfl
        · exact absurd hc List.not_mem_nil
        · rw [List.mem_singleton.mp hc]
          decide
      · exact isBlank_of_isDigit (hdigits c hc)
    rw [htext, trim_between hfront hback (List.append_ne_nil_of_right_ne_nil sign hne) hsolid]
    have hunsigned : unsigned (sign ++ digits) = digits := by
      rcases hs with rfl | rfl
      · exact unsigned_of_digits hdigits
      · rfl
    rw [hunsigned]
    exact ⟨hne, hdigits, hworth⟩

/-- A text that says no word is not read. -/
theorem word?_trim_eq_none_iff {text : String} :
    word? (trim text.toList) = none ↔ ¬ SaysWord text := by
  rw [Option.eq_none_iff_forall_ne_some]
  simp only [ne_eq, word?_trim_eq_some_iff, SaysWord, not_exists]

end Text

/-! ## The rules -/

/-- The values of the parameters with one key, in order. -/
def valuesOf (key : String) (ps : List (String × String)) : List String :=
  (ps.filter (·.1 = key)).map (·.2)

/-- Where the text of a credential comes from. -/
inductive Source (ps : List (String × String)) (url : Option String) (env : Environment)
    (c : Credential) : Option String → Prop where
  /-- The endpoint that is given on its own counts first. -/
  | url (text : String) (hc : c = .endpoint) (h : url = some text) : Source ps url env c (some text)
  /-- Then the last parameter of its key. -/
  | parameter (before : List String) (value : String) (hurl : c = .endpoint → url = none)
    (h : valuesOf c.key ps = before ++ [value]) : Source ps url env c (some value)
  /-- Then its variable, if there is one. -/
  | environment (hurl : c = .endpoint → url = none) (h : valuesOf c.key ps = []) :
    Source ps url env c (env c.variableName)

/-- The parameters ask for `n` transfers. -/
inductive AsksFor (ps : List (String × String)) (n : UInt64) : Prop where
  | nothing (h : valuesOf concurrencyKey ps = []) (hn : n = 8)
  /-- The last value counts, but all must be numbers. -/
  | last (before : List String) (value : String)
    (h : valuesOf concurrencyKey ps = before ++ [value]) (hbefore : ∀ v ∈ before, Text.SaysWord v)
    (hvalue : Text.Says value n.toNat)

/-- What resolving a configuration gives. -/
inductive Resolves (ps : List (String × String)) (url : Option String) (size : UInt64)
    (env : Environment) : Except ConfigError Config → Prop where
  | zeroChunkSize (hsize : size = 0) : Resolves ps url size env (.error .zeroChunkSize)
  /-- The first value that is no number is reported as it is. -/
  | invalidValue (before : List String) (value : String) (behind : List String) (hsize : size ≠ 0)
    (h : valuesOf concurrencyKey ps = before ++ value :: behind)
    (hbefore : ∀ v ∈ before, Text.SaysWord v) (hvalue : ¬ Text.SaysWord value) :
    Resolves ps url size env (.error (.invalidValue concurrencyKey value))
  | zeroConcurrency (hsize : size ≠ 0) (h : AsksFor ps 0) :
    Resolves ps url size env (.error .zeroConcurrency)
  | resolved (config : Config) (hsize : config.chunkSize = size)
    (hmax : AsksFor ps config.maxConcurrency)
    (hcredentials : ∀ c, Source ps url env c (config.credentials.get c)) :
    Resolves ps url size env (.ok config)

/-! ## What parameters come to -/

section Parameters

variable {ps qs : List (String × String)} {key value : String}

@[simp] theorem valuesOf_nil : valuesOf key [] = [] := rfl

@[simp] theorem valuesOf_append : valuesOf key (ps ++ qs) = valuesOf key ps ++ valuesOf key qs := by
  simp [valuesOf]

theorem valuesOf_cons_self : valuesOf key ((key, value) :: ps) = value :: valuesOf key ps := by
  simp [valuesOf]

theorem valuesOf_cons_of_ne {p : String × String} (h : p.1 ≠ key) :
    valuesOf key (p :: ps) = valuesOf key ps := by
  simp [valuesOf, h]

theorem mem_valuesOf : value ∈ valuesOf key ps ↔ (key, value) ∈ ps := by
  simp [valuesOf]

theorem valuesOf_eq_nil_iff : valuesOf key ps = [] ↔ ∀ p ∈ ps, p.1 ≠ key := by
  simp [valuesOf]

theorem valuesOf_insert_self {front back : List (String × String)} (h : ∀ p ∈ back, p.1 ≠ key) :
    valuesOf key (front ++ (key, value) :: back) = valuesOf key front ++ [value] := by
  rw [valuesOf_append, valuesOf_cons_self, valuesOf_eq_nil_iff.mpr h]

/-- A parameter with another key does not show. -/
theorem valuesOf_insert_of_ne {front back : List (String × String)} {k : String} (h : k ≠ key) :
    valuesOf key (front ++ (k, value) :: back) = valuesOf key (front ++ back) := by
  rw [valuesOf_append, valuesOf_append, valuesOf_cons_of_ne h]

theorem valuesOf_swap {front back : List (String × String)} {p q : String × String} (h : p.1 ≠ q.1)
    (key : String) :
    valuesOf key (front ++ p :: q :: back) = valuesOf key (front ++ q :: p :: back) := by
  rw [valuesOf_append, valuesOf_append]
  congr 1
  by_cases hp : p.1 = key
  · have hq : q.1 ≠ key := fun hq => h (hp.trans hq.symm)
    simp [valuesOf, hp, hq]
  · simp [valuesOf, List.filter_cons, hp]

end Parameters

/-- No credential has the key of the number of transfers. -/
theorem Credential.key_ne_concurrencyKey (c : Credential) : c.key ≠ concurrencyKey := by
  cases c <;> decide

theorem Credential.key_injective {c d : Credential} (h : c.key = d.key) : c = d := by
  have hd := Credential.ofKey?_key d
  rw [← h, Credential.ofKey?_key c] at hd
  exact Option.some.inj hd

theorem Credential.variableName_injective {c d : Credential}
    (h : c.variableName = d.variableName) : c = d := by
  revert h
  cases c <;> cases d <;> decide

namespace Draft

variable {d d' d'' : Draft} {ps : List (String × String)}

/-- `d'` is `d` after some parameters, of which `last` says the last value of a key. -/
structure Becomes (d : Draft) (last : String → Option String) (d' : Draft) : Prop where
  credential : ∀ c, d'.credentials.get c = (last (Credential.key c)).or (d.credentials.get c)
  unasked : last concurrencyKey = none → d'.maxConcurrency = d.maxConcurrency
  asked : ∀ v, last concurrencyKey = some v → Text.Says v d'.maxConcurrency.toNat

theorem Becomes.trans {last last' : String → Option String} (h : d.Becomes last d')
    (h' : d'.Becomes last' d'') : d.Becomes (fun key => (last' key).or (last key)) d'' := by
  refine ⟨fun c => ?_, fun hnone => ?_, fun v hv => ?_⟩
  · rw [h'.credential, h.credential, Option.or_assoc]
  · obtain ⟨hlast', hlast⟩ := Option.or_eq_none_iff.mp hnone
    rw [h'.unasked hlast', h.unasked hlast]
  · rcases Option.or_eq_some_iff.mp hv with hv | ⟨hlast', hv⟩
    · exact h'.asked v hv
    · rw [h'.unasked hlast']
      exact h.asked v hv

/-- What one parameter does, if it is no number that cannot be read. -/
theorem exists_param (d : Draft) (key value : String)
    (h : key = concurrencyKey → Text.SaysWord value) :
    ∃ d', d.param key value = .ok d' ∧
      d.Becomes (fun k => if key = k then some value else none) d' := by
  cases hkey : Credential.ofKey? key with
  | some c =>
    obtain rfl := Credential.key_of_ofKey? hkey
    refine ⟨{ d with credentials := d.credentials.set c (some value) }, ?_, fun c' => ?_,
      fun _ => rfl, fun v hv => ?_⟩
    · rw [param, hkey]
    · rw [Credentials.get_set]
      by_cases hc : c' = c
      · rw [if_pos hc, if_pos (by rw [hc])]
        rfl
      · rw [if_neg hc, if_neg fun h => hc (Credential.key_injective h).symm]
        rfl
    · rw [if_neg c.key_ne_concurrencyKey] at hv
      exact absurd hv (by simp)
  | none =>
    have hcredential : ∀ c : Credential, key ≠ c.key := by
      rintro c rfl
      rw [Credential.ofKey?_key] at hkey
      exact absurd hkey (by simp)
    by_cases hc : key = concurrencyKey
    · obtain ⟨n, hn⟩ := h hc
      refine ⟨{ d with maxConcurrency := n }, ?_, fun c => ?_, fun hnone => ?_, fun v hv => ?_⟩
      · rw [param, hkey]
        simp only [if_pos hc, Text.word?_trim_eq_some_iff.mpr hn]
      · rw [if_neg (hcredential c)]
        rfl
      · rw [if_pos hc] at hnone
        exact absurd hnone (by simp)
      · rw [if_pos hc] at hv
        exact Option.some.inj hv ▸ hn
    · refine ⟨d, param_unknown d value hkey hc, fun c => ?_, fun _ => rfl, fun v hv => ?_⟩
      · rw [if_neg (hcredential c)]
        rfl
      · rw [if_neg hc] at hv
        exact absurd hv (by simp)

/-- A number that cannot be read is reported as it is. -/
theorem param_invalid (d : Draft) {value : String} (h : ¬ Text.SaysWord value) :
    d.param concurrencyKey value = .error (.invalidValue concurrencyKey value) := by
  have hkey : Credential.ofKey? concurrencyKey = none := by decide
  rw [param, hkey]
  simp only [if_true, Text.word?_trim_eq_none_iff.mpr h]

/-- **Parameters whose numbers can all be read** are taken in, the last value of each key. -/
theorem params_of_words (d : Draft) (h : ∀ v ∈ valuesOf concurrencyKey ps, Text.SaysWord v) :
    ∃ d', d.params ps = .ok d' ∧ d.Becomes (fun key => (valuesOf key ps).getLast?) d' := by
  induction ps generalizing d with
  | nil => exact ⟨d, rfl, fun _ => rfl, fun _ => rfl, fun v hv => absurd hv (by simp)⟩
  | cons p ps ih =>
    obtain ⟨key, value⟩ := p
    have hfirst : key = concurrencyKey → Text.SaysWord value :=
      fun hkey => h value (mem_valuesOf.mpr (hkey ▸ List.mem_cons_self))
    have hrest : ∀ v ∈ valuesOf concurrencyKey ps, Text.SaysWord v :=
      fun v hv => h v (mem_valuesOf.mpr (List.mem_cons_of_mem _ (mem_valuesOf.mp hv)))
    obtain ⟨d', hd', hb⟩ := d.exists_param key value hfirst
    obtain ⟨d'', hd'', hb'⟩ := ih d' hrest
    refine ⟨d'', ?_, ?_⟩
    · simp only [params, hd', hd'']
    · have hlast : (fun k => (valuesOf k ((key, value) :: ps)).getLast?) =
          fun k => ((valuesOf k ps).getLast?).or (if key = k then some value else none) := by
        funext k
        rw [← List.singleton_append, valuesOf_append, List.getLast?_append]
        by_cases hk : key = k
        · subst hk
          rw [if_pos rfl, valuesOf_cons_self]
          rfl
        · rw [if_neg hk, valuesOf_cons_of_ne hk]
          rfl
      rw [hlast]
      exact hb.trans hb'

/-- **The first number that cannot be read** is the error. -/
theorem params_of_invalid (d : Draft) {before behind : List String} {value : String}
    (hps : valuesOf concurrencyKey ps = before ++ value :: behind)
    (hbefore : ∀ v ∈ before, Text.SaysWord v) (hvalue : ¬ Text.SaysWord value) :
    d.params ps = .error (.invalidValue concurrencyKey value) := by
  induction ps generalizing d before with
  | nil => exact absurd hps (by simp)
  | cons p ps ih =>
    obtain ⟨key, first⟩ := p
    by_cases hkey : key = concurrencyKey
    · subst hkey
      rw [valuesOf_cons_self] at hps
      cases before with
      | nil =>
        obtain ⟨rfl, -⟩ := List.cons.inj hps
        simp only [params, d.param_invalid hvalue]
      | cons b before =>
        obtain ⟨rfl, hrest⟩ := List.cons.inj hps
        obtain ⟨d', hd', -⟩ := d.exists_param concurrencyKey first
          fun _ => hbefore first List.mem_cons_self
        simp only [params, hd']
        exact ih d' hrest fun v hv => hbefore v (List.mem_cons_of_mem _ hv)
    · rw [valuesOf_cons_of_ne hkey] at hps
      obtain ⟨d', hd', -⟩ := d.exists_param key first fun h => absurd h hkey
      simp only [params, hd']
      exact ih d' hps hbefore

theorem get_fallback (env : Environment) (cs : Credentials) (c c' : Credential) :
    (fallback env cs c).get c' =
      if c' = c then (cs.get c).or (env c.variableName) else cs.get c' := by
  unfold fallback
  cases hc : cs.get c with
  | some text =>
    by_cases h : c' = c
    · subst h
      simp [hc]
    · simp [h]
  | none => simp [Credentials.get_set]

/-- What is missing is taken from the environment. -/
theorem get_fill (env : Environment) (cs : Credentials) (c : Credential) :
    (fill env cs).get c = (cs.get c).or (env c.variableName) := by
  have hfold : ∀ (cs : Credentials) (list : List Credential), (list.foldl (fallback env) cs).get c =
      if c ∈ list then (cs.get c).or (env c.variableName) else cs.get c := by
    intro cs list
    induction list generalizing cs with
    | nil => rfl
    | cons c' list ih =>
      rw [List.foldl_cons, ih, get_fallback]
      by_cases hc : c = c'
      · subst hc
        simp [Option.or_assoc]
      · simp [hc]
  rw [fill, hfold, if_pos (Credential.mem_all c)]

end Draft

/-! ## The configuration -/

section Rules

variable {ps qs : List (String × String)} {url url' : Option String} {size n : UInt64}
  {env env' : Environment} {c : Credential} {x y : Option String} {d : Draft}
  {r : Except ConfigError Config}

/-- Only one text takes precedence. -/
theorem Source.unique (hx : Source ps url env c x) (hy : Source ps url env c y) : x = y := by
  cases hx with
  | url text hc h =>
    cases hy with
    | url text' _ h' => exact h.symm.trans h'
    | parameter _ _ hurl _ => exact absurd (h.symm.trans (hurl hc)) (by simp)
    | environment hurl _ => exact absurd (h.symm.trans (hurl hc)) (by simp)
  | parameter before value hurl h =>
    cases hy with
    | url _ hc h' => exact absurd (h'.symm.trans (hurl hc)) (by simp)
    | parameter before' value' _ h' =>
      obtain ⟨-, hv⟩ := List.append_inj' (h.symm.trans h') rfl
      rw [(List.cons.inj hv).1]
    | environment _ h' => exact absurd (h.symm.trans h') (by simp)
  | environment hurl h =>
    cases hy with
    | url _ hc h' => exact absurd (h'.symm.trans (hurl hc)) (by simp)
    | parameter _ _ _ h' => exact absurd (h.symm.trans h') (by simp)
    | environment _ _ => rfl

theorem AsksFor.words (h : AsksFor ps n) : ∀ v ∈ valuesOf concurrencyKey ps, Text.SaysWord v := by
  cases h with
  | nothing h _ => simp [h]
  | last before value h hbefore hvalue =>
    rw [h]
    intro v hv
    rcases List.mem_append.mp hv with hv | hv
    · exact hbefore v hv
    · exact ⟨n, List.mem_singleton.mp hv ▸ hvalue⟩

/-- The number that a draft has is asked for. -/
theorem asksFor_of_becomes (h : ∀ v ∈ valuesOf concurrencyKey ps, Text.SaysWord v)
    (hd : ({} : Draft).Becomes (fun key => (valuesOf key ps).getLast?) d) :
    AsksFor ps d.maxConcurrency := by
  cases hlast : (valuesOf concurrencyKey ps).getLast? with
  | none => exact .nothing (List.getLast?_eq_none_iff.mp hlast) (hd.unasked hlast)
  | some value =>
    obtain ⟨before, hvalues⟩ := List.getLast?_eq_some_iff.mp hlast
    refine .last before value hvalues (fun v hv => h v ?_) (hd.asked value hlast)
    rw [hvalues]
    exact List.mem_append_left _ hv

/-- Nothing else is asked for. -/
theorem AsksFor.unique {m : UInt64} (hm : AsksFor ps m) (hn : AsksFor ps n) : m = n := by
  cases hm with
  | nothing h hm =>
    cases hn with
    | nothing _ hn => exact hm.trans hn.symm
    | last _ _ h' _ _ => exact absurd (h.symm.trans h') (by simp)
  | last before value h _ hvalue =>
    cases hn with
    | nothing h' _ => exact absurd (h.symm.trans h') (by simp)
    | last before' value' h' _ hvalue' =>
      obtain ⟨-, hv⟩ := List.append_inj' (h.symm.trans h') rfl
      rw [← (List.cons.inj hv).1, ← Text.word?_trim_eq_some_iff] at hvalue'
      rw [← Text.word?_trim_eq_some_iff] at hvalue
      exact Option.some.inj (hvalue.symm.trans hvalue')

/-- The credentials of a draft, with what is missing from the environment and the endpoint that is
given on its own. -/
def Draft.completed (d : Draft) (url : Option String) (env : Environment) : Credentials :=
  match url with
  | some text => (Draft.fill env d.credentials).set .endpoint (some text)
  | none => Draft.fill env d.credentials

/-- The completed credentials are the ones that have precedence. -/
theorem source_of_becomes (hd : ({} : Draft).Becomes (fun key => (valuesOf key ps).getLast?) d)
    (c : Credential) : Source ps url env c ((d.completed url env).get c) := by
  have hempty : ({} : Draft).credentials.get c = none := by
    cases c <;> rfl
  have hfill : (Draft.fill env d.credentials).get c =
      (valuesOf c.key ps).getLast?.or (env c.variableName) := by
    rw [Draft.get_fill, hd.credential, hempty, Option.or_none]
  have hrest : (c = .endpoint → url = none) →
      Source ps url env c ((Draft.fill env d.credentials).get c) := by
    intro hurl
    rw [hfill]
    cases hlast : (valuesOf c.key ps).getLast? with
    | some value =>
      obtain ⟨before, h⟩ := List.getLast?_eq_some_iff.mp hlast
      exact .parameter before value hurl h
    | none => exact .environment hurl (List.getLast?_eq_none_iff.mp hlast)
  cases url with
  | none => exact hrest fun _ => rfl
  | some text =>
    rw [Draft.completed, Credentials.get_set]
    by_cases hc : c = .endpoint
    · rw [if_pos hc]
      exact .url text hc rfl
    · rw [if_neg hc]
      exact hrest fun h => absurd h hc

namespace Config

theorem resolve_of_invalid {before behind : List String} {value : String} (hsize : size ≠ 0)
    (h : valuesOf concurrencyKey ps = before ++ value :: behind)
    (hbefore : ∀ v ∈ before, Text.SaysWord v) (hvalue : ¬ Text.SaysWord value) :
    resolve ps url size env = .error (.invalidValue concurrencyKey value) := by
  rw [resolve, dif_neg hsize]
  simp only [Draft.params_of_invalid {} h hbefore hvalue]

theorem resolve_of_zero (hsize : size ≠ 0) (h : AsksFor ps 0) :
    resolve ps url size env = .error .zeroConcurrency := by
  obtain ⟨d, hd, hb⟩ := Draft.params_of_words {} h.words
  have hzero : d.maxConcurrency = 0 := (asksFor_of_becomes h.words hb).unique h
  rw [resolve, dif_neg hsize]
  simp only [hd, dif_pos hzero]

/-- A configuration comes out when nothing is wrong. -/
theorem exists_resolve (url : Option String) (env : Environment) (hsize : size ≠ 0) (hn : n ≠ 0)
    (h : AsksFor ps n) : ∃ config : Config, resolve ps url size env = .ok config ∧
      config.chunkSize = size ∧ config.maxConcurrency = n ∧
      ∀ c, Source ps url env c (config.credentials.get c) := by
  obtain ⟨d, hd, hb⟩ := Draft.params_of_words {} h.words
  obtain rfl : d.maxConcurrency = n := (asksFor_of_becomes h.words hb).unique h
  refine ⟨⟨d.completed url env, size, d.maxConcurrency, hsize, hn⟩, ?_, rfl, rfl,
    source_of_becomes hb⟩
  rw [resolve, dif_neg hsize]
  simp only [hd, dif_neg hn]
  rfl

/-- Either all numbers can be read, and then one is asked for, or there is a first that cannot. -/
theorem asksFor_or_invalid (ps : List (String × String)) : (∃ n, AsksFor ps n) ∨
    ∃ before value behind, valuesOf concurrencyKey ps = before ++ value :: behind ∧
      (∀ v ∈ before, Text.SaysWord v) ∧ ¬ Text.SaysWord value := by
  classical
  cases hfind : (valuesOf concurrencyKey ps).find? (fun v => ¬ Text.SaysWord v) with
  | none =>
    have hwords : ∀ v ∈ valuesOf concurrencyKey ps, Text.SaysWord v := by
      simpa using hfind
    obtain ⟨d, -, hb⟩ := Draft.params_of_words {} hwords
    exact .inl ⟨_, asksFor_of_becomes hwords hb⟩
  | some value =>
    obtain ⟨hvalue, before, behind, h, hbefore⟩ := List.find?_eq_some_iff_append.mp hfind
    exact .inr ⟨before, value, behind, h, by simpa using hbefore, by simpa using hvalue⟩

/-- **Resolving gives what the rules say**, and nothing else. -/
theorem resolve_iff : resolve ps url size env = r ↔ Resolves ps url size env r := by
  constructor
  · rintro rfl
    by_cases hsize : size = 0
    · rw [resolve, dif_pos hsize]
      exact .zeroChunkSize hsize
    · obtain ⟨n, h⟩ | ⟨before, value, behind, h, hbefore, hvalue⟩ := asksFor_or_invalid ps
      · by_cases hn : n = 0
        · rw [resolve_of_zero hsize (hn ▸ h)]
          exact .zeroConcurrency hsize (hn ▸ h)
        · obtain ⟨config, hr, hs, rfl, hc⟩ := exists_resolve url env hsize hn h
          rw [hr]
          exact .resolved config hs h hc
      · rw [resolve_of_invalid hsize h hbefore hvalue]
        exact .invalidValue before value behind hsize h hbefore hvalue
  · intro h
    cases h with
    | zeroChunkSize hsize => rw [resolve, dif_pos hsize]
    | invalidValue before value behind hsize h hbefore hvalue =>
      exact resolve_of_invalid hsize h hbefore hvalue
    | zeroConcurrency hsize h => exact resolve_of_zero hsize h
    | resolved config hs hmax hc =>
      obtain ⟨config', hr, hs', hmax', hc'⟩ := exists_resolve url env
        (hs ▸ config.chunkSize_ne_zero) config.maxConcurrency_ne_zero hmax
      have hcredentials : config'.credentials = config.credentials :=
        Credentials.ext_get fun c => (hc' c).unique (hc c)
      rw [hr]
      cases config
      cases config'
      simp_all

end Config

/-! ## What does not matter -/

theorem Source.congr (hurl : c = .endpoint → url = url') (h : valuesOf c.key ps = valuesOf c.key qs)
    (henv : env c.variableName = env' c.variableName) (hx : Source ps url env c x) :
    Source qs url' env' c x := by
  cases hx with
  | url text hc htext => exact .url text hc ((hurl hc).symm.trans htext)
  | parameter before value hnone hps =>
    exact .parameter before value (fun hc => (hurl hc).symm.trans (hnone hc)) (h ▸ hps)
  | environment hnone hps =>
    rw [henv]
    exact .environment (fun hc => (hurl hc).symm.trans (hnone hc)) (h ▸ hps)

theorem AsksFor.congr (h : valuesOf concurrencyKey ps = valuesOf concurrencyKey qs)
    (hn : AsksFor ps n) : AsksFor qs n := by
  cases hn with
  | nothing hps hn => exact .nothing (h ▸ hps) hn
  | last before value hps hbefore hvalue => exact .last before value (h ▸ hps) hbefore hvalue

theorem Resolves.congr (h : valuesOf concurrencyKey ps = valuesOf concurrencyKey qs)
    (hc : ∀ c x, Source ps url env c x → Source qs url' env' c x)
    (hr : Resolves ps url size env r) : Resolves qs url' size env' r := by
  cases hr with
  | zeroChunkSize hsize => exact .zeroChunkSize hsize
  | invalidValue before value behind hsize hps hbefore hvalue =>
    exact .invalidValue before value behind hsize (h ▸ hps) hbefore hvalue
  | zeroConcurrency hsize hn => exact .zeroConcurrency hsize (hn.congr h)
  | resolved config hs hmax hcs =>
    exact .resolved config hs (hmax.congr h) fun c => hc c _ (hcs c)

namespace Config

/-- The same numbers in the same order, and the same sources, give the same result. -/
theorem resolve_congr (h : valuesOf concurrencyKey ps = valuesOf concurrencyKey qs)
    (hc : ∀ c x, Source ps url env c x → Source qs url' env' c x) :
    resolve ps url size env = resolve qs url' size env' :=
  (resolve_iff.mpr ((resolve_iff.mp rfl).congr h hc)).symm

/-- Only the values of the known keys matter. -/
theorem resolve_of_valuesOf (h : valuesOf concurrencyKey ps = valuesOf concurrencyKey qs)
    (hc : ∀ c : Credential, valuesOf c.key ps = valuesOf c.key qs) :
    resolve ps url size env = resolve qs url size env :=
  resolve_congr h fun c _ hx => hx.congr (fun _ => rfl) (hc c) rfl

variable {front back : List (String × String)} {key value : String}

theorem resolve_unknown (hconcurrency : key ≠ concurrencyKey)
    (hkey : ∀ c : Credential, key ≠ c.key) :
    resolve (front ++ (key, value) :: back) url size env = resolve (front ++ back) url size env :=
  resolve_of_valuesOf (valuesOf_insert_of_ne hconcurrency) fun c => valuesOf_insert_of_ne (hkey c)

theorem resolve_swap {p q : String × String} (h : p.1 ≠ q.1) :
    resolve (front ++ p :: q :: back) url size env =
      resolve (front ++ q :: p :: back) url size env :=
  resolve_of_valuesOf (valuesOf_swap h _) fun _ => valuesOf_swap h _

/-- Where the last parameter of a credential is taken out, and another text may come in. -/
theorem resolve_exchange (c : Credential) (hback : ∀ p ∈ back, p.1 ≠ c.key)
    (hurl : ∀ c' ≠ c, c' = .endpoint → url = url')
    (henv : ∀ c' ≠ c, env c'.variableName = env' c'.variableName)
    (hx : Source (front ++ (c.key, value) :: back) url env c x)
    (hy : Source (front ++ back) url' env' c x) :
    resolve (front ++ (c.key, value) :: back) url size env =
      resolve (front ++ back) url' size env' := by
  refine resolve_congr (valuesOf_insert_of_ne c.key_ne_concurrencyKey) fun c' y hc' => ?_
  by_cases hc : c' = c
  · subst hc
    rw [hc'.unique hx]
    exact hy
  · have hkey : c.key ≠ c'.key := fun h => hc (Credential.key_injective h).symm
    exact hc'.congr (hurl c' hc) (valuesOf_insert_of_ne hkey) (henv c' hc)

theorem resolve_byVariable (c : Credential) (h : ∀ p ∈ front ++ back, p.1 ≠ c.key) :
    resolve (front ++ (c.key, value) :: back) url size env =
      resolve (front ++ back) url size (Function.update env c.variableName (some value)) := by
  obtain ⟨hfront, hback⟩ := List.forall_mem_append.mp h
  have hvalues : valuesOf c.key (front ++ (c.key, value) :: back) = [] ++ [value] := by
    rw [valuesOf_insert_self hback, valuesOf_eq_nil_iff.mpr hfront]
  have hother : ∀ c' ≠ c, env c'.variableName =
      Function.update env c.variableName (some value) c'.variableName := by
    intro c' hc
    rw [Function.update_of_ne fun hname => hc (Credential.variableName_injective hname)]
  by_cases hurl : c = .endpoint → url = none
  · refine resolve_exchange c hback (fun _ _ _ => rfl) hother (.parameter [] value hurl hvalues) ?_
    have hy : Source (front ++ back) url (Function.update env c.variableName (some value)) c _ :=
      .environment hurl (valuesOf_eq_nil_iff.mpr h)
    rwa [Function.update_self] at hy
  · obtain ⟨hc, htext⟩ := Classical.not_imp.mp hurl
    obtain ⟨text, htext⟩ := Option.ne_none_iff_exists'.mp htext
    exact resolve_exchange c hback (fun _ _ _ => rfl) hother (.url text hc htext)
      (.url text hc htext)

theorem resolve_byUrl (h : ∀ p ∈ back, p.1 ≠ Credential.endpoint.key) :
    resolve (front ++ (Credential.endpoint.key, value) :: back) none size env =
      resolve (front ++ back) (some value) size env :=
  resolve_exchange .endpoint h (fun _ hc h => absurd h hc) (fun _ _ => rfl)
    (.parameter (valuesOf _ front) value (fun _ => rfl) (valuesOf_insert_self h))
    (.url value rfl rfl)

/-- What counts in a configuration, and what does not. -/
structure Precedence (url : Option String) (size : UInt64) (env : Environment) : Prop where
  /-- The rules say what the result is. -/
  rules : ∀ ps r, resolve ps url size env = r ↔ Resolves ps url size env r
  /-- A parameter with an unknown key can be left out. -/
  unknown : ∀ front back key value, key ≠ concurrencyKey → (∀ c : Credential, key ≠ c.key) →
    resolve (front ++ (key, value) :: back) url size env = resolve (front ++ back) url size env
  /-- Neighbours with different keys can change places. -/
  swap : ∀ front back p q, p.1 ≠ q.1 → resolve (front ++ p :: q :: back) url size env =
    resolve (front ++ q :: p :: back) url size env
  /-- A credential with one parameter can be given by its variable instead. -/
  byVariable : ∀ front back (c : Credential) value, (∀ p ∈ front ++ back, p.1 ≠ c.key) →
    resolve (front ++ (c.key, value) :: back) url size env =
      resolve (front ++ back) url size (Function.update env c.variableName (some value))
  /-- The endpoint that counts can be given on its own instead. -/
  byUrl : ∀ front back value, (∀ p ∈ back, p.1 ≠ Credential.endpoint.key) →
    resolve (front ++ (Credential.endpoint.key, value) :: back) none size env =
      resolve (front ++ back) (some value) size env

/-- **What counts in a configuration**: the rules, and nothing else. -/
theorem precedence (url : Option String) (size : UInt64) (env : Environment) :
    Precedence url size env where
  rules _ _ := resolve_iff
  unknown _ _ _ _ hconcurrency hkey := resolve_unknown hconcurrency hkey
  swap _ _ _ _ h := resolve_swap h
  byVariable _ _ c _ h := resolve_byVariable c h
  byUrl _ _ _ h := resolve_byUrl h

/-- Of the numbers of transfers the last counts and the zero does no harm; the empty endpoint on its
own replaces the other one, and the unknown key is passed over. -/
theorem precedence_of_repeats :
    let env : Environment := fun name =>
      if name = "AZURE_STORAGE_SAS_TOKEN" then some "s" else some "e"
    let credentials : Credentials :=
      ⟨some "e", some "b", some "e", some "s", some ""⟩
    Resolves [("max_concurrency", "0"), ("account_name", "a"), ("region", "x"),
        ("account_name", "b"), ("max_concurrency", "\t+07 ")] (some "") 4 env
      (.ok ⟨credentials, 4, 7, by decide, by decide⟩) ∧
    resolve [("account_name", "a"), ("max_concurrency", "0"), ("account_name", "b"),
        ("max_concurrency", "\t+07 ")] (some "") 4 env =
      .ok ⟨credentials, 4, 7, by decide, by decide⟩ := by
  intro env credentials
  have h := precedence (some "") 4 env
  have hr : resolve [("max_concurrency", "0"), ("account_name", "a"), ("region", "x"),
      ("account_name", "b"), ("max_concurrency", "\t+07 ")] (some "") 4 env =
    .ok ⟨credentials, 4, 7, by decide, by decide⟩ := by
    rfl
  refine ⟨(h.rules _ _).mp hr, ?_⟩
  rw [← hr]
  calc resolve [("account_name", "a"), ("max_concurrency", "0"), ("account_name", "b"),
        ("max_concurrency", "\t+07 ")] (some "") 4 env
      = resolve [("max_concurrency", "0"), ("account_name", "a"), ("account_name", "b"),
        ("max_concurrency", "\t+07 ")] (some "") 4 env := h.swap [] _ _ _ (by decide)
    _ = _ := (h.unknown [_, _] [_, _] "region" "x" (by decide) fun c => by cases c <;> decide).symm

end Config

end Rules

end RangeFetch
