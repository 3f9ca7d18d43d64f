import RangeFetch.Proofs.Creation
import RangeFetch.Proofs.Precedence

/-!
# Configurations and the limiter

A configuration may ask for any number of transfers but zero that a 64-bit word holds, while a
limiter counts permits up to `maxPermits` only. A configuration in between is resolved, and no
session can be started with it: the creation breaks, and its caller is not told that a parameter is
wrong.

Headlines:
* **`Config.exists_accepted`**: every number of transfers but zero is accepted.
* **`Config.served`**: what becomes of a configuration that was resolved.
-/

namespace RangeFetch.Config

open Boundary (Event observed)

variable {ps : List (String × String)} {url : Option String} {size : UInt64} {env : Environment}
  {config : Config}

/-- **Every number of transfers but zero is accepted.** -/
theorem exists_accepted (url : Option String) (env : Environment) (hsize : size ≠ 0) {n : UInt64}
    (hn : n ≠ 0) : ∃ ps config, resolve ps url size env = .ok config ∧
      config.maxConcurrency = n := by
  obtain ⟨hne, hdigits, hworth⟩ :=
    Text.natural?_eq_some_iff.mp (Text.natural?_digits n.toNat)
  have hsays : Text.Says (String.ofList (Text.digits n.toNat)) n.toNat :=
    ⟨[], [], Text.digits n.toNat, [], by simp, by simp, by simp, .inl rfl, hne, hdigits, hworth⟩
  have hasked : AsksFor [(concurrencyKey, String.ofList (Text.digits n.toNat))] n :=
    .last [] _ rfl (by simp) hsays
  obtain ⟨config, hr, -, hmax, -⟩ := exists_resolve url env hsize hn hasked
  exact ⟨_, config, hr, hmax⟩

/-- What becomes of the configuration that the texts are resolved to. -/
structure Served (ps : List (String × String)) (url : Option String) (size : UInt64)
    (env : Environment) (config : Config) : Prop where
  /-- It has the number of transfers that the parameters ask for. -/
  asked : AsksFor ps config.maxConcurrency
  /-- With other parameters it could have had any other number but zero. -/
  free : ∀ n : UInt64, n ≠ 0 → ∃ ps' config', resolve ps' url size env = .ok config' ∧
    config'.maxConcurrency = n
  /-- A session has as many permits, if a limiter can count them. -/
  session : Session.start config =
    if config.maxConcurrency.toNat ≤ maxPermits then
      .ok { config, permits := { available := config.maxConcurrency.toNat } }
    else .error .tooManyPermits
  /-- So it is with the client of an open backend. -/
  client : ∀ {τ : Type} (r : Registry τ) (b : Nat) (transfer : τ), r.isOpen b = true →
    (r.create b config transfer).2 =
      if config.maxConcurrency.toNat ≤ maxPermits then .ok r.nextId
      else .error (.broken .tooManyPermits)
  /-- A caller that passed the texts and a local endpoint has a client, or is told that something
  unknown is wrong; it is not told that a parameter is. -/
  told : ∀ (x : Boundary) (b : Nat) (arg : ConfigArg) (path : String),
    x.registry.isOpen b = true → arg.Says ps url → arg.chunkSize = size →
      Locates config.credentials.endpoint path →
        (x.createClient (some b) (some arg) true env).2.1 =
          if config.maxConcurrency.toNat ≤ maxPermits then .success else .unknown

/-- **What becomes of a configuration**: it can be used if a limiter can count its transfers. -/
theorem served (hr : resolve ps url size env = .ok config) : Served ps url size env config := by
  obtain _ | _ | _ | ⟨_, hchunk, hasked, _⟩ := resolve_iff.mp hr
  refine ⟨hasked, ?_, History.start_eq_ite config, ?_, ?_⟩
  · intro n hn
    exact exists_accepted url env (hchunk ▸ config.chunkSize_ne_zero) hn
  · intro τ r b transfer hopen
    rw [Registry.create, if_pos hopen, History.start_eq_ite]
    by_cases hmax : config.maxConcurrency.toNat ≤ maxPermits
    · simp only [if_pos hmax]
    · simp only [if_neg hmax]
  · intro x b arg path hopen hsays hsize hpath
    have hasks : Boundary.Asks (some b) (some arg) true env b config
        ⟨path.toList, isAbsolute_toList_iff.mpr hpath.absolute⟩ := by
      refine ⟨rfl, rfl, ⟨arg, ps, url, rfl, hsays, hsize ▸ hr⟩, ?_⟩
      rwa [String.ofList_toList]
    rw [Boundary.createClient_of_asks x hasks, if_pos hopen]
    split <;> rfl

/-- The largest number of permits that a limiter can count is one that can be used. -/
theorem served_of_all_permits :
    ∃ ps config, resolve ps (some "/srv") 4 (fun _ => none) = .ok config ∧
      config.maxConcurrency.toNat = maxPermits ∧
      Served ps (some "/srv") 4 (fun _ => none) config := by
  have hr : resolve [("max_concurrency", "2305843009213693951")] (some "/srv") 4 (fun _ => none) =
      .ok ⟨{ endpoint := some "/srv" }, 4, 2305843009213693951, by decide, by decide⟩ := by
    rfl
  exact ⟨_, _, hr, rfl, served hr⟩

/-- One permit more is accepted all the same. No session can be started with it, and the caller of a
creation is told that something unknown is wrong. -/
theorem broken_by_one_more :
    ∃ config, resolve [("max_concurrency", "2305843009213693952")] (some "/srv") 4 (fun _ => none) =
        .ok config ∧ config.maxConcurrency.toNat = maxPermits + 1 ∧
      Session.start config = .error .tooManyPermits ∧
      ∃ arg : ConfigArg, arg.Says [("max_concurrency", "2305843009213693952")] (some "/srv") ∧
        ((observed {} [.openBackend true]).1.createClient (some 0) (some arg) true
          fun _ => none).2 = (.unknown, none) := by
  let bytes (text : String) : List UInt8 := text.toUTF8.data.toList
  have hspells (text : String) (h : ∀ b ∈ bytes text, b ≠ 0) : Spells (some (bytes text)) text :=
    ⟨bytes text, rfl, (List.takeWhile_eq_self_iff.mpr fun b hb => bne_iff_ne.mpr (h b hb)).symm⟩
  refine ⟨⟨{ endpoint := some "/srv" }, 4, 2305843009213693952, by decide, by decide⟩, rfl, rfl,
    rfl, ?_⟩
  let arg : ConfigArg := {
    parameters := .entries [⟨some (bytes "max_concurrency"), some (bytes "2305843009213693952")⟩]
    endpointUrl := some (bytes "/srv")
    chunkSize := 4 }
  have hsays : arg.Says [("max_concurrency", "2305843009213693952")] (some "/srv") := by
    refine ⟨.entries (.cons ⟨hspells _ ?_, hspells _ ?_⟩ .nil), .text (hspells _ ?_)⟩
    all_goals decide +kernel
  exact ⟨arg, hsays, by decide +kernel⟩

end RangeFetch.Config
