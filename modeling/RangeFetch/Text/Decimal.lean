/-!
# Decimal numbers

Numbers as runs of the digits `0` to `9`, and 64-bit words written so. A word may have one plus
sign in front; leading zeros are allowed, a number of 2^64 or more is not.

So `from_params_with_env` reads `max_concurrency`, and so numbers are printed.

Headlines:
* **`natural?_digits`**: what `digits` writes is read back.
* **`word?_eq_some_iff`**: the texts that `word?` reads.
-/

namespace RangeFetch.Text

/-- The decimal digits of `n`, the highest first and without leading zeros. -/
def digits (n : Nat) : List Char :=
  Nat.toDigits 10 n

/-- The number that one or more digits denote. -/
def natural? (cs : List Char) : Option Nat :=
  if cs ≠ [] ∧ cs.all Char.isDigit then some (Nat.ofDigitChars 10 cs 0) else none

/-- A text without the plus sign in front of it, if there is one. -/
def unsigned : List Char → List Char
  | '+' :: cs => cs
  | cs => cs

/-- The 64-bit word that an optional plus sign and decimal digits denote. -/
def word? (cs : List Char) : Option UInt64 :=
  (natural? (unsigned cs)).bind fun n =>
    if h : n < UInt64.size then some (UInt64.ofNatLT n h) else none

theorem natural?_digits (n : Nat) : natural? (digits n) = some n := by
  have h : digits n ≠ [] ∧ (digits n).all Char.isDigit := by
    refine ⟨Nat.toDigits_ne_nil, List.all_eq_true.mpr fun c hc => ?_⟩
    exact Nat.isDigit_of_mem_toDigits (by decide) (by decide) hc
  rw [natural?, if_pos h, digits, Nat.ofDigitChars_toDigits (by decide) (by decide)]

theorem digits_injective {m n : Nat} (h : digits m = digits n) : m = n := by
  simpa [natural?_digits] using congrArg natural? h

theorem word?_eq_some_iff {cs : List Char} {w : UInt64} :
    word? cs = some w ↔ natural? (unsigned cs) = some w.toNat := by
  rw [word?]
  cases natural? (unsigned cs) with
  | none => simp
  | some n =>
    by_cases h : n < UInt64.size
    · simp only [Option.bind_some, dif_pos h, Option.some.injEq]
      exact ⟨fun e => by rw [← e, UInt64.toNat_ofNatLT],
        fun e => UInt64.toNat_inj.mp (by simpa using e)⟩
    · simp only [Option.bind_some, dif_neg h, reduceCtorEq, Option.some.injEq, false_iff]
      rintro rfl
      exact h w.toNat_lt

end RangeFetch.Text
