/-!
# Blanks

The 25 blank characters (the property `White_Space`) and the text between the outer blanks.

`from_params_with_env` trims the text of a number so.

Headlines:
* **`trim`** drops the blanks at both ends; `trim_eq_self_iff`: it keeps a text exactly when
  neither end of the text is blank.
-/

namespace RangeFetch.Text

/-- The blank characters as closed ranges of code points. -/
def blanks : List (Nat × Nat) := [
    (0x09, 0x0D), (0x20, 0x20), (0x85, 0x85), (0xA0, 0xA0), (0x1680, 0x1680), (0x2000, 0x200A),
    (0x2028, 0x2029), (0x202F, 0x202F), (0x205F, 0x205F), (0x3000, 0x3000)
  ]

/-- Whether `c` is blank. -/
def isBlank (c : Char) : Bool :=
  blanks.any fun r => r.1 ≤ c.toNat && c.toNat ≤ r.2

/-- The text without the blanks at its end. -/
def trimEnd (cs : List Char) : List Char :=
  (cs.reverse.dropWhile isBlank).reverse

/-- The text between the outer blanks. -/
def trim (cs : List Char) : List Char :=
  trimEnd (cs.dropWhile isBlank)

/-- No blank at this end of a text; the empty text has no ends. -/
def Solid (c : Option Char) : Prop :=
  ∀ x, c = some x → isBlank x = false

theorem dropWhile_blank_eq_self_iff (cs : List Char) :
    cs.dropWhile isBlank = cs ↔ Solid cs.head? := by
  cases cs with
  | nil => simp [Solid]
  | cons c cs =>
    by_cases h : isBlank c
    · simp only [List.dropWhile_cons_of_pos h, List.head?_cons, Solid]
      refine ⟨fun e => ?_, fun e => absurd h (by simp [e c rfl])⟩
      have := (List.dropWhile_sublist isBlank (l := cs)).length_le
      rw [e, List.length_cons] at this
      omega
    · simp only [List.dropWhile_cons_of_neg h, List.head?_cons, Solid, true_iff]
      rintro x ⟨rfl⟩
      simpa using h

theorem trimEnd_eq_self_iff (cs : List Char) : trimEnd cs = cs ↔ Solid cs.getLast? := by
  rw [trimEnd, ← List.head?_reverse, ← dropWhile_blank_eq_self_iff, List.reverse_eq_iff]

theorem trim_eq_self_iff (cs : List Char) :
    trim cs = cs ↔ Solid cs.head? ∧ Solid cs.getLast? := by
  constructor
  · intro h
    have hd : cs.dropWhile isBlank = cs := by
      have hs : (trim cs).length ≤ (cs.dropWhile isBlank).length := by
        simpa [trim, trimEnd] using
          (List.dropWhile_sublist isBlank (l := (cs.dropWhile isBlank).reverse)).length_le
      exact (List.dropWhile_suffix isBlank).eq_of_length
        (Nat.le_antisymm (List.dropWhile_sublist isBlank).length_le (by rwa [h] at hs))
    refine ⟨(dropWhile_blank_eq_self_iff cs).mp hd, (trimEnd_eq_self_iff cs).mp ?_⟩
    rw [trim, hd] at h
    exact h
  · rintro ⟨h, h'⟩
    rw [trim, (dropWhile_blank_eq_self_iff cs).mpr h, (trimEnd_eq_self_iff cs).mpr h']

end RangeFetch.Text
