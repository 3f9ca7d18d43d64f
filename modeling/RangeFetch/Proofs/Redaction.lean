import Mathlib.Data.List.Basic
import RangeFetch.Config.Summary

/-!
# What the text of a configuration gives away

The text of a configuration is put together from pieces of any length: names, quoted texts, numbers.
Each of them ends by itself: whatever follows, it can be seen where the piece is over, because a
quote in a text never stands alone and a number is followed by what is no digit. So the text falls
apart in one way only, and what it shows can be read off it, while a secret is not in it.

Headlines:
* **`SelfDelimiting`**: a writing that ends by itself; `Text.selfDelimiting_quote`: that of a text
  does, and by `Text.digits_append_inj` that of a number with the mark behind it.
* **`Credentials.summary_append_inj`**: the text of credentials ends by itself, and shows what is
  not secret.
* **`Config.summary_shows`**: two configurations have one text exactly when what is not secret in
  them is the same.
-/

namespace RangeFetch

/-! ## Writings that end by themselves -/

/-- Where two texts agree that begin with something written, the same was written and the rest
agrees. -/
def SelfDelimiting {α : Type} (write : α → List Char) : Prop :=
  ∀ ⦃a b : α⦄ ⦃s t : List Char⦄, write a ++ s = write b ++ t → a = b ∧ s = t

namespace SelfDelimiting

variable {α : Type} {write : α → List Char}

/-- Elements that end by themselves and never begin like the mark behind the last one. -/
theorem flatMap (hw : SelfDelimiting write) {mark : Char}
    (hmark : ∀ a s t, write a ++ s ≠ mark :: t) :
    SelfDelimiting fun as : List α => as.flatMap write ++ [mark] := by
  intro as
  induction as with
  | nil =>
    intro bs s t h
    cases bs with
    | nil => exact ⟨rfl, (List.cons.inj h).2⟩
    | cons b bs =>
      simp only [List.flatMap_cons, List.append_assoc] at h
      exact absurd h.symm (hmark b _ _)
  | cons a as ih =>
    intro bs s t h
    cases bs with
    | nil =>
      simp only [List.flatMap_cons, List.append_assoc] at h
      exact absurd h (hmark a _ _)
    | cons b bs =>
      simp only [List.flatMap_cons, List.append_assoc] at h
      obtain ⟨rfl, hrest⟩ := hw h
      simp only [← List.append_assoc _ [mark]] at hrest
      obtain ⟨rfl, rfl⟩ := ih hrest
      exact ⟨rfl, rfl⟩

end SelfDelimiting

/-- A text ends at the first mark, if it has none in it. -/
theorem append_mark_inj {mark : Char} {as bs s t : List Char} (ha : mark ∉ as) (hb : mark ∉ bs)
    (h : as ++ mark :: s = bs ++ mark :: t) : as = bs ∧ s = t := by
  induction as generalizing bs with
  | nil =>
    cases bs with
    | nil => exact ⟨rfl, (List.cons.inj h).2⟩
    | cons b bs =>
      rw [(List.cons.inj h).1] at hb
      exact absurd List.mem_cons_self hb
  | cons a as ih =>
    cases bs with
    | nil =>
      rw [← (List.cons.inj h).1] at ha
      exact absurd List.mem_cons_self ha
    | cons b bs =>
      obtain ⟨rfl, hrest⟩ := List.cons.inj h
      obtain ⟨rfl, rfl⟩ :=
        ih (List.not_mem_of_not_mem_cons ha) (List.not_mem_of_not_mem_cons hb) hrest
      exact ⟨rfl, rfl⟩

namespace Text

/-! ## Numbers -/

theorem digitChar_injective : ∀ m < 16, ∀ n < 16, Nat.digitChar m = Nat.digitChar n → m = n := by
  decide

theorem hexDigits_of_lt {n : Nat} (h : n < 16) : hexDigits n = [Nat.digitChar n] :=
  Nat.toDigits_of_lt_base h

theorem hexDigits_of_le {n : Nat} (h : 16 ≤ n) :
    hexDigits n = hexDigits (n / 16) ++ [Nat.digitChar (n % 16)] :=
  Nat.toDigits_of_base_le (by decide) h

theorem hexDigits_ne_nil (n : Nat) : hexDigits n ≠ [] :=
  Nat.toDigits_ne_nil

theorem hexDigits_injective {m n : Nat} (h : hexDigits m = hexDigits n) : m = n := by
  induction m using Nat.strongRecOn generalizing n with
  | ind m ih =>
    rcases Nat.lt_or_ge m 16 with hm | hm <;> rcases Nat.lt_or_ge n 16 with hn | hn
    · rw [hexDigits_of_lt hm, hexDigits_of_lt hn] at h
      exact digitChar_injective m hm n hn (List.cons.inj h).1
    · rw [hexDigits_of_lt hm, hexDigits_of_le hn, ← List.nil_append [_]] at h
      exact absurd (List.append_inj' h rfl).1.symm (hexDigits_ne_nil _)
    · rw [hexDigits_of_le hm, hexDigits_of_lt hn, ← List.nil_append [Nat.digitChar n]] at h
      exact absurd (List.append_inj' h rfl).1 (hexDigits_ne_nil _)
    · rw [hexDigits_of_le hm, hexDigits_of_le hn] at h
      obtain ⟨hdiv, hmod⟩ := List.append_inj' h rfl
      have hdiv := ih (m / 16) (by omega) hdiv
      have hmod := digitChar_injective (m % 16) (Nat.mod_lt _ (by decide)) (n % 16)
        (Nat.mod_lt _ (by decide)) (List.cons.inj hmod).1
      omega

/-- The brace behind a code point is none of its digits. -/
theorem brace_notMem_hexDigits (n : Nat) : '}' ∉ hexDigits n := by
  have hdigit : ∀ d < 16, '}' ≠ Nat.digitChar d := by decide
  induction n using Nat.strongRecOn with
  | ind n ih =>
    rcases Nat.lt_or_ge n 16 with hn | hn
    · rw [hexDigits_of_lt hn, List.mem_singleton]
      exact hdigit n hn
    · rw [hexDigits_of_le hn, List.mem_append, List.mem_singleton, not_or]
      exact ⟨ih (n / 16) (by omega), hdigit _ (Nat.mod_lt _ (by decide))⟩

/-- A number ends where a character follows that is no digit. -/
theorem digits_append_inj {mark : Char} (hmark : mark.isDigit = false) {m n : Nat}
    {s t : List Char} (h : digits m ++ mark :: s = digits n ++ mark :: t) : m = n ∧ s = t := by
  have hnot : ∀ n, mark ∉ digits n := by
    intro n hn
    rw [Nat.isDigit_of_mem_toDigits (by decide) (by decide) hn] at hmark
    exact absurd hmark (by decide)
  obtain ⟨hdigits, hrest⟩ := append_mark_inj (hnot m) (hnot n) h
  exact ⟨digits_injective hdigits, hrest⟩

/-! ## Quoted texts -/

/-- The characters that have a letter of their own behind the backslash. -/
def letters : List (Char × Char) :=
  [('"', '"'), ('\\', '\\'), ('\n', 'n'), ('\r', 'r'), ('\t', 't'), ('\x00', '0')]

/-- The three ways to write a character. -/
inductive Escaped (c : Char) : List Char → Prop where
  | plain (hquote : c ≠ '"') (hbackslash : c ≠ '\\') : Escaped c [c]
  | letter (l : Char) (h : (c, l) ∈ letters) : Escaped c ['\\', l]
  | code : Escaped c ('\\' :: 'u' :: '{' :: (hexDigits c.toNat ++ ['}']))

theorem escaped_escape (c : Char) : Escaped c (escape c) := by
  unfold escape
  split_ifs with hquote hbackslash hfeed hreturn htab hnul hmark
  · exact .letter '"' (by rw [hquote]; decide)
  · exact .letter '\\' (by rw [hbackslash]; decide)
  · exact .letter 'n' (by rw [hfeed]; decide)
  · exact .letter 'r' (by rw [hreturn]; decide)
  · exact .letter 't' (by rw [htab]; decide)
  · exact .letter '0' (by rw [hnul]; decide)
  · exact .plain hquote hbackslash
  · exact .code

/-- No letter stands for two characters, and none announces a code point. -/
theorem letters_apart : ∀ p ∈ letters, p.2 ≠ 'u' ∧ ∀ q ∈ letters, p.2 = q.2 → p.1 = q.1 := by
  decide

theorem selfDelimiting_escape : SelfDelimiting escape := by
  intro c d s t h
  have hc := escaped_escape c
  have hd := escaped_escape d
  generalize escape c = cs at hc h
  generalize escape d = ds at hd h
  cases hc with
  | plain _ hbackslash =>
    cases hd with
    | plain _ _ => exact List.cons.inj h
    | letter _ _ => exact absurd (List.cons.inj h).1 hbackslash
    | code => exact absurd (List.cons.inj h).1 hbackslash
  | letter l hl =>
    obtain ⟨hu, hone⟩ := letters_apart _ hl
    cases hd with
    | plain _ hbackslash => exact absurd (List.cons.inj h).1.symm hbackslash
    | letter l' hl' =>
      obtain ⟨rfl, hrest⟩ := List.cons.inj (List.cons.inj h).2
      exact ⟨hone _ hl' rfl, hrest⟩
    | code => exact absurd (List.cons.inj (List.cons.inj h).2).1 hu
  | code =>
    cases hd with
    | plain _ hbackslash => exact absurd (List.cons.inj h).1.symm hbackslash
    | letter l' hl' =>
      exact absurd (List.cons.inj (List.cons.inj h).2).1.symm (letters_apart _ hl').1
    | code =>
      simp only [List.cons_append, List.append_assoc, List.nil_append, List.cons.injEq,
        true_and] at h
      obtain ⟨hdigits, hrest⟩ :=
        append_mark_inj (brace_notMem_hexDigits _) (brace_notMem_hexDigits _) h
      exact ⟨Char.toNat_inj.mp (hexDigits_injective hdigits), hrest⟩

/-- No character is written with a quote in front. -/
theorem escape_append_ne_quote (c : Char) (s t : List Char) : escape c ++ s ≠ '"' :: t := by
  have hc := escaped_escape c
  generalize escape c = cs at hc
  intro h
  cases hc with
  | plain hquote _ => exact hquote (List.cons.inj h).1
  | letter _ _ => exact absurd (List.cons.inj h).1 (by decide)
  | code => exact absurd (List.cons.inj h).1 (by decide)

/-- **A quoted text ends by itself**, whatever characters it has. -/
theorem selfDelimiting_quote : SelfDelimiting quote := by
  intro cs ds s t h
  exact selfDelimiting_escape.flatMap escape_append_ne_quote (List.cons.inj h).2

theorem selfDelimiting_quoteOption : SelfDelimiting quoteOption := by
  intro x y s t h
  cases x with
  | none =>
    cases y with
    | none => exact ⟨rfl, List.append_cancel_left h⟩
    | some ds => exact absurd (List.cons.inj h).1 (by decide)
  | some cs =>
    cases y with
    | none => exact absurd (List.cons.inj h).1 (by decide)
    | some ds =>
      simp only [quoteOption, List.append_assoc, List.append_cancel_left_eq] at h
      obtain ⟨rfl, hrest⟩ := selfDelimiting_quote h
      exact ⟨rfl, List.append_cancel_left hrest⟩

end Text

/-! ## Records -/

/-- Two records with the same names have the same values. -/
theorem fields_append_inj {ι α : Type} {write : α → List Char} (hw : SelfDelimiting write)
    (name : ι → String) (x y : ι → α) (list : List ι) {s t : List Char}
    (h : [',', ' '].intercalate (list.map fun i => field (name i) (write (x i))) ++ s =
      [',', ' '].intercalate (list.map fun i => field (name i) (write (y i))) ++ t) :
    (∀ i ∈ list, x i = y i) ∧ s = t := by
  induction list with
  | nil => exact ⟨fun i hi => absurd hi List.not_mem_nil, h⟩
  | cons i list ih =>
    cases list with
    | nil =>
      simp only [List.map_cons, List.map_nil, List.intercalate_singleton, field, List.append_assoc,
        List.cons_append, List.append_cancel_left_eq, List.cons.injEq, true_and] at h
      obtain ⟨hi, hrest⟩ := hw h
      exact ⟨List.forall_mem_singleton.mpr hi, hrest⟩
    | cons j list =>
      simp only [List.map_cons, List.intercalate_cons_cons, field, List.append_assoc,
        List.cons_append, List.append_cancel_left_eq, List.cons.injEq, true_and] at h ih
      obtain ⟨hi, hrest⟩ := hw h
      obtain ⟨hlist, hrest⟩ := ih (List.cons.inj (List.cons.inj hrest).2).2
      exact ⟨List.forall_mem_cons.mpr ⟨hi, hlist⟩, hrest⟩

/-! ## Configurations -/

variable {as bs : Credentials}

/-- What two credentials have in common that look alike: what is not secret, and which secrets there
are. -/
structure Credentials.LookAlike (as bs : Credentials) : Prop where
  accountName : as.accountName = bs.accountName
  endpoint : as.endpoint = bs.endpoint
  connectionString : as.connectionString.isSome = bs.connectionString.isSome
  accountKey : as.accountKey.isSome = bs.accountKey.isSome
  sasToken : as.sasToken.isSome = bs.sasToken.isSome

/-- What is shown of a secret is whether it is there; all else is shown as it is. -/
theorem Credentials.shown_eq_iff (c : Credential) : as.shown c = bs.shown c ↔
    if c.isSecret then (as.get c).isSome = (bs.get c).isSome else as.get c = bs.get c := by
  unfold Credentials.shown
  cases c.isSecret with
  | true => cases as.get c <;> cases bs.get c <;> simp
  | false => cases as.get c <;> cases bs.get c <;> simp [String.toList_inj]

theorem Credentials.lookAlike_iff : as.LookAlike bs ↔ ∀ c, as.shown c = bs.shown c := by
  constructor
  · intro h c
    rw [shown_eq_iff]
    cases c with
    | connectionString => exact h.connectionString
    | accountName => exact h.accountName
    | accountKey => exact h.accountKey
    | sasToken => exact h.sasToken
    | endpoint => exact h.endpoint
  · intro h
    have hshown := fun c => (shown_eq_iff c).mp (h c)
    exact ⟨hshown .accountName, hshown .endpoint, hshown .connectionString, hshown .accountKey,
      hshown .sasToken⟩

theorem Credentials.summary_congr (h : as.LookAlike bs) : as.summary = bs.summary := by
  have hshown := Credentials.lookAlike_iff.mp h
  simp only [Credentials.summary, hshown]

/-- **The text of credentials ends by itself**, and shows what is not secret. -/
theorem Credentials.summary_append_inj {s t : List Char} (h : as.summary ++ s = bs.summary ++ t) :
    as.LookAlike bs ∧ s = t := by
  simp only [Credentials.summary, record, List.append_assoc, List.append_cancel_left_eq] at h
  obtain ⟨hshown, hrest⟩ :=
    fields_append_inj Text.selfDelimiting_quoteOption Credential.key as.shown bs.shown _ h
  exact ⟨Credentials.lookAlike_iff.mpr fun c => hshown c (Credential.mem_all c),
    List.append_cancel_left hrest⟩

/-- **Two texts are the same exactly when what is not secret is the same.** -/
theorem Config.summaryOf_eq_iff {m n m' n' : UInt64} :
    Config.summaryOf as m n = Config.summaryOf bs m' n' ↔ as.LookAlike bs ∧ m = m' ∧ n = n' := by
  constructor
  · intro h
    simp only [Config.summaryOf, record, field, String.ofList_inj, List.append_assoc,
      List.append_cancel_left_eq, List.intercalate_cons_cons, List.intercalate_singleton,
      List.cons_append, List.nil_append, List.cons.injEq, true_and] at h
    obtain ⟨hcredentials, h⟩ := Credentials.summary_append_inj h
    simp only [List.append_cancel_left_eq, List.cons.injEq, true_and] at h
    obtain ⟨hm, h⟩ := Text.digits_append_inj rfl h
    simp only [List.append_cancel_left_eq, List.cons.injEq, true_and] at h
    obtain ⟨hn, -⟩ := Text.digits_append_inj rfl h
    exact ⟨hcredentials, UInt64.toNat_inj.mp hm, UInt64.toNat_inj.mp hn⟩
  · rintro ⟨h, rfl, rfl⟩
    rw [Config.summaryOf, Config.summaryOf, Credentials.summary_congr h]

/-- **The text of a configuration shows exactly what is not secret in it**, and the same holds of
credentials and sizes that no client can be opened with. -/
theorem Config.summary_shows :
    (∀ a b : Config, a.summary = b.summary ↔ a.credentials.accountName = b.credentials.accountName ∧
      a.credentials.endpoint = b.credentials.endpoint ∧ a.chunkSize = b.chunkSize ∧
      a.maxConcurrency = b.maxConcurrency ∧
      a.credentials.connectionString.isSome = b.credentials.connectionString.isSome ∧
      a.credentials.accountKey.isSome = b.credentials.accountKey.isSome ∧
      a.credentials.sasToken.isSome = b.credentials.sasToken.isSome) ∧
    ∀ (as bs : Credentials) (m n m' n' : UInt64),
      Config.summaryOf as m n = Config.summaryOf bs m' n' ↔ as.LookAlike bs ∧ m = m' ∧ n = n' := by
  refine ⟨fun a b => Config.summaryOf_eq_iff.trans ⟨?_, ?_⟩, fun _ _ _ _ _ _ =>
    Config.summaryOf_eq_iff⟩
  · rintro ⟨h, hsize, hmax⟩
    exact ⟨h.accountName, h.endpoint, hsize, hmax, h.connectionString, h.accountKey, h.sasToken⟩
  · rintro ⟨hname, hendpoint, hsize, hmax, hconnection, hkey, htoken⟩
    exact ⟨⟨hname, hendpoint, hconnection, hkey, htoken⟩, hsize, hmax⟩

/-- A quote in a name does not end it. -/
example : Credentials.summary { accountName := some "\")" } =
    "Credentials \x7b connection_string: None, account_name: Some(\"\\\")\"), ".toList ++
      "account_key: None, sas_token: None, endpoint: None \x7d".toList := by
  decide +kernel

end RangeFetch
