import Mathlib.Data.List.Basic
import Mathlib.Data.List.TakeWhile
import RangeFetch.Location

/-!
# What a uri is made of

A uri is read by taking its scheme off, cutting off what begins with a question mark or a hash, and
splitting the rest at its first slashes. The grammar says the same the other way round, from the
parts that a uri is put together from: `Names` puts together the uris of a location, `HasPath` the
uris with a path, and `Reads` says from these two what reading gives, refusals included.

Headlines:
* **`fullPath?_eq_some_iff`**: cutting and splitting find the path that a uri is put together from.
* **`names_iff`**: a uri names a location exactly when its path is container, slash and blob.
* **`ofUri_eq_iff`**: reading gives what the grammar says, and nothing else.
* **`toUri_inverse`**: writing and reading are inverse on the locations that a uri can name.
-/

namespace RangeFetch.Location

/-! ## The grammar -/

/-- Neither a question mark nor a hash is in the text. -/
def Plain (s : String) : Prop :=
  '?' ∉ s.toList ∧ '#' ∉ s.toList

/-- What may follow the path of an endpoint uri. -/
inductive Trailer (s : String) : Prop where
  | nothing (h : s = "")
  | query (rest : String) (h : s = "?" ++ rest)
  | fragment (rest : String) (h : s = "#" ++ rest)

/-- The uris of a location. -/
inductive Names (uri : String) (l : Location) : Prop where
  | az (hl : l.WellFormed) (h : uri = "az://" ++ l.container ++ "/" ++ l.blob)
  | https (host trailer : String) (hl : l.WellFormed) (hslash : '/' ∉ host.toList)
    (hhost : Plain host) (hcontainer : Plain l.container) (hblob : Plain l.blob)
    (htrailer : Trailer trailer)
    (h : uri = "https://" ++ host ++ "/" ++ l.container ++ "/" ++ l.blob ++ trailer)

/-- The uris with a path: all that follows the scheme `az`, and of an endpoint uri what follows the
host's slash, if there is one before query and fragment. -/
inductive HasPath (uri path : String) : Prop where
  | az (h : uri = "az://" ++ path)
  | https (host trailer : String) (hslash : '/' ∉ host.toList) (hhost : Plain host)
    (hpath : Plain path) (htrailer : Trailer trailer)
    (h : uri = "https://" ++ host ++ "/" ++ path ++ trailer)
  | bare (host trailer : String) (hslash : '/' ∉ host.toList) (hhost : Plain host)
    (htrailer : Trailer trailer) (h : uri = "https://" ++ host ++ trailer) (hpath : path = "")

/-- No container comes first in the path. -/
def Headless (path : String) : Prop :=
  path = "" ∨ ∃ rest, path = "/" ++ rest

/-- What reading a uri gives. -/
inductive Reads (uri : String) : Except LocationError Location → Prop where
  | named (l : Location) (h : Names uri l) : Reads uri (.ok l)
  | unsupportedScheme (haz : ∀ rest, uri ≠ "az://" ++ rest)
    (hhttps : ∀ rest, uri ≠ "https://" ++ rest) : Reads uri (.error (.unsupportedScheme uri))
  | missingContainer (path : String) (hpath : HasPath uri path) (hhead : Headless path) :
    Reads uri (.error (.missingContainer uri))
  | missingObjectPath (path : String) (hpath : HasPath uri path) (hhead : ¬ Headless path)
    (hnames : ∀ l, ¬ Names uri l) : Reads uri (.error (.missingObjectPath uri))

/-! ## Cutting and splitting -/

variable {uri text front back path : String} {l : Location}

/-- Every list of characters is that of a text. -/
theorem exists_toList (cs : List Char) : ∃ s : String, s.toList = cs :=
  ⟨String.ofList cs, String.toList_ofList⟩

theorem plain_iff {s : String} : Plain s ↔ ∀ c ∈ s.toList, (!endsPath c) = true := by
  constructor
  · rintro ⟨hq, hf⟩ c hc
    have hne : c ≠ '?' ∧ c ≠ '#' := ⟨fun h => hq (h ▸ hc), fun h => hf (h ▸ hc)⟩
    simpa [endsPath]
  · intro h
    exact ⟨fun hc => absurd (h _ hc) (by decide), fun hc => absurd (h _ hc) (by decide)⟩

theorem trailer_iff {s : String} : Trailer s ↔ s.toList.takeWhile (!endsPath ·) = [] := by
  constructor
  · rintro (rfl | ⟨rest, rfl⟩ | ⟨rest, rfl⟩)
    · rfl
    · rw [String.toList_append]
      rfl
    · rw [String.toList_append]
      rfl
  · intro h
    cases hs : s.toList with
    | nil => exact .nothing (String.toList_inj.mp hs)
    | cons c cs =>
      obtain ⟨rest, rfl⟩ := exists_toList cs
      have hend : c = '?' ∨ c = '#' := by
        by_contra hc
        rw [not_or] at hc
        simp [hs, endsPath, hc] at h
      rcases hend with rfl | rfl
      · exact .query rest (String.toList_inj.mp (by rw [hs, String.toList_append]; rfl))
      · exact .fragment rest (String.toList_inj.mp (by rw [hs, String.toList_append]; rfl))

/-- What is in front of the first question mark or hash. -/
theorem takeWhile_eq_iff : text.toList.takeWhile (!endsPath ·) = front.toList ↔
    ∃ trailer, text = front ++ trailer ∧ Plain front ∧ Trailer trailer := by
  constructor
  · intro h
    obtain ⟨trailer, ht⟩ := exists_toList (text.toList.dropWhile (!endsPath ·))
    have htext : text = front ++ trailer := by
      rw [← String.toList_inj, String.toList_append, ← h, ht, List.takeWhile_append_dropWhile]
    have hf : ∀ c ∈ front.toList, (!endsPath c) = true := by
      rw [← h]
      exact fun c hc => List.mem_takeWhile_imp (p := (!endsPath ·)) hc
    refine ⟨trailer, htext, plain_iff.mpr hf, trailer_iff.mpr ?_⟩
    rw [htext, String.toList_append, List.takeWhile_append_of_pos hf] at h
    exact List.append_right_eq_self.mp h
  · rintro ⟨trailer, rfl, hf, ht⟩
    rw [String.toList_append, List.takeWhile_append_of_pos (plain_iff.mp hf), trailer_iff.mp ht,
      List.append_nil]

/-- What is in front of the first slash, and what is behind it. -/
theorem splitSlash?_toList : splitSlash? text.toList = some (front.toList, back.toList) ↔
    text = front ++ "/" ++ back ∧ '/' ∉ front.toList := by
  rw [splitSlash?_eq_some_iff, ← String.toList_inj, String.toList_append, String.toList_append,
    List.append_assoc]
  rfl

/-! ## The path of a uri -/

theorem plain_append {s t : String} : Plain (s ++ t) ↔ Plain s ∧ Plain t := by
  simp only [plain_iff, String.toList_append, List.forall_mem_append]

theorem plain_slash : Plain "/" :=
  ⟨by decide, by decide⟩

theorem endpointPath_eq_iff : endpointPath text.toList = path.toList ↔
    ∃ host trailer, '/' ∉ host.toList ∧ Plain host ∧ Trailer trailer ∧
      (Plain path ∧ text = host ++ "/" ++ path ++ trailer ∨
        path = "" ∧ text = host ++ trailer) := by
  constructor
  · intro h
    obtain ⟨front, hf⟩ := exists_toList (text.toList.takeWhile (!endsPath ·))
    obtain ⟨trailer, rfl, hplain, ht⟩ := takeWhile_eq_iff.mp hf.symm
    unfold endpointPath at h
    rw [← hf] at h
    cases hs : splitSlash? front.toList with
    | none =>
      rw [hs] at h
      exact ⟨front, trailer, splitSlash?_eq_none_iff.mp hs, hplain, ht,
        .inr ⟨String.toList_inj.mp h.symm, rfl⟩⟩
    | some p =>
      rw [hs] at h
      obtain ⟨host, hhost⟩ := exists_toList p.1
      have hp : p = (host.toList, path.toList) := Prod.ext hhost.symm h
      obtain ⟨rfl, hslash⟩ := splitSlash?_toList.mp (hs.trans (congrArg some hp))
      rw [plain_append, plain_append] at hplain
      exact ⟨host, trailer, hslash, hplain.1.1, ht, .inl ⟨hplain.2, rfl⟩⟩
  · rintro ⟨host, trailer, hslash, hhost, ht, ⟨hpath, rfl⟩ | ⟨rfl, rfl⟩⟩
    · have hplain : Plain (host ++ "/" ++ path) :=
        plain_append.mpr ⟨plain_append.mpr ⟨hhost, plain_slash⟩, hpath⟩
      unfold endpointPath
      rw [takeWhile_eq_iff.mpr ⟨trailer, rfl, hplain, ht⟩, splitSlash?_toList.mpr ⟨rfl, hslash⟩]
    · unfold endpointPath
      rw [takeWhile_eq_iff.mpr ⟨trailer, rfl, hhost, ht⟩, splitSlash?_eq_none_iff.mpr hslash]
      rfl

/-- A scheme is taken off a uri that begins with it. -/
theorem isPrefixOf?_scheme {scheme : String} :
    scheme.toList.isPrefixOf? uri.toList = some text.toList ↔ uri = scheme ++ text := by
  rw [List.isPrefixOf?_eq_some_iff_append_eq, ← String.toList_append, String.toList_inj, eq_comm]

/-- A uri without a scheme has nothing that it could be taken off. -/
theorem isPrefixOf?_scheme_none {scheme : String} :
    scheme.toList.isPrefixOf? uri.toList = none ↔ ∀ rest, uri ≠ scheme ++ rest := by
  rw [Option.eq_none_iff_forall_not_mem]
  constructor
  · exact fun h rest he => h rest.toList (isPrefixOf?_scheme.mpr he)
  · intro h cs hcs
    obtain ⟨rest, rfl⟩ := exists_toList cs
    exact h rest (isPrefixOf?_scheme.mp hcs)

/-- No uri has both schemes. -/
theorem https_ne_az (s t : String) : "https://" ++ s ≠ "az://" ++ t := by
  intro h
  have hlist := congrArg String.toList h
  rw [String.toList_append, String.toList_append] at hlist
  exact absurd (List.cons.inj hlist).1 (by decide)

theorem fullPath?_az : fullPath? ("az://" ++ path).toList = some path.toList := by
  unfold fullPath?
  rw [show azScheme = "az://".toList from rfl, isPrefixOf?_scheme.mpr rfl]

theorem fullPath?_https :
    fullPath? ("https://" ++ text).toList = some (endpointPath text.toList) := by
  unfold fullPath?
  rw [show azScheme = "az://".toList from rfl, show httpsScheme = "https://".toList from rfl,
    isPrefixOf?_scheme_none.mpr (https_ne_az text), isPrefixOf?_scheme.mpr rfl]
  rfl

theorem fullPath?_eq_none_iff : fullPath? uri.toList = none ↔
    (∀ rest, uri ≠ "az://" ++ rest) ∧ ∀ rest, uri ≠ "https://" ++ rest := by
  rw [← isPrefixOf?_scheme_none, ← isPrefixOf?_scheme_none]
  show fullPath? uri.toList = none ↔
    azScheme.isPrefixOf? uri.toList = none ∧ httpsScheme.isPrefixOf? uri.toList = none
  unfold fullPath?
  cases azScheme.isPrefixOf? uri.toList with
  | some rest => simp
  | none => simp

/-- **Cutting and splitting find the path that a uri is put together from.** -/
theorem fullPath?_eq_some_iff : fullPath? uri.toList = some path.toList ↔ HasPath uri path := by
  constructor
  · intro h
    by_cases haz : ∃ rest, uri = "az://" ++ rest
    · obtain ⟨rest, rfl⟩ := haz
      rw [fullPath?_az, Option.some.injEq, String.toList_inj] at h
      exact .az (h ▸ rfl)
    · by_cases hhttps : ∃ text, uri = "https://" ++ text
      · obtain ⟨text, rfl⟩ := hhttps
        rw [fullPath?_https, Option.some.injEq, endpointPath_eq_iff] at h
        obtain ⟨host, trailer, hslash, hhost, ht, ⟨hpath, rfl⟩ | ⟨hpath, rfl⟩⟩ := h
        · exact .https host trailer hslash hhost hpath ht (by simp only [String.append_assoc])
        · exact .bare host trailer hslash hhost ht (by rw [String.append_assoc]) hpath
      · rw [fullPath?_eq_none_iff.mpr ⟨not_exists.mp haz, not_exists.mp hhttps⟩] at h
        exact absurd h (by simp)
  · intro h
    cases h with
    | az h => rw [h, fullPath?_az]
    | https host trailer hslash hhost hpath ht h =>
      rw [h, show "https://" ++ host ++ "/" ++ path ++ trailer =
        "https://" ++ (host ++ "/" ++ path ++ trailer) by simp only [String.append_assoc],
        fullPath?_https, endpointPath_eq_iff.mpr ⟨host, trailer, hslash, hhost, ht, .inl ⟨hpath, rfl⟩⟩]
    | bare host trailer hslash hhost ht h hpath =>
      rw [h, String.append_assoc, fullPath?_https,
        endpointPath_eq_iff.mpr ⟨host, trailer, hslash, hhost, ht, .inr ⟨hpath, rfl⟩⟩]

/-- A uri has at most one path. -/
theorem HasPath.unique {path' : String} (h : HasPath uri path) (h' : HasPath uri path') :
    path = path' := by
  have heq := (fullPath?_eq_some_iff.mpr h).symm.trans (fullPath?_eq_some_iff.mpr h')
  exact String.toList_inj.mp (Option.some.inj heq)

/-! ## Container and blob -/

/-- **A uri names a location exactly when its path is container, slash and blob.** -/
theorem names_iff : Names uri l ↔ HasPath uri (l.container ++ "/" ++ l.blob) ∧ l.WellFormed := by
  constructor
  · rintro (⟨hl, rfl⟩ | ⟨host, trailer, hl, hslash, hhost, hcontainer, hblob, ht, rfl⟩)
    · exact ⟨.az (by simp only [String.append_assoc]), hl⟩
    · have hpath : Plain (l.container ++ "/" ++ l.blob) :=
        plain_append.mpr ⟨plain_append.mpr ⟨hcontainer, plain_slash⟩, hblob⟩
      exact ⟨.https host trailer hslash hhost hpath ht (by simp only [String.append_assoc]), hl⟩
  · rintro ⟨hpath, hl⟩
    cases hpath with
    | az h => exact .az hl (by rw [h]; simp only [String.append_assoc])
    | https host trailer hslash hhost hplain ht h =>
      rw [plain_append, plain_append] at hplain
      exact .https host trailer hl hslash hhost hplain.1.1 hplain.2 ht
        (by rw [h]; simp only [String.append_assoc])
    | bare host trailer hslash hhost ht h hpath =>
      have hempty := congrArg String.toList hpath
      simp [String.toList_append] at hempty

/-! ## Reading -/

/-- What is read from a path, by what it splits to. -/
theorem ofUri_of_split (container blob : List Char) (hpath : HasPath uri path)
    (hs : (splitSlash? path.toList).getD (path.toList, []) = (container, blob)) :
    ofUri uri =
      if container = [] then .error (.missingContainer uri)
      else if blob = [] ∨ blob.getLast? = some '/' then .error (.missingObjectPath uri)
      else .ok ⟨String.ofList container, String.ofList blob⟩ := by
  unfold ofUri
  rw [fullPath?_eq_some_iff.mpr hpath]
  simp only [hs]

theorem ofUri_of_noScheme (haz : ∀ rest, uri ≠ "az://" ++ rest)
    (hhttps : ∀ rest, uri ≠ "https://" ++ rest) :
    ofUri uri = .error (.unsupportedScheme uri) := by
  unfold ofUri
  rw [fullPath?_eq_none_iff.mpr ⟨haz, hhttps⟩]

theorem ofUri_of_names (h : Names uri l) : ofUri uri = .ok l := by
  obtain ⟨hpath, hl⟩ := names_iff.mp h
  have hs : splitSlash? (l.container ++ "/" ++ l.blob).toList =
      some (l.container.toList, l.blob.toList) := splitSlash?_toList.mpr ⟨rfl, hl.2.1⟩
  have hcontainer : l.container.toList ≠ [] := mt String.toList_eq_nil_iff.mp hl.1
  have hblob : l.blob.toList ≠ [] := mt String.toList_eq_nil_iff.mp hl.2.2.1
  rw [ofUri_of_split l.container.toList l.blob.toList hpath (by rw [hs]; rfl), if_neg hcontainer,
    if_neg (not_or.mpr ⟨hblob, hl.2.2.2⟩), String.ofList_toList, String.ofList_toList]

theorem ofUri_of_headless (hpath : HasPath uri path) (h : Headless path) :
    ofUri uri = .error (.missingContainer uri) := by
  rcases h with rfl | ⟨rest, rfl⟩
  · rw [ofUri_of_split [] [] hpath rfl, if_pos rfl]
  · have hs : splitSlash? ("/" ++ rest).toList = some ("".toList, rest.toList) :=
      splitSlash?_toList.mpr ⟨rfl, by simp⟩
    rw [ofUri_of_split [] rest.toList hpath (by rw [hs]; rfl), if_pos rfl]

/-- A path that begins with a container is that of a location, or its object path is missing. -/
theorem ofUri_of_not_names (hpath : HasPath uri path) (hhead : ¬ Headless path)
    (hnames : ∀ l, ¬ Names uri l) : ofUri uri = .error (.missingObjectPath uri) := by
  cases hs : splitSlash? path.toList with
  | none =>
    have hne : path.toList ≠ [] := fun he => hhead (.inl (String.toList_eq_nil_iff.mp he))
    rw [ofUri_of_split path.toList [] hpath (by rw [hs]; rfl), if_neg hne, if_pos (.inl rfl)]
  | some p =>
    obtain ⟨container, hc⟩ := exists_toList p.1
    obtain ⟨blob, hb⟩ := exists_toList p.2
    obtain rfl : p = (container.toList, blob.toList) := Prod.ext hc.symm hb.symm
    obtain ⟨rfl, hslash⟩ := splitSlash?_toList.mp hs
    have hne : container ≠ "" := by
      rintro rfl
      exact hhead (.inr ⟨blob, by rw [String.empty_append]⟩)
    have hobject : blob.toList = [] ∨ blob.toList.getLast? = some '/' := by
      by_contra hno
      rw [not_or] at hno
      exact hnames ⟨container, blob⟩ (names_iff.mpr
        ⟨hpath, hne, hslash, mt String.toList_eq_nil_iff.mpr hno.1, hno.2⟩)
    rw [ofUri_of_split container.toList blob.toList hpath (by rw [hs]; rfl),
      if_neg (mt String.toList_eq_nil_iff.mp hne), if_pos hobject]

/-- **Reading gives what the grammar says**, and a uri has only one path that the grammar could
speak of. -/
theorem ofUri_eq_iff (uri : String) :
    (∀ r, ofUri uri = r ↔ Reads uri r) ∧
      ∀ path path', HasPath uri path → HasPath uri path' → path = path' := by
  refine ⟨fun r => ⟨?_, fun h => ?_⟩, fun path path' h h' => h.unique h'⟩
  · rintro rfl
    cases hp : fullPath? uri.toList with
    | none =>
      obtain ⟨haz, hhttps⟩ := fullPath?_eq_none_iff.mp hp
      rw [ofUri_of_noScheme haz hhttps]
      exact .unsupportedScheme haz hhttps
    | some cs =>
      obtain ⟨path, rfl⟩ := exists_toList cs
      have hpath := fullPath?_eq_some_iff.mp hp
      by_cases hnames : ∃ l, Names uri l
      · obtain ⟨l, hl⟩ := hnames
        rw [ofUri_of_names hl]
        exact .named l hl
      · rw [not_exists] at hnames
        by_cases hhead : Headless path
        · rw [ofUri_of_headless hpath hhead]
          exact .missingContainer path hpath hhead
        · rw [ofUri_of_not_names hpath hhead hnames]
          exact .missingObjectPath path hpath hhead hnames
  · cases h with
    | named l h => exact ofUri_of_names h
    | unsupportedScheme haz hhttps => exact ofUri_of_noScheme haz hhttps
    | missingContainer path hpath hhead => exact ofUri_of_headless hpath hhead
    | missingObjectPath path hpath hhead hnames => exact ofUri_of_not_names hpath hhead hnames

/-- A slash in the query of an endpoint uri splits nothing. -/
theorem ofUri_eq_iff_query :
    HasPath "https://h/c/a/b?x/y" "c/a/b" ∧
      (∀ path, HasPath "https://h/c/a/b?x/y" path → path = "c/a/b") ∧
      ofUri "https://h/c/a/b?x/y" = .ok ⟨"c", "a/b"⟩ := by
  obtain ⟨hread, hunique⟩ := ofUri_eq_iff "https://h/c/a/b?x/y"
  have htrailer : Trailer "?x/y" := .query "x/y" (by decide)
  have hpath : HasPath "https://h/c/a/b?x/y" "c/a/b" :=
    .https "h" "?x/y" (by decide) ⟨by decide, by decide⟩ ⟨by decide, by decide⟩ htrailer
      (by decide)
  refine ⟨hpath, fun path h => hunique path "c/a/b" h hpath, (hread _).mpr (.named _ ?_)⟩
  exact names_iff.mpr ⟨hpath, by decide, by decide, by decide, by decide⟩

/-! ## Writing -/

theorem toUri_eq (l : Location) : l.toUri = "az://" ++ l.container ++ "/" ++ l.blob := by
  rw [← String.toList_inj, toUri, String.toList_ofList]
  simp only [String.toList_append, List.append_assoc]
  rfl

/-- What is written of a location that a uri can name is read back. -/
theorem ofUri_toUri (hl : l.WellFormed) : ofUri l.toUri = .ok l :=
  ofUri_of_names (.az hl l.toUri_eq)

/-- **Writing and reading are inverse on the locations that a uri can name**, and on no others; all
that are read are among them, so that no two of them are written alike. -/
theorem toUri_inverse :
    (∀ l : Location, ofUri l.toUri = .ok l ↔ l.WellFormed) ∧
      (∀ (uri : String) (l : Location), ofUri uri = .ok l →
        l.WellFormed ∧ ofUri l.toUri = ofUri uri) ∧
      ∀ (uri uri' : String) (l l' : Location), ofUri uri = .ok l → ofUri uri' = .ok l' → l ≠ l' →
        l.toUri ≠ l'.toUri := by
  refine ⟨fun l => ⟨ofUri_wellFormed, ofUri_toUri⟩, fun uri l h => ?_, ?_⟩
  · have hl := ofUri_wellFormed h
    exact ⟨hl, (ofUri_toUri hl).trans h.symm⟩
  · intro uri uri' l l' h h' hne htext
    have hread := ofUri_toUri (ofUri_wellFormed h)
    rw [htext, ofUri_toUri (ofUri_wellFormed h')] at hread
    exact hne (Except.ok.inj hread).symm

/-- The container of one uri ends in a question mark, which ends the path of the other. -/
theorem toUri_inverse_mark :
    ofUri "az://c?/b" = .ok ⟨"c?", "b"⟩ ∧ ofUri "https://h/c/b?/b" = .ok ⟨"c", "b"⟩ ∧
      ofUri (Location.toUri ⟨"c?", "b"⟩) = ofUri "az://c?/b" ∧
      Location.toUri ⟨"c?", "b"⟩ ≠ Location.toUri ⟨"c", "b"⟩ := by
  have haz : ofUri "az://c?/b" = .ok ⟨"c?", "b"⟩ := by decide
  have hhttps : ofUri "https://h/c/b?/b" = .ok ⟨"c", "b"⟩ := by decide
  obtain ⟨-, hback, hne⟩ := toUri_inverse
  exact ⟨haz, hhttps, (hback _ _ haz).2, hne _ _ _ _ haz hhttps (by decide)⟩

end RangeFetch.Location
