/-!
# Locations of blobs

A blob is named by its container and its path in the container. A location is read from an `az`
uri, or from an `https` uri of a storage endpoint whose first path segment is the container; query
and fragment of the latter (access tokens ride there) do not count.

`Location` is `BlobLocation`, `ofUri` its `parse`, `toUri` its display, and `LocationError` is
`UriError` (section B.1).

Headlines:
* **`Location.ofUri`** reads a uri, `Location.toUri` writes the `az` form of a location.
* **`WellFormed`**: the locations that a uri can name; `ofUri_wellFormed`: no other is ever read.
-/

namespace RangeFetch

/-- Where a blob is. -/
structure Location where
  container : String
  blob : String
  deriving DecidableEq, Repr

/-- Why a uri names no blob. Each cause carries the uri. -/
inductive LocationError where
  | unsupportedScheme (uri : String)
  | missingContainer (uri : String)
  | missingObjectPath (uri : String)
  deriving DecidableEq, Repr

/-- The text of a cause. -/
def LocationError.message : LocationError → String
  | .unsupportedScheme uri => "unsupported uri scheme: " ++ uri
  | .missingContainer uri => "uri has no container: " ++ uri
  | .missingObjectPath uri => "uri has no object path: " ++ uri

namespace Location

/-- What an `az` uri starts with. -/
def azScheme : List Char := ['a', 'z', ':', '/', '/']

/-- What an `https` uri starts with. -/
def httpsScheme : List Char := ['h', 't', 't', 'p', 's', ':', '/', '/']

/-- The text before the first slash and the text behind it, if there is a slash. -/
def splitSlash? : List Char → Option (List Char × List Char)
  | [] => none
  | c :: cs => if c = '/' then some ([], cs) else (splitSlash? cs).map fun p => (c :: p.1, p.2)

/-- Query and fragment of a uri begin with one of these. -/
def endsPath (c : Char) : Bool :=
  c == '?' || c == '#'

/-- The path of an endpoint uri, from what follows the scheme: what is behind the host's slash. -/
def endpointPath (cs : List Char) : List Char :=
  match splitSlash? (cs.takeWhile (!endsPath ·)) with
  | some (_, path) => path
  | none => []

/-- Container and object path in one text, if the scheme is known. -/
def fullPath? (uri : List Char) : Option (List Char) :=
  match azScheme.isPrefixOf? uri with
  | some rest => some rest
  | none => (httpsScheme.isPrefixOf? uri).map endpointPath

/-- Reads a uri. -/
def ofUri (uri : String) : Except LocationError Location :=
  match fullPath? uri.toList with
  | none => .error (.unsupportedScheme uri)
  | some path =>
    let (container, blob) := (splitSlash? path).getD (path, [])
    if container = [] then .error (.missingContainer uri)
    else if blob = [] ∨ blob.getLast? = some '/' then .error (.missingObjectPath uri)
    else .ok ⟨String.ofList container, String.ofList blob⟩

/-- The `az` uri of a location. -/
def toUri (l : Location) : String :=
  String.ofList (azScheme ++ l.container.toList ++ '/' :: l.blob.toList)

/-- The container is a name and the blob a path that ends in one. -/
def WellFormed (l : Location) : Prop :=
  l.container ≠ "" ∧ '/' ∉ l.container.toList ∧ l.blob ≠ "" ∧ l.blob.toList.getLast? ≠ some '/'

/-! ## Cutting at the first slash -/

theorem splitSlash?_eq_some_iff {cs front back : List Char} :
    splitSlash? cs = some (front, back) ↔ cs = front ++ '/' :: back ∧ '/' ∉ front := by
  induction cs generalizing front with
  | nil => simp [splitSlash?]
  | cons c cs ih =>
    by_cases hc : c = '/'
    · subst hc
      rw [splitSlash?, if_pos rfl]
      constructor
      · rintro ⟨rfl, rfl⟩
        simp
      · rintro ⟨h, hf⟩
        cases front with
        | nil => simpa using h
        | cons x xs => simp_all
    · rw [splitSlash?, if_neg hc]
      constructor
      · intro h
        obtain ⟨p, hp, he⟩ := Option.map_eq_some_iff.mp h
        obtain ⟨rfl, rfl⟩ := Prod.mk.inj he
        obtain ⟨rfl, hf⟩ := ih.mp hp
        exact ⟨rfl, by simp [hf, Ne.symm hc]⟩
      · rintro ⟨h, hf⟩
        cases front with
        | nil => simp_all
        | cons x xs =>
          obtain ⟨rfl, rfl⟩ := List.cons.inj h
          rw [ih.mpr ⟨rfl, fun m => hf (List.mem_cons_of_mem _ m)⟩]
          rfl

theorem splitSlash?_eq_none_iff {cs : List Char} : splitSlash? cs = none ↔ '/' ∉ cs := by
  induction cs with
  | nil => simp [splitSlash?]
  | cons c cs ih =>
    by_cases hc : c = '/'
    · simp [splitSlash?, hc]
    · simp [splitSlash?, hc, ih, Ne.symm hc]

/-! ## What is read is well formed -/

theorem ofUri_wellFormed {uri : String} {l : Location} (h : ofUri uri = .ok l) : l.WellFormed := by
  unfold ofUri at h
  split at h
  · simp at h
  · rename_i path _
    split at h
    rename_i container blob hcb
    split at h
    · simp at h
    · split at h
      · simp at h
      · rename_i hc hb
        simp only [Except.ok.injEq] at h
        subst h
        rw [not_or] at hb
        have hslash : '/' ∉ container := by
          cases hs : splitSlash? path with
          | none =>
            rw [hs] at hcb
            simp only [Option.getD_none, Prod.mk.injEq] at hcb
            exact absurd hcb.2.symm hb.1
          | some p =>
            rw [hs] at hcb
            simp only [Option.getD_some] at hcb
            subst hcb
            exact (splitSlash?_eq_some_iff.mp hs).2
        refine ⟨fun e => hc ?_, by simpa using hslash, fun e => hb.1 ?_, by simpa using hb.2⟩
        · simpa using congrArg String.toList e
        · simpa using congrArg String.toList e

end Location

end RangeFetch
