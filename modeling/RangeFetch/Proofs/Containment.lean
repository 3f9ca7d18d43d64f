import Mathlib.Data.List.Basic
import RangeFetch.Proofs.Reading

/-!
# Blobs stay under the root of their store

A path is checked by what it says below the root, and it is the joined path that is opened. The two
fit together because joining keeps what both sides say: a path that is put behind a root says what
the root says, and then what it says itself (`components_join`), and it is walked to where the root
is walked to, and on from there (`walk_join`). What passes the check says nothing but names, and
names only lead further down.

Headlines:
* **`Store.pathUnder?_eq_none_iff`**: the paths that are refused, by the segments of container and
  blob.
* **`Store.Contained`**: what a path under a root says, and where it leads; **`Store.stays_under`**:
  every blob's path that is not refused is contained, and nothing else is ever opened.
-/

namespace RangeFetch

namespace Path

/-! ## Joining -/

variable {base other : List Char}

theorem segments_eq_splitOn (cs : List Char) : segments cs = cs.splitOn '/' := by
  induction cs with
  | nil => rfl
  | cons c cs ih =>
    rw [segments, List.splitOn_cons_eq_if_modifyHead, ih]
    by_cases hc : c = '/'
    · simp [hc]
    · obtain ⟨s, ss, hs⟩ := List.exists_cons_of_ne_nil (List.splitOn_ne_nil '/' cs)
      simp [hc, hs]

theorem segments_append_slash (as bs : List Char) :
    segments (as ++ '/' :: bs) = segments as ++ segments bs := by
  simp only [segments_eq_splitOn, List.splitOn_append_cons_self]

/-- A slash at the end of a text ends it with an empty segment. -/
theorem segments_concat_slash (as : List Char) : segments (as ++ ['/']) = segments as ++ [[]] :=
  segments_append_slash as []

/-- The segments in front of those of a joined path: a slash at the end of the base is not said
twice, and an empty base is not said at all. -/
def stem (base : List Char) : List (List Char) :=
  if base = [] ∨ base.getLast? = some '/' then (segments base).dropLast else segments base

theorem stem_concat_slash (as : List Char) : stem (as ++ ['/']) = segments as := by
  unfold stem
  rw [if_pos (.inr List.getLast?_concat), segments_concat_slash, List.dropLast_concat]

/-- The stem leaves at most an empty segment out. -/
theorem segments_eq_stem (base : List Char) :
    segments base = stem base ∨ segments base = stem base ++ [[]] := by
  by_cases hend : base = [] ∨ base.getLast? = some '/'
  · rcases hend with rfl | hlast
    · exact .inr rfl
    · obtain ⟨as, rfl⟩ := List.getLast?_eq_some_iff.mp hlast
      exact .inr (by rw [stem_concat_slash, segments_concat_slash])
  · exact .inl (if_neg hend).symm

theorem segments_join (h : isAbsolute other = false) :
    segments (join base other) = stem base ++ segments other := by
  unfold join
  rw [h, if_neg Bool.false_ne_true]
  by_cases hend : base = [] ∨ base.getLast? = some '/'
  · rw [if_pos hend]
    rcases hend with rfl | hlast
    · rfl
    · obtain ⟨as, rfl⟩ := List.getLast?_eq_some_iff.mp hlast
      rw [stem_concat_slash, List.append_assoc]
      exact segments_append_slash as other
  · rw [if_neg hend, stem, if_neg hend]
    exact segments_append_slash base other

theorem stem_ne_nil (h : base ≠ []) : stem base ≠ [] := by
  by_cases hlast : base.getLast? = some '/'
  · obtain ⟨as, rfl⟩ := List.getLast?_eq_some_iff.mp hlast
    rw [stem_concat_slash]
    exact segments_ne_nil as
  · rw [stem, if_neg (not_or.mpr ⟨h, hlast⟩)]
    exact segments_ne_nil base

theorem head?_stem (h : base ≠ []) : (stem base).head? = (segments base).head? := by
  rcases segments_eq_stem base with hs | hs
  · rw [hs]
  · rw [hs, List.head?_append_of_ne_nil _ (stem_ne_nil h)]

theorem isAbsolute_join (h : isAbsolute other = false) :
    isAbsolute (join base other) = isAbsolute base := by
  unfold join
  rw [h, if_neg Bool.false_ne_true]
  cases base with
  | nil => exact h
  | cons c cs => split <;> rfl

/-! ## What a path says -/

/-- A path that says nothing in front but names. -/
theorem front_eq_nil_iff {path : List Char} :
    front path = [] ↔ isAbsolute path = false ∧ (segments path).head? ≠ some ['.'] := by
  unfold front
  cases isAbsolute path with
  | true => simp
  | false => by_cases hdot : (segments path).head? = some ['.'] <;> simp [hdot]

/-- **A path behind a root says what the root says, and then what it says itself.** -/
theorem components_join (h : front other = []) :
    components (join base other) = components base ++ components other := by
  obtain ⟨habs, hdot⟩ := front_eq_nil_iff.mp h
  have hfront : front (join base other) = front base := by
    by_cases hbase : base = []
    · subst hbase
      rw [join, habs, if_neg Bool.false_ne_true, if_pos (.inl rfl), List.nil_append, h]
      rfl
    · have hhead : (segments (join base other)).head? = (segments base).head? := by
        rw [segments_join habs, List.head?_append_of_ne_nil _ (stem_ne_nil hbase),
          head?_stem hbase]
      unfold front
      rw [isAbsolute_join habs, hhead]
  have hstem : (stem base).filterMap component? = (segments base).filterMap component? := by
    rcases segments_eq_stem base with hs | hs
    · rw [hs]
    · rw [hs, List.filterMap_append]
      exact (List.append_nil _).symm
  unfold components
  rw [hfront, segments_join habs, List.filterMap_append, hstem, h, List.nil_append,
    List.append_assoc]

/-- The names that segments say, when none of them leads back. -/
def names (ss : List (List Char)) : List FileName :=
  ss.filter fun s => s ≠ [] ∧ s ≠ ['.']

theorem names_append (as bs : List (List Char)) : names (as ++ bs) = names as ++ names bs :=
  List.filter_append ..

theorem names_stem (base : List Char) : names (stem base) = names (segments base) := by
  rcases segments_eq_stem base with hs | hs
  · rw [hs]
  · rw [hs, names_append]
    exact (List.append_nil _).symm

theorem mem_stem_iff {s : List Char} (hs : s ≠ []) : s ∈ stem base ↔ s ∈ segments base := by
  rcases segments_eq_stem base with h | h
  · rw [h]
  · rw [h, List.mem_append, List.mem_singleton, or_iff_left hs]

theorem names_cons (s : List Char) (ss : List (List Char)) :
    names (s :: ss) = if s = [] ∨ s = ['.'] then names ss else s :: names ss := by
  unfold names
  rw [List.filter_cons]
  by_cases hs : s = [] ∨ s = ['.']
  · rw [if_pos hs, if_neg (by simpa [or_iff_not_imp_left] using hs)]
  · rw [if_neg hs, if_pos (by simpa [not_or] using hs)]

theorem filterMap_component? {ss : List (List Char)} (h : ['.', '.'] ∉ ss) :
    ss.filterMap component? = (names ss).map .name := by
  induction ss with
  | nil => rfl
  | cons s ss ih =>
    rw [List.mem_cons, not_or] at h
    rw [List.filterMap_cons, ih h.2, names_cons]
    unfold component?
    by_cases hs : s = [] ∨ s = ['.']
    · rw [if_pos hs, if_pos hs]
    · rw [if_neg hs, if_neg (Ne.symm h.1), if_neg hs]
      rfl

/-- What passes the check says nothing in front but names, and none of its segments leads back. -/
theorem all_isName_iff {path : List Char} :
    (components path).all Component.isName = true ↔
      front path = [] ∧ ['.', '.'] ∉ segments path := by
  have hfront : (front path).all Component.isName = true ↔ front path = [] := by
    unfold front
    split
    · simp [Component.isName]
    · split <;> simp [Component.isName]
  rw [components, List.all_append, Bool.and_eq_true, hfront]
  refine and_congr_right fun _ => ?_
  rw [List.all_eq_true]
  constructor
  · intro h hback
    exact absurd (h .parent (List.mem_filterMap.mpr ⟨_, hback, rfl⟩)) Bool.false_ne_true
  · intro h
    rw [filterMap_component? h]
    intro c hc
    obtain ⟨n, -, rfl⟩ := List.mem_map.mp hc
    rfl

/-! ## Where a path leads -/

/-- Where a component leads from a place, by its text alone. -/
def Component.lead (place : List FileName) : Component → List FileName
  | root => []
  | here => place
  | parent => place.dropLast
  | name n => place ++ [n]

/-- Where a path leads from a place, by its text alone. -/
def resolve (place : List FileName) (cs : List Component) : List FileName :=
  cs.foldl Component.lead place

theorem resolve_append (place : List FileName) (as bs : List Component) :
    resolve place (as ++ bs) = resolve (resolve place as) bs :=
  List.foldl_append

/-- Names lead further down. -/
theorem resolve_names (place ns : List FileName) :
    resolve place (ns.map .name) = place ++ ns := by
  induction ns generalizing place with
  | nil => exact (List.append_nil place).symm
  | cons n ns ih =>
    show resolve (place ++ [n]) (ns.map .name) = _
    rw [ih, List.append_assoc]
    rfl

end Path

namespace FileTree

variable {tree : FileTree} {place target : List FileName}

/-- An empty segment in front of another one says nothing, as the place has to be a directory for
the other one, too. -/
theorem walk_empty_cons (tree : FileTree) (place : List FileName) (s : List Char)
    (ss : List (List Char)) : tree.walk place ([] :: s :: ss) = tree.walk place (s :: ss) := by
  rw [walk]
  unfold step
  cases he : tree.entry? place with
  | none => simp [walk, step, he]
  | some entry =>
    cases entry with
    | directory => simp
    | file content => simp [walk, step, he]

/-- **A joined path is walked to where its base is walked to, and on from there.** -/
theorem walk_join {base other : List Char} (h : Path.isAbsolute other = false) :
    tree.walk place (Path.segments (Path.join base other)) =
      tree.walk place (Path.segments base ++ Path.segments other) := by
  rw [Path.segments_join h]
  rcases Path.segments_eq_stem base with hs | hs
  · rw [hs]
  · obtain ⟨s, ss, hother⟩ := List.exists_cons_of_ne_nil (Path.segments_ne_nil other)
    rw [hs, List.append_assoc, walk_append, walk_append, hother]
    simp only [List.singleton_append, walk_empty_cons]

theorem walk_append_eq_ok {as bs : List (List Char)} (h : tree.walk place (as ++ bs) = .ok target) :
    ∃ mid, tree.walk place as = .ok mid ∧ tree.walk mid bs = .ok target := by
  rw [walk_append] at h
  cases hw : tree.walk place as with
  | error e =>
    rw [hw] at h
    exact absurd h (by simp)
  | ok mid =>
    rw [hw] at h
    exact ⟨mid, rfl, h⟩

theorem step_eq_ok {s : List Char} (hback : s ≠ ['.', '.']) (h : tree.step place s = .ok target) :
    target = place ++ Path.names [s] := by
  unfold step at h
  rw [Path.names_cons]
  split at h
  · exact absurd h (by simp)
  · exact absurd h (by simp)
  · by_cases hs : s = [] ∨ s = ['.']
    · rw [if_pos hs] at h ⊢
      obtain rfl := Except.ok.inj h
      exact (List.append_nil place).symm
    · rw [if_neg hs] at h ⊢
      rw [if_neg hback] at h
      split at h
      · exact absurd h (by simp)
      · split at h
        · exact (Except.ok.inj h).symm
        · exact absurd h (by simp)

/-- A walk on which no segment leads back ends at the names that it goes by. -/
theorem walk_eq_ok {ss : List (List Char)} (hback : ['.', '.'] ∉ ss)
    (h : tree.walk place ss = .ok target) : target = place ++ Path.names ss := by
  induction ss generalizing place with
  | nil =>
    obtain rfl := Except.ok.inj h
    exact (List.append_nil place).symm
  | cons s ss ih =>
    rw [List.mem_cons, not_or] at hback
    rw [walk] at h
    cases hs : tree.step place s with
    | error e =>
      rw [hs] at h
      exact absurd h (by simp)
    | ok place' =>
      rw [hs] at h
      rw [ih hback.2 h, step_eq_ok (Ne.symm hback.1) hs, List.append_assoc, ← Path.names_append]
      rfl

end FileTree

namespace Store

/-! ## The path of a blob -/

/-- What leads the path of a blob out of its store, or is refused beside that. -/
inductive Strays (l : Location) : Prop where
  /-- The container starts at the root of all files. -/
  | container (h : l.container.toList.head? = some '/')
  /-- The blob does, and replaces all in front of it. -/
  | blob (h : l.blob.toList.head? = some '/')
  /-- A segment leads back. -/
  | back (h : ['.', '.'] ∈ l.container.toList.splitOn '/' ++ l.blob.toList.splitOn '/')
  /-- The first segment is a dot. -/
  | dot (h : ((if l.container = "" then l.blob else l.container).toList.splitOn '/').head? =
      some ['.'])

/-- The names of a blob's path. -/
def names (l : Location) : List FileName :=
  Path.names (l.container.toList.splitOn '/' ++ l.blob.toList.splitOn '/')

variable {l : Location} {root path : List Char}

theorem isAbsolute_iff {cs : List Char} : Path.isAbsolute cs = true ↔ cs.head? = some '/' := by
  simp [Path.isAbsolute]

theorem names_relativePath (h : Path.isAbsolute l.blob.toList = false) :
    Path.names (Path.segments (relativePath l)) = names l := by
  rw [relativePath, Path.segments_join h, Path.names_append, Path.names_stem,
    ← Path.names_append, Path.segments_eq_splitOn, Path.segments_eq_splitOn]
  rfl

theorem isName_iff_not_strays :
    (Path.components (relativePath l)).all Path.Component.isName = true ↔ ¬ Strays l := by
  rw [Path.all_isName_iff, Path.front_eq_nil_iff]
  cases hblob : Path.isAbsolute l.blob.toList with
  | true =>
    have hrel : relativePath l = l.blob.toList := if_pos hblob
    rw [hrel, hblob]
    exact iff_of_false (by simp) (not_not_intro (.blob (isAbsolute_iff.mp hblob)))
  | false =>
    have hhead : (Path.stem l.container.toList ++ Path.segments l.blob.toList).head? =
        ((if l.container = "" then l.blob else l.container).toList.splitOn '/').head? := by
      rw [← Path.segments_eq_splitOn]
      by_cases hempty : l.container = ""
      · rw [if_pos hempty, hempty]
        rfl
      · have hne : l.container.toList ≠ [] := mt String.toList_eq_nil_iff.mp hempty
        rw [if_neg hempty, List.head?_append_of_ne_nil _ (Path.stem_ne_nil hne),
          Path.head?_stem hne]
    have hback : ['.', '.'] ∈ Path.stem l.container.toList ++ Path.segments l.blob.toList ↔
        ['.', '.'] ∈ l.container.toList.splitOn '/' ++ l.blob.toList.splitOn '/' := by
      rw [List.mem_append, List.mem_append, Path.mem_stem_iff (by simp),
        Path.segments_eq_splitOn, Path.segments_eq_splitOn]
    rw [relativePath, Path.isAbsolute_join hblob, Path.segments_join hblob, hhead, hback]
    constructor
    · rintro ⟨⟨hcontainer, hdot⟩, hback⟩ hs
      cases hs with
      | container h => exact absurd (isAbsolute_iff.mpr h) (by simp [hcontainer])
      | blob h => exact absurd (isAbsolute_iff.mpr h) (by simp [hblob])
      | back h => exact hback h
      | dot h => exact hdot h
    · intro hs
      exact ⟨⟨Bool.eq_false_iff.mpr fun h => hs (.container (isAbsolute_iff.mp h)),
        fun h => hs (.dot h)⟩, fun h => hs (.back h)⟩

/-- **The paths that are refused**, by the segments of container and blob. -/
theorem pathUnder?_eq_none_iff : pathUnder? root l = none ↔ Strays l := by
  rw [pathUnder?, ite_eq_right_iff, isName_iff_not_strays]
  simp

theorem pathUnder?_eq_some_iff : pathUnder? root l = some path ↔
    ¬ Strays l ∧ Path.join root (relativePath l) = path := by
  rw [pathUnder?, Option.ite_none_right_eq_some, isName_iff_not_strays, Option.some.injEq]

/-- What a path is that keeps a blob under a root. -/
structure Contained (root : List Char) (l : Location) (path : List Char) : Prop where
  /-- It says what the root says, and then nothing but the blob's names. -/
  components : Path.components path = Path.components root ++ (names l).map .name
  /-- By its text it leads to these names under the place that the root leads to. -/
  resolved : ∀ place, Path.resolve place (Path.components path) =
    Path.resolve place (Path.components root) ++ names l
  /-- In no tree of files does it lead anywhere else. -/
  walked : ∀ (tree : FileTree) (place target : List FileName),
    tree.walk place (Path.segments path) = .ok target →
      ∃ base, tree.walk place (Path.segments root) = .ok base ∧ target = base ++ names l

theorem contained (h : pathUnder? root l = some path) : Contained root l path := by
  obtain ⟨hs, rfl⟩ := pathUnder?_eq_some_iff.mp h
  obtain ⟨hfront, hback⟩ := Path.all_isName_iff.mp (isName_iff_not_strays.mpr hs)
  have habs := (Path.front_eq_nil_iff.mp hfront).1
  have hnames : Path.names (Path.segments (relativePath l)) = names l :=
    names_relativePath (Bool.eq_false_iff.mpr fun h => hs (.blob (isAbsolute_iff.mp h)))
  have hcomponents : Path.components (Path.join root (relativePath l)) =
      Path.components root ++ (names l).map .name := by
    rw [Path.components_join hfront, ← hnames, ← Path.filterMap_component? hback]
    congr 1
    rw [Path.components, hfront, List.nil_append]
  exact {
    components := hcomponents
    resolved := fun place => by rw [hcomponents, Path.resolve_append, Path.resolve_names]
    walked := fun tree place target hwalk => by
      rw [FileTree.walk_join habs] at hwalk
      obtain ⟨base, hbase, hrest⟩ := FileTree.walk_append_eq_ok hwalk
      exact ⟨base, hbase, by rw [FileTree.walk_eq_ok hback hrest, hnames]⟩ }

/-! ## Opening a blob -/

variable {s : Store} {tree : FileTree} {offset : UInt64} {entry : FileEntry}

/-- A path that strays is refused before a file is touched, and no other is refused so. -/
theorem openAt_eq_escapes_iff :
    s.openAt tree l offset = .error (.escapes l) ↔ Strays l := by
  rw [← @pathUnder?_eq_none_iff l s.root]
  unfold openAt filePath?
  cases pathUnder? s.root l with
  | none => simp
  | some path =>
    cases ho : tree.openPath path with
    | error e => simp [ho]
    | ok entry => by_cases hoff : maxOffset < offset.toNat <;> simp [ho, hoff]

/-- What is opened lies under the root. -/
theorem exists_base_of_openAt (h : s.openAt tree l offset = .ok entry) :
    ∃ base, tree.walk [] (Path.segments s.root) = .ok base ∧
      tree.entry? (base ++ names l) = some entry := by
  obtain ⟨-, path, hpath, hopen⟩ := openAt_eq_ok_iff.mp h
  obtain ⟨place, hwalk, hentry⟩ := FileTree.openPath_eq_ok hopen
  obtain ⟨base, hbase, rfl⟩ := (contained hpath).walked tree [] place hwalk
  exact ⟨base, hbase, hentry⟩

/-- What a store does with the path of a blob, whatever files there are. -/
structure Confines (s : Store) (l : Location) : Prop where
  /-- A path that strays is no valid input: nothing is opened, and nothing is written. -/
  refuses : Strays l → ∀ (tree : FileTree) (schedule : Schedule) (offset : UInt64)
    (buffer : Buffer), ∃ e, s.readInto tree schedule l offset buffer = (buffer, .error e) ∧
      e.kind = .invalidInput ∧ e.message? = some ("blob path escapes the store: " ++ l.toUri)
  /-- No other path is refused for that. -/
  refused : ∀ (tree : FileTree) (offset : UInt64),
    s.openAt tree l offset = .error (.escapes l) → Strays l
  /-- What is opened is the entry of the blob's names under the place of the root. -/
  opens : ∀ (tree : FileTree) (offset : UInt64) (entry : FileEntry),
    s.openAt tree l offset = .ok entry →
      ∃ base, tree.walk [] (Path.segments s.root) = .ok base ∧
        tree.entry? (base ++ names l) = some entry

theorem confines (s : Store) (l : Location) : s.Confines l where
  refuses hs tree schedule offset buffer := by
    refine ⟨.escapes l, ?_, rfl, rfl⟩
    unfold readInto
    rw [openAt_eq_escapes_iff.mpr hs]
  refused _ _ h := openAt_eq_escapes_iff.mp h
  opens _ _ _ h := exists_base_of_openAt h

/-- **A blob's path is refused, or it stays under the root**, and no store opens anything else. -/
theorem stays_under (root : List Char) (l : Location) :
    (pathUnder? root l = none ↔ Strays l) ∧
      (∀ path, pathUnder? root l = some path → Contained root l path) ∧
      ∀ s : Store, s.Confines l :=
  ⟨pathUnder?_eq_none_iff, fun _ => contained, fun s => s.confines l⟩

/-- Dots and empty segments are dropped behind the front, and refused at the front. -/
theorem stays_under_dots :
    pathUnder? "/s/".toList ⟨"c", "./a//b"⟩ = some "/s/c/./a//b".toList ∧
      Contained "/s/".toList ⟨"c", "./a//b"⟩ "/s/c/./a//b".toList ∧
      names ⟨"c", "./a//b"⟩ = [['c'], ['a'], ['b']] ∧ Strays ⟨"", "./a"⟩ := by
  have hpath : pathUnder? "/s/".toList ⟨"c", "./a//b"⟩ = some "/s/c/./a//b".toList := by decide
  obtain ⟨-, hcontained, -⟩ := stays_under "/s/".toList ⟨"c", "./a//b"⟩
  obtain ⟨hstrays, -, -⟩ := stays_under "/s".toList ⟨"", "./a"⟩
  exact ⟨hpath, hcontained _ hpath, by decide, hstrays.mp (by decide)⟩

end Store

end RangeFetch
