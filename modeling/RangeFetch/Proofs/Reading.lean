import RangeFetch.Proofs.PartialReads
import RangeFetch.Proofs.Tiling
import RangeFetch.Transfer.Primitive

/-!
# What a transfer from a store leaves

However much the system gives at each read, the loop of reads ends when the buffer is full or the
content is through, and position `j` of the buffer then has the byte that stands `j` behind the
offset, if there is one. A transfer therefore has no say in what it leaves: `Store.byte?` is that
byte, and the transfer is complete exactly when it is `Readable`.

Headlines:
* **`readAll_snd`**, **`getElem?_readAll`**: what the loop counts and what it leaves.
* **`getElem?_readInto`**, **`readInto_eq_ok_iff`**: the same of a transfer.
* **`Readable.slice`**, **`Readable.of_slices`**: a range of a small file can be read exactly when
  all of its parts can.
-/

namespace RangeFetch

/-! ## The loop of reads -/

section Loop

variable (content : Array UInt8) (schedule : Schedule) (k position : Nat) (buffer : Buffer)
  (filled : Nat)

theorem size_readAll :
    (readAll content schedule k position buffer filled).1.size = buffer.size := by
  rw [readAll_eq_finish]
  exact ReadLoop.size_advance

/-- The loop counts what fits into the buffer of what is left of the content. -/
theorem readAll_snd :
    (readAll content schedule k position buffer filled).2 =
      filled + min (buffer.size - filled) (content.size - position) := by
  rw [readAll_eq_finish]
  rfl

/-- The loop leaves the bytes of the content, one after the other. -/
theorem getElem?_readAll {i : Nat} (hi : i < buffer.size) :
    (readAll content schedule k position buffer filled).1[i]? =
      (if filled ≤ i then content[position + (i - filled)]? else none).or buffer[i]? := by
  have hcount : (ReadLoop.finish content ⟨position, buffer, filled⟩).filled =
      filled + min (buffer.size - filled) (content.size - position) := rfl
  rw [readAll_eq_finish, ReadLoop.getElem?_finish hi, hcount]
  show (if filled ≤ i ∧ i < _ then content[position + (i - filled)]? else buffer[i]?) = _
  by_cases hle : filled ≤ i
  · by_cases hin : position + (i - filled) < content.size
    · rw [if_pos (by omega), if_pos hle, Array.getElem?_eq_getElem hin, Option.some_or]
    · rw [if_neg (by omega), if_pos hle, Array.getElem?_eq_none (Nat.le_of_not_lt hin),
        Option.none_or]
  · rw [if_neg (fun h => hle h.1), if_neg hle, Option.none_or]

end Loop

/-! ## Transfers -/

/-- Every file is shorter than 2^63 bytes: it can be sought to each of its bytes, and to its end. -/
def FileTree.Small (tree : FileTree) : Prop :=
  ∀ place content, (place, FileEntry.file content) ∈ tree.entries → content.size ≤ Store.maxOffset

/-- What is opened is the entry that the path is walked to. -/
theorem FileTree.openPath_eq_ok {tree : FileTree} {path : List Char} {entry : FileEntry}
    (h : tree.openPath path = .ok entry) :
    ∃ place, tree.walk [] (Path.segments path) = .ok place ∧ tree.entry? place = some entry := by
  unfold openPath at h
  split at h
  · exact absurd h (by simp)
  · split at h
    · exact absurd h (by simp)
    · split at h
      · exact absurd h (by simp)
      · rename_i place hwalk
        cases he : tree.entry? place with
        | none => simp [he] at h
        | some entry' => exact ⟨place, hwalk, by simpa [he] using h⟩

namespace Store

variable {s : Store} {tree : FileTree} {l : Location} {offset offset' : UInt64}

/-- The byte that a transfer from `offset` on puts at position `j`, if it puts one there. -/
def byte? (s : Store) (tree : FileTree) (l : Location) (offset : UInt64) (j : Nat) :
    Option UInt8 :=
  match s.openAt tree l offset with
  | .ok (.file content) => content[offset.toNat + j]?
  | .ok .directory | .error _ => none

/-- A transfer of `n` bytes from `offset` on gets all of them. -/
structure Readable (s : Store) (tree : FileTree) (l : Location) (offset : UInt64) (n : Nat) :
    Prop where
  opens : ∃ entry, s.openAt tree l offset = .ok entry
  bytes : ∀ j, j < n → (s.byte? tree l offset j).isSome

theorem size_readInto (schedule : Schedule) (buffer : Buffer) :
    (s.readInto tree schedule l offset buffer).1.size = buffer.size := by
  unfold readInto
  split
  · rfl
  · rfl
  · exact size_readAll ..

/-- **What a transfer leaves**: the bytes that there are, and the old ones where there are none. -/
theorem getElem?_readInto (schedule : Schedule) {buffer : Buffer} {i : Nat}
    (hi : i < buffer.size) :
    (s.readInto tree schedule l offset buffer).1[i]? =
      (s.byte? tree l offset i).or buffer[i]? := by
  unfold readInto byte?
  cases s.openAt tree l offset with
  | error e => rfl
  | ok entry =>
    cases entry with
    | directory => rfl
    | file content =>
      show (readAll content schedule 0 offset.toNat buffer 0).1[i]? = _
      rw [getElem?_readAll content schedule 0 offset.toNat buffer 0 hi, if_pos (Nat.zero_le i)]
      rfl

/-- A transfer counts the bytes that there are. -/
theorem readInto_ok {schedule : Schedule} {buffer : Buffer} {filled : Nat}
    (hr : (s.readInto tree schedule l offset buffer).2 = .ok filled) :
    (∃ entry, s.openAt tree l offset = .ok entry) ∧ filled ≤ buffer.size ∧
      ∀ j, j < buffer.size → ((s.byte? tree l offset j).isSome ↔ j < filled) := by
  unfold readInto at hr
  unfold byte?
  cases ho : s.openAt tree l offset with
  | error e =>
    rw [ho] at hr
    exact absurd hr (by simp)
  | ok entry =>
    rw [ho] at hr
    refine ⟨⟨entry, rfl⟩, ?_⟩
    cases entry with
    | directory =>
      by_cases h0 : buffer.size = 0
      · simp only [h0, if_true, Except.ok.injEq] at hr
        exact ⟨by omega, fun j hj => absurd hj (by omega)⟩
      · simp only [h0, if_false] at hr
        exact absurd hr (by simp)
    | file content =>
      have hcount : (readAll content schedule 0 offset.toNat buffer 0).2 = filled :=
        Except.ok.inj hr
      rw [readAll_snd] at hcount
      refine ⟨by omega, ?_⟩
      intro j hj
      show (content[offset.toNat + j]?).isSome ↔ _
      by_cases hin : offset.toNat + j < content.size
      · rw [Array.getElem?_eq_getElem hin]
        exact iff_of_true rfl (by omega)
      · rw [Array.getElem?_eq_none (Nat.le_of_not_lt hin)]
        exact iff_of_false (by simp) (by omega)

/-- A transfer that fails leaves no byte, and it fails for want of bytes only if it asks for
some. -/
theorem readInto_error {schedule : Schedule} {buffer : Buffer} {e : StoreError}
    (hr : (s.readInto tree schedule l offset buffer).2 = .error e) :
    (∀ j, s.byte? tree l offset j = none) ∧
      (buffer.size = 0 → ∀ entry, s.openAt tree l offset ≠ .ok entry) := by
  unfold readInto at hr
  unfold byte?
  cases ho : s.openAt tree l offset with
  | error e => exact ⟨fun _ => rfl, fun _ entry => by simp⟩
  | ok entry =>
    rw [ho] at hr
    cases entry with
    | directory =>
      refine ⟨fun _ => rfl, ?_⟩
      intro h0
      simp only [h0, if_true] at hr
      exact absurd hr (by simp)
    | file content => exact absurd hr (by simp)

/-- **When a transfer is complete.** -/
theorem readInto_eq_ok_iff (schedule : Schedule) (buffer : Buffer) :
    (s.readInto tree schedule l offset buffer).2 = .ok buffer.size ↔
      s.Readable tree l offset buffer.size := by
  constructor
  · intro hr
    obtain ⟨hopen, -, hbytes⟩ := readInto_ok hr
    exact ⟨hopen, fun j hj => (hbytes j hj).mpr hj⟩
  · rintro ⟨⟨entry, hopen⟩, hbytes⟩
    cases hr : (s.readInto tree schedule l offset buffer).2 with
    | error e =>
      obtain ⟨hnone, hempty⟩ := readInto_error hr
      rcases Nat.eq_zero_or_pos buffer.size with h0 | hpos
      · exact absurd hopen (hempty h0 entry)
      · have hfirst := hbytes 0 hpos
        rw [hnone] at hfirst
        exact absurd hfirst (by simp)
    | ok filled =>
      obtain ⟨-, hle, hiff⟩ := readInto_ok hr
      rcases Nat.lt_or_eq_of_le hle with hlt | rfl
      · exact absurd ((hiff filled hlt).mp (hbytes filled hlt)) (Nat.lt_irrefl _)
      · rfl

/-! ## Replies -/

theorem size_filled (n : Nat) (b : UInt8) : (Buffer.filled n b).size = n :=
  Array.size_replicate

/-- The bytes of a reply are those that there are. -/
theorem getElem?_reply (schedule : Schedule) (call : TransferCall) (j : Nat) :
    (s.reply tree schedule call).bytes[j]? =
      if j < call.length then s.byte? tree call.location call.offset j else none := by
  have hleft (i : Nat) (hi : i < call.length) :
      (s.readInto tree schedule call.location call.offset (.filled call.length 0)).1[i]? =
        (s.byte? tree call.location call.offset i).or (Buffer.filled call.length 0)[i]? :=
    s.getElem?_readInto schedule (by rwa [size_filled])
  have hlen : (s.readInto tree schedule call.location call.offset (.filled call.length 0)).1.size =
      call.length := by
    rw [size_readInto, size_filled]
  unfold reply fetch
  cases hr : s.readInto tree schedule call.location call.offset (.filled call.length 0) with
  | mk buffer outcome =>
    rw [hr] at hleft hlen
    have hsnd := congrArg Prod.snd hr
    cases outcome with
    | error e =>
      show ([] : List UInt8)[j]? = _
      rw [(readInto_error hsnd).1 j, ite_self]
      rfl
    | ok filled =>
      obtain ⟨-, hle, hiff⟩ := readInto_ok hsnd
      rw [size_filled] at hle hiff
      have hsize : buffer.size = call.length := hlen
      show (buffer.extract 0 filled).toList[j]? = _
      rw [Array.getElem?_toList, Array.getElem?_extract, Nat.zero_add]
      by_cases hj : j < call.length
      · rw [if_pos hj]
        by_cases hin : j < filled
        · obtain ⟨b, hb⟩ := Option.isSome_iff_exists.mp ((hiff j hj).mpr hin)
          rw [if_pos (by omega), hleft j hj, hb, Option.some_or]
        · have hnone : s.byte? tree call.location call.offset j = none := by
            rw [← Option.not_isSome_iff_eq_none, hiff j hj]
            exact hin
          rw [if_neg (by omega), hnone]
      · rw [if_neg hj, if_neg (by omega)]

theorem length_reply_le (schedule : Schedule) (call : TransferCall) :
    (s.reply tree schedule call).bytes.length ≤ call.length := by
  refine Nat.le_of_not_lt fun hlt => ?_
  have hin := List.getElem?_eq_getElem hlt
  rw [getElem?_reply, if_neg (Nat.lt_irrefl _)] at hin
  exact absurd hin (by simp)

/-- A reply is a success exactly when all bytes are there. -/
theorem exact_reply_iff (schedule : Schedule) (call : TransferCall) :
    (s.reply tree schedule call).outcome.Exact call.length ↔
      s.Readable tree call.location call.offset call.length := by
  have hread : (s.readInto tree schedule call.location call.offset (.filled call.length 0)).2 =
      .ok call.length ↔ s.Readable tree call.location call.offset call.length := by
    simpa only [size_filled] using s.readInto_eq_ok_iff schedule (.filled call.length 0)
  rw [← hread]
  unfold reply fetch
  cases hr : s.readInto tree schedule call.location call.offset (.filled call.length 0) with
  | mk buffer outcome =>
    cases outcome with
    | error e => simp [Outcome.Exact]
    | ok filled => simp [Outcome.Exact]

/-! ## Parts of a range -/

theorem byte?_eq_some_iff {j : Nat} {b : UInt8} :
    s.byte? tree l offset j = some b ↔
      ∃ content, s.openAt tree l offset = .ok (.file content) ∧
        content[offset.toNat + j]? = some b := by
  unfold byte?
  cases s.openAt tree l offset with
  | error e => simp
  | ok entry => cases entry <;> simp

/-- What is opened can be opened at every offset that a file can be sought to. -/
theorem openAt_of_le {entry : FileEntry} (h : s.openAt tree l offset = .ok entry)
    (hle : offset'.toNat ≤ maxOffset) : s.openAt tree l offset' = .ok entry :=
  openAt_eq_ok_iff.mpr ⟨hle, (openAt_eq_ok_iff.mp h).2⟩

/-- A file that is opened is one of the tree. -/
theorem size_of_openAt (hsmall : tree.Small) {content : Array UInt8}
    (h : s.openAt tree l offset = .ok (.file content)) : content.size ≤ maxOffset := by
  obtain ⟨-, path, -, hopen⟩ := openAt_eq_ok_iff.mp h
  obtain ⟨place, -, hplace⟩ := FileTree.openPath_eq_ok hopen
  unfold FileTree.entry? at hplace
  split at hplace
  · exact absurd hplace (by simp)
  · obtain ⟨⟨place', entry⟩, hfind, rfl⟩ := Option.map_eq_some_iff.mp hplace
    exact hsmall place' content (List.mem_of_find?_eq_some hfind)

/-- In a tree of small files a byte does not depend on the offset that it is read from. -/
theorem byte?_add (hsmall : tree.Small) {start : Nat}
    (hoff : offset'.toNat = offset.toNat + start) (j : Nat) :
    s.byte? tree l offset' j = s.byte? tree l offset (start + j) := by
  have hindex : offset'.toNat + j = offset.toNat + (start + j) := by omega
  refine Option.ext ?_
  intro b
  rw [byte?_eq_some_iff, byte?_eq_some_iff, hindex]
  refine exists_congr fun content => and_congr_left ?_
  intro hb
  constructor
  · intro h
    have hle := (openAt_eq_ok_iff.mp h).1
    exact openAt_of_le h (by omega)
  · intro h
    -- a byte at `offset'` or behind it lies in the file, which ends before 2^63
    have hlt := (Array.getElem?_eq_some_iff.mp hb).1
    have hsize := size_of_openAt hsmall h
    exact openAt_of_le h (by omega)

/-- A part of a range can be read if the range can. -/
theorem Readable.slice (hsmall : tree.Small) {n start length : Nat}
    (h : s.Readable tree l offset n) (hoff : offset'.toNat = offset.toNat + start)
    (hle : start + length ≤ n) : s.Readable tree l offset' length := by
  obtain ⟨⟨entry, hopen⟩, hbytes⟩ := h
  constructor
  · refine ⟨entry, openAt_of_le hopen ?_⟩
    rcases Nat.eq_zero_or_pos n with h0 | hpos
    · have hmax := (openAt_eq_ok_iff.mp hopen).1
      omega
    · obtain ⟨b, hb⟩ := Option.isSome_iff_exists.mp (hbytes (n - 1) (by omega))
      obtain ⟨content, hfile, hin⟩ := byte?_eq_some_iff.mp hb
      have hlt := (Array.getElem?_eq_some_iff.mp hin).1
      have hsize := size_of_openAt hsmall hfile
      omega
  · intro j hj
    rw [byte?_add hsmall hoff]
    exact hbytes (start + j) (by omega)

/-- A range can be read if it has a part that can, and each of its bytes is in one. -/
theorem Readable.of_slices (hsmall : tree.Small) {n : Nat}
    (hpart : ∃ (offset' : UInt64) (length : Nat), offset.toNat ≤ offset'.toNat ∧
      s.Readable tree l offset' length)
    (hcover : ∀ p, p < n → ∃ (offset' : UInt64) (start length : Nat),
      offset'.toNat = offset.toNat + start ∧ start ≤ p ∧ p < start + length ∧
        s.Readable tree l offset' length) : s.Readable tree l offset n := by
  constructor
  · obtain ⟨offset', length, hle, ⟨entry, hopen⟩, -⟩ := hpart
    have hmax := (openAt_eq_ok_iff.mp hopen).1
    exact ⟨entry, openAt_of_le hopen (Nat.le_trans hle hmax)⟩
  · intro p hp
    obtain ⟨offset', start, length, hoff, hle, hlt, hread⟩ := hcover p hp
    have hbyte := hread.bytes (p - start) (by omega)
    rwa [byte?_add hsmall hoff, Nat.add_sub_cancel' hle] at hbyte

end Store

end RangeFetch
