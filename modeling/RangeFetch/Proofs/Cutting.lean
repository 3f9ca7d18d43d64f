import RangeFetch.Proofs.Tiling

/-!
# Where the chunks of a range lie

The chunks of a range are told by their number: chunk `i` lies `i` chunk sizes behind the start of
the range and is as long as a chunk, except the last one, which takes what remains. The cutting gets
there by a running offset and a running remainder, both words. In `cutChecked?` it is written with
its counter, and every sum and difference is one that must not leave the words; on a range that
`Fits` none does, also where the range ends with the last word.

Headlines:
* **`ByteRange.cutChecked?_eq`**: checked and wrapping arithmetic cut a range that fits alike.
* **`ByteRange.getElem?_cut`**: offset and length of a chunk from its number.
* **`ByteRange.isCutting_chunks`**: the chunks of a range are what it is to be cut into, as long as
  a list has room for them; `no_chunks_of_single_bytes` is a range with too many.
-/

namespace RangeFetch

/-! ## Checked words -/

namespace Checked

/-- The sum of two words, if it is a word. -/
def add? (a b : UInt64) : Option UInt64 :=
  if a.toNat + b.toNat < UInt64.size then some (a + b) else none

/-- The difference of two words, if it is not below zero. -/
def sub? (a b : UInt64) : Option UInt64 :=
  if b.toNat ≤ a.toNat then some (a - b) else none

theorem toNat_add {a b : UInt64} (h : a.toNat + b.toNat < UInt64.size) :
    (a + b).toNat = a.toNat + b.toNat := by
  rw [UInt64.toNat_add]
  exact Nat.mod_eq_of_lt h

/-- A checked sum is the sum of the numbers. -/
theorem add?_eq_some_iff {a b c : UInt64} : add? a b = some c ↔ a.toNat + b.toNat = c.toNat := by
  unfold add?
  by_cases h : a.toNat + b.toNat < UInt64.size
  · rw [if_pos h, Option.some.injEq, ← UInt64.toNat_inj, toNat_add h]
  · have hc : c.toNat < UInt64.size := c.toNat_lt
    rw [if_neg h]
    exact ⟨fun hn => absurd hn (by simp), fun hn => absurd (hn ▸ hc) h⟩

/-- A checked difference is the difference of the numbers. -/
theorem sub?_eq_some_iff {a b c : UInt64} : sub? a b = some c ↔ c.toNat + b.toNat = a.toNat := by
  unfold sub?
  by_cases h : b.toNat ≤ a.toNat
  · rw [if_pos h, Option.some.injEq, ← UInt64.toNat_inj,
      UInt64.toNat_sub_of_le _ _ (UInt64.le_iff_toNat_le.mpr h)]
    omega
  · rw [if_neg h]
    exact ⟨fun hn => absurd hn (by simp), fun hn => absurd (hn ▸ Nat.le_add_left ..) h⟩

end Checked

namespace ByteRange

/-! ## The cutting with its counter -/

/-- `n` turns of the cutting into `count` chunks, from chunk `i` on. A sum or difference that is no
word ends the cutting without a result. -/
def cutFrom? (size count : UInt64) : (n : Nat) → (i offset remaining : UInt64) →
    Option (List ByteRange)
  | 0, _, _, _ => some []
  | n + 1, i, offset, remaining => do
    let last ← Checked.sub? count 1
    let length := if i = last then remaining else size
    let next ← Checked.add? i 1
    if next < count then
      let offset' ← Checked.add? offset length
      let remaining' ← Checked.sub? remaining length
      return ⟨offset, length⟩ :: (← cutFrom? size count n next offset' remaining')
    else
      return ⟨offset, length⟩ :: (← cutFrom? size count n next offset remaining)

/-- The cutting of a range in checked arithmetic. -/
def cutChecked? (r : ByteRange) (size : UInt64) : Option (List ByteRange) :=
  let count := max 1 (r.length / size)
  cutFrom? size count count.toNat 0 r.offset r.length

variable {size count : UInt64}

/-- The number of chunks is a word. -/
theorem toNat_count (r : ByteRange) (size : UInt64) :
    (max 1 (r.length / size)).toNat = r.chunkCount size := by
  show (if 1 ≤ r.length / size then r.length / size else 1).toNat =
    if 1 ≤ (r.length / size).toNat then (r.length / size).toNat else 1
  exact apply_ite ..

/-- As long as there is room for the chunks that are to come, no sum and no difference leaves the
words, and the chunks are those of the wrapping arithmetic. -/
theorem cutFrom?_eq {n : Nat} {i offset remaining : UInt64} (hn : 0 < n)
    (hi : i.toNat + n = count.toNat) (hr : n * size.toNat ≤ remaining.toNat ∨ n = 1)
    (hf : offset.toNat + remaining.toNat < UInt64.size) :
    cutFrom? size count n i offset remaining = some (cut size n offset remaining) := by
  fun_induction cut size n offset remaining generalizing i with
  | case1 => exact absurd hn (Nat.lt_irrefl 0)
  | case2 offset remaining =>
    have hlast : Checked.sub? count 1 = some i := Checked.sub?_eq_some_iff.mpr hi
    have hnext : Checked.add? i 1 = some count := Checked.add?_eq_some_iff.mpr hi
    simp [cutFrom?, hlast, hnext]
  | case3 n offset remaining ih =>
    obtain ⟨hle, hsub, hroom⟩ := room_behind hr
    have hcount : count.toNat < UInt64.size := count.toNat_lt
    have hnum : (i + 1).toNat = i.toNat + 1 := Checked.toNat_add (by
      show i.toNat + 1 < UInt64.size
      omega)
    have hnext : Checked.add? i 1 = some (i + 1) := Checked.add?_eq_some_iff.mpr hnum.symm
    have hpos : (offset + size).toNat = offset.toNat + size.toNat := Checked.toNat_add (by omega)
    have hoffset : Checked.add? offset size = some (offset + size) :=
      Checked.add?_eq_some_iff.mpr hpos.symm
    have hremaining : Checked.sub? remaining size = some (remaining - size) := if_pos hle
    obtain ⟨last, hlast⟩ : ∃ last, Checked.sub? count 1 = some last :=
      ⟨_, if_pos (show 1 ≤ count.toNat by omega)⟩
    have hne : i ≠ last := by
      rintro rfl
      have hsum : i.toNat + 1 = count.toNat := Checked.sub?_eq_some_iff.mp hlast
      omega
    have hlt : i + 1 < count := UInt64.lt_iff_toNat_lt.mpr (by omega)
    have hrest := ih (i := i + 1) (Nat.succ_pos n) (by omega) (Or.inl hroom) (by omega)
    rw [cutFrom?]
    simp [hlast, hne, hnext, hlt, hoffset, hremaining, hrest]

/-- **On a range that fits, no sum and no difference of the cutting leaves the words.** -/
theorem cutChecked?_eq {r : ByteRange} (hf : r.Fits) (size : UInt64) :
    r.cutChecked? size = some (r.chunks size) := by
  have hcount := r.toNat_count size
  show cutFrom? size _ (max 1 (r.length / size)).toNat 0 _ _ = _
  rw [hcount]
  refine cutFrom?_eq (r.chunkCount_pos size) ?_ (r.chunkCount_mul_le size) hf
  exact (Nat.zero_add _).trans hcount.symm

/-! ## A chunk from its number -/

/-- Chunk `i` of `n` lies `i` chunk sizes behind the start; the last one takes what remains. -/
theorem getElem?_cut {n i : Nat} {offset remaining : UInt64} {c : ByteRange}
    (hr : n * size.toNat ≤ remaining.toNat ∨ n = 1)
    (hf : offset.toNat + remaining.toNat < UInt64.size)
    (hc : (cut size n offset remaining)[i]? = some c) :
    c.offset.toNat = offset.toNat + i * size.toNat ∧
      (i + 1 < n → c.length = size) ∧
      (i + 1 = n → c.length.toNat + i * size.toNat = remaining.toNat) := by
  fun_induction cut size n offset remaining generalizing i with
  | case1 => exact absurd hc (by simp)
  | case2 offset remaining =>
    obtain ⟨rfl, rfl⟩ : i = 0 ∧ ⟨offset, remaining⟩ = c := by
      simpa [List.getElem?_singleton] using hc
    simp
  | case3 n offset remaining ih =>
    obtain ⟨hle, hsub, hroom⟩ := room_behind hr
    have hoffset : (offset + size).toNat = offset.toNat + size.toNat :=
      Checked.toNat_add (by omega)
    cases i with
    | zero =>
      obtain rfl : ⟨offset, size⟩ = c := by simpa using hc
      simp
    | succ i =>
      obtain ⟨h1, h2, h3⟩ := ih (Or.inl hroom) (by omega) (by simpa using hc)
      rw [Nat.succ_mul]
      exact ⟨by omega, fun hi => h2 (by omega), fun hi => by have := h3 (by omega); omega⟩

/-! ## What a range is to be cut into -/

/-- Position `p` of the blob is in the range. -/
def Contains (r : ByteRange) (p : Nat) : Prop :=
  r.offset.toNat ≤ p ∧ p < r.offset.toNat + r.length.toNat

/-- Consecutive ranges contain the positions between their ends. -/
theorem Tiles.exists_contains_iff {rs : List ByteRange} {start stop p : Nat}
    (h : Tiles start stop rs) : (∃ c ∈ rs, c.Contains p) ↔ start ≤ p ∧ p < stop := by
  induction rs generalizing start with
  | nil =>
    obtain rfl : start = stop := h
    simp
  | cons r rs ih =>
    obtain ⟨hr, ht⟩ := h
    have hle := ht.start_le
    have hsplit : (∃ c ∈ r :: rs, c.Contains p) ↔ r.Contains p ∨ ∃ c ∈ rs, c.Contains p := by
      simp
    rw [hsplit, ih ht, Contains, hr]
    omega

/-- None of consecutive ranges begins before the first position. -/
theorem Tiles.start_le_of_mem {rs : List ByteRange} {start stop : Nat} (h : Tiles start stop rs)
    {d : ByteRange} (hd : d ∈ rs) : start ≤ d.offset.toNat := by
  induction rs generalizing start with
  | nil => exact absurd hd List.not_mem_nil
  | cons r rs ih =>
    obtain ⟨hr, ht⟩ := h
    rcases List.mem_cons.mp hd with rfl | hd
    · exact Nat.le_of_eq hr.symm
    · exact Nat.le_trans (Nat.le_add_right ..) (ih ht hd)

/-- Each of consecutive ranges ends before the later ones begin. -/
theorem Tiles.pairwise {rs : List ByteRange} {start stop : Nat} (h : Tiles start stop rs) :
    rs.Pairwise fun c d => c.offset.toNat + c.length.toNat ≤ d.offset.toNat := by
  induction rs generalizing start with
  | nil => exact List.Pairwise.nil
  | cons r rs ih =>
    obtain ⟨hr, ht⟩ := h
    refine List.pairwise_cons.mpr ⟨fun d hd => ?_, ih ht⟩
    rw [hr]
    exact ht.start_le_of_mem hd

/-- No position is in two of consecutive ranges. -/
theorem Tiles.contains_unique {rs : List ByteRange} {start stop p i j : Nat} {c d : ByteRange}
    (h : Tiles start stop rs) (hc : rs[i]? = some c) (hd : rs[j]? = some d) (hcp : c.Contains p)
    (hdp : d.Contains p) : i = j := by
  -- The earlier of two ranges ends before the later one begins.
  have hnot : ∀ {i j : Nat} {c d : ByteRange}, rs[i]? = some c → rs[j]? = some d →
      c.Contains p → d.Contains p → ¬ i < j := by
    intro i j c d hc hd hcp hdp hij
    obtain ⟨hi, rfl⟩ := List.getElem?_eq_some_iff.mp hc
    obtain ⟨hj, rfl⟩ := List.getElem?_eq_some_iff.mp hd
    have hends := List.pairwise_iff_getElem.mp h.pairwise i j hi hj hij
    exact absurd (Nat.lt_of_lt_of_le hcp.2 hends) (Nat.not_lt.mpr hdp.1)
  exact Nat.le_antisymm (Nat.le_of_not_lt (hnot hd hc hdp hcp))
    (Nat.le_of_not_lt (hnot hc hd hcp hdp))

/-- What `cs` must be to be the chunks of the range, `size` bytes each. -/
structure IsCutting (r : ByteRange) (size : UInt64) (cs : List ByteRange) : Prop where
  /-- There are as many as whole chunks go into the range, and at least one. -/
  count : cs.length = max 1 (r.length.toNat / size.toNat)
  /-- Each begins as many chunk sizes behind the start as there are chunks before it. -/
  offset : ∀ {i : Nat} {c : ByteRange}, cs[i]? = some c →
    c.offset.toNat = r.offset.toNat + i * size.toNat
  /-- All but the last are as long as a chunk. -/
  full : ∀ {i : Nat} {c : ByteRange}, cs[i]? = some c → i + 1 < cs.length → c.length = size
  /-- The last is what the others leave: less than two chunks, and no less than a chunk when the
  range is no less. -/
  last : ∃ c, cs.getLast? = some c ∧
    c.length.toNat + size.toNat * (cs.length - 1) = r.length.toNat ∧
    c.length.toNat < 2 * size.toNat ∧ (size ≤ r.length → size ≤ c.length)
  /-- They follow one another from the start of the range to its end. -/
  consecutive : Tiles r.offset.toNat (r.offset.toNat + r.length.toNat) cs
  /-- The positions in them are those of the range. -/
  union : ∀ p, (∃ c ∈ cs, c.Contains p) ↔ r.Contains p
  /-- No position is in two of them. -/
  once : ∀ {p i j : Nat} {c d : ByteRange}, cs[i]? = some c → cs[j]? = some d →
    c.Contains p → d.Contains p → i = j

/-- What is left behind all but one of the whole chunks of `n` positions is less than two. -/
theorem lt_two_mul_of_rest {n size rest : Nat} (hs : 0 < size)
    (h : rest + (max 1 (n / size) - 1) * size = n) :
    rest < 2 * size ∧ (size ≤ n → size ≤ rest) := by
  have hmod : n % size < size := Nat.mod_lt n hs
  have hdiv : n / size * size + n % size = n := Nat.div_add_mod' n size
  rcases Nat.eq_zero_or_pos (n / size) with h0 | hpos
  · have hlt : n < size := by
      rw [h0, Nat.zero_mul] at hdiv
      omega
    rw [h0, show max 1 0 - 1 = 0 from rfl, Nat.zero_mul, Nat.add_zero] at h
    exact ⟨by omega, by omega⟩
  · rw [Nat.max_eq_right hpos] at h
    have hstep : (n / size - 1) * size + size = n / size * size := by
      rw [← Nat.succ_mul, Nat.succ_eq_add_one, Nat.sub_add_cancel hpos]
    exact ⟨by omega, by omega⟩

/-- The number of chunks in numbers. -/
theorem chunkCount_eq (r : ByteRange) (size : UInt64) :
    r.chunkCount size = max 1 (r.length.toNat / size.toNat) := by
  rw [chunkCount, UInt64.toNat_div]

/-- **The chunks of a range that fits are what it is to be cut into**, and the cutting gets there
without a sum or a difference that is no word. They are the result if a list has room for so many;
if not, there is none. -/
theorem isCutting_chunks {r : ByteRange} {size : UInt64} (hs : size ≠ 0) (hf : r.Fits) :
    (r.chunkCount size ≤ maxChunks → r.chunks? size = .ok (r.chunks size)) ∧
      (maxChunks < r.chunkCount size → r.chunks? size = .error .capacityOverflow) ∧
      r.cutChecked? size = some (r.chunks size) ∧ r.IsCutting size (r.chunks size) := by
  have hroom := r.chunkCount_mul_le size
  have htiles := r.chunks_tile hf size
  have hlength := r.length_chunks size
  have hpos := r.chunkCount_pos size
  have hsize : 0 < size.toNat :=
    Nat.pos_of_ne_zero fun h => hs (UInt64.toNat_inj.mp (by simpa using h))
  refine ⟨fun hroom => ?_, fun hover => ?_, cutChecked?_eq hf size, ?_⟩
  · rw [chunks?, if_neg hs, if_neg (Nat.not_lt.mpr hroom)]
  · rw [chunks?, if_neg hs, if_pos hover]
  exact {
    count := hlength.trans (r.chunkCount_eq size)
    offset := fun hc => (getElem?_cut hroom hf hc).1
    full := fun hc hi => (getElem?_cut hroom hf hc).2.1 (hlength ▸ hi)
    last := by
      obtain ⟨c, hc⟩ : ∃ c, (r.chunks size)[r.chunkCount size - 1]? = some c :=
        ⟨_, List.getElem?_eq_getElem (by omega)⟩
      have hrest := (getElem?_cut hroom hf hc).2.2 (Nat.sub_add_cancel hpos)
      have hbounds := lt_two_mul_of_rest hsize (r.chunkCount_eq size ▸ hrest)
      refine ⟨c, ?_, ?_, hbounds.1, fun h => ?_⟩
      · rw [List.getLast?_eq_getElem?, hlength, hc]
      · rw [hlength, Nat.mul_comm, hrest]
      · exact UInt64.le_iff_toNat_le.mpr (hbounds.2 (UInt64.le_iff_toNat_le.mp h))
    consecutive := htiles
    union := fun _ => htiles.exists_contains_iff
    once := fun hc hd => htiles.contains_unique hc hd }

/-- Ten bytes up to the last word are two chunks of four bytes, the second with what remains. -/
theorem isCutting_chunks_at_end :
    (ByteRange.mk 0xFFFFFFFFFFFFFFF5 10).chunks? 4 =
        .ok [⟨0xFFFFFFFFFFFFFFF5, 4⟩, ⟨0xFFFFFFFFFFFFFFF9, 6⟩] ∧
      (ByteRange.mk 0xFFFFFFFFFFFFFFF5 10).cutChecked? 4 =
        some [⟨0xFFFFFFFFFFFFFFF5, 4⟩, ⟨0xFFFFFFFFFFFFFFF9, 6⟩] ∧
      (ByteRange.mk 0xFFFFFFFFFFFFFFF5 10).IsCutting 4
        [⟨0xFFFFFFFFFFFFFFF5, 4⟩, ⟨0xFFFFFFFFFFFFFFF9, 6⟩] := by
  obtain ⟨hresult, -, hchecked, hcut⟩ :=
    isCutting_chunks (r := ⟨0xFFFFFFFFFFFFFFF5, 10⟩) (show (4 : UInt64) ≠ 0 by decide) (by decide)
  have heq : (ByteRange.mk 0xFFFFFFFFFFFFFFF5 10).chunks 4 =
      [⟨0xFFFFFFFFFFFFFFF5, 4⟩, ⟨0xFFFFFFFFFFFFFFF9, 6⟩] := by decide
  rw [heq] at hresult hchecked hcut
  exact ⟨hresult (by decide), hchecked, hcut⟩

/-- A range of all positions but the last one fits and has a cutting into single bytes, but no list
has room for so many chunks. -/
theorem no_chunks_of_single_bytes :
    (ByteRange.mk 0 0xFFFFFFFFFFFFFFFF).Fits ∧
      (ByteRange.mk 0 0xFFFFFFFFFFFFFFFF).chunks? 1 = .error .capacityOverflow ∧
      ¬ ∃ cs, (ByteRange.mk 0 0xFFFFFFFFFFFFFFFF).chunks? 1 = .ok cs ∧
        (ByteRange.mk 0 0xFFFFFFFFFFFFFFFF).IsCutting 1 cs := by
  have hover : (ByteRange.mk 0 0xFFFFFFFFFFFFFFFF).chunks? 1 = .error .capacityOverflow := by
    rw [chunks?, if_neg (by decide), if_pos (by decide)]
  refine ⟨by decide, hover, ?_⟩
  rintro ⟨cs, hcs, -⟩
  rw [hover] at hcs
  exact absurd hcs (by simp)

end ByteRange

end RangeFetch
