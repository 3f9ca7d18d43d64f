import RangeFetch.Buffer.Partition

/-!
# Chunks tile their range and slices tile the buffer

The cutting of a range adds and subtracts words. On a range that `Fits` no addition wraps and no
subtraction goes below zero, so that the chunks are consecutive and end where the range ends
(`chunks_tile`). The dealing of a buffer gives each chunk the slice that lies as far behind the
buffer's start as the chunk lies behind the range's (`deal_laid`), and it never asks for more than
is left.

Headlines:
* **`partition_laid`**: on a range that fits, with chunks of at least one byte and a buffer as long
  as the range, the partition exists, its pieces are `Laid` out, and they are the chunks in order.
* What a layout says of its pieces: `Laid.getElem?` (number, offset and bounds), `Laid.pairwise`
  (no two slices share a position), `Laid.exists_covers` (no position is left out).
-/

namespace RangeFetch

/-! ## Chunks -/

namespace ByteRange

/-- The ranges are consecutive, from position `start` up to `stop`. -/
def Tiles : (start stop : Nat) → List ByteRange → Prop
  | start, stop, [] => start = stop
  | start, stop, r :: rs => r.offset.toNat = start ∧ Tiles (start + r.length.toNat) stop rs

theorem Tiles.start_le : ∀ {start stop : Nat} {rs : List ByteRange},
    Tiles start stop rs → start ≤ stop
  | _, _, [], h => Nat.le_of_eq h
  | _, _, _ :: _, ⟨_, h⟩ => Nat.le_trans (Nat.le_add_right ..) (Tiles.start_le h)

/-- Behind the first of several chunks there is room for the others. -/
theorem room_behind {size remaining : UInt64} {n : Nat}
    (hr : (n + 2) * size.toNat ≤ remaining.toNat ∨ n + 2 = 1) :
    size.toNat ≤ remaining.toNat ∧ (remaining - size).toNat = remaining.toNat - size.toNat ∧
      (n + 1) * size.toNat ≤ (remaining - size).toNat := by
  have hle : (n + 1) * size.toNat + size.toNat ≤ remaining.toNat := by
    rw [← Nat.succ_mul]
    rcases hr with hr | hr
    · exact hr
    · omega
  have hsub : (remaining - size).toNat = remaining.toNat - size.toNat :=
    UInt64.toNat_sub_of_le _ _ (UInt64.le_iff_toNat_le.mpr (by omega))
  exact ⟨by omega, hsub, by omega⟩

/-- Chunks that a range has room for tile it; a single chunk takes it all. -/
theorem cut_tiles {size : UInt64} {n : Nat} {offset remaining : UInt64} (hn : 0 < n)
    (hr : n * size.toNat ≤ remaining.toNat ∨ n = 1)
    (hf : offset.toNat + remaining.toNat < UInt64.size) :
    Tiles offset.toNat (offset.toNat + remaining.toNat) (cut size n offset remaining) := by
  fun_induction cut size n offset remaining with
  | case1 => exact absurd hn (Nat.lt_irrefl 0)
  | case2 offset remaining => exact ⟨rfl, rfl⟩
  | case3 n offset remaining ih =>
    obtain ⟨hle, hsub, hroom⟩ := room_behind hr
    have hadd : (offset + size).toNat = offset.toNat + size.toNat := by
      rw [UInt64.toNat_add]
      exact Nat.mod_eq_of_lt (by unfold UInt64.size at hf; omega)
    have hrest := ih (Nat.succ_pos n) (Or.inl hroom) (by omega)
    rw [hadd, hsub, show offset.toNat + size.toNat + (remaining.toNat - size.toNat) =
      offset.toNat + remaining.toNat by omega] at hrest
    exact ⟨rfl, hrest⟩

/-- As many chunks as there are go into the range, unless there is one only. -/
theorem chunkCount_mul_le (r : ByteRange) (size : UInt64) :
    r.chunkCount size * size.toNat ≤ r.length.toNat ∨ r.chunkCount size = 1 := by
  unfold chunkCount
  rw [UInt64.toNat_div]
  rcases Nat.le_total (r.length.toNat / size.toNat) 1 with h | h
  · exact Or.inr (Nat.max_eq_left h)
  · rw [Nat.max_eq_right h]
    exact Or.inl (Nat.div_mul_le_self ..)

/-- **The chunks of a range tile it.** -/
theorem chunks_tile {r : ByteRange} (hf : r.Fits) (size : UInt64) :
    Tiles r.offset.toNat (r.offset.toNat + r.length.toNat) (r.chunks size) :=
  cut_tiles (r.chunkCount_pos size) (r.chunkCount_mul_le size) hf

/-- No chunk is empty, unless the range is. -/
theorem length_pos_of_mem_cut {size : UInt64} (hs : size ≠ 0) {n : Nat}
    {offset remaining : UInt64} (hr : n * size.toNat ≤ remaining.toNat ∨ n = 1)
    (hpos : 0 < remaining.toNat) {c : ByteRange} (hc : c ∈ cut size n offset remaining) :
    0 < c.length.toNat := by
  have hsize : 0 < size.toNat :=
    Nat.pos_of_ne_zero fun h => hs (UInt64.toNat_inj.mp (by simpa using h))
  fun_induction cut size n offset remaining with
  | case1 => exact absurd hc List.not_mem_nil
  | case2 offset remaining =>
    rw [List.mem_singleton.mp hc]
    exact hpos
  | case3 n offset remaining ih =>
    obtain ⟨-, -, hroom⟩ := room_behind hr
    have hone : size.toNat ≤ (n + 1) * size.toNat := Nat.le_mul_of_pos_left _ (Nat.succ_pos n)
    rcases List.mem_cons.mp hc with rfl | hc
    · exact hsize
    · exact ih (Or.inl hroom) (by omega) hc

theorem length_pos_of_mem_chunks {r : ByteRange} {size : UInt64} (hs : size ≠ 0)
    (hpos : 0 < r.length.toNat) {c : ByteRange} (hc : c ∈ r.chunks size) : 0 < c.length.toNat :=
  length_pos_of_mem_cut hs (r.chunkCount_mul_le size) hpos hc

end ByteRange

/-! ## Pieces -/

namespace Piece

/-- Pieces numbered from `i` on, whose chunks are consecutive from `offset` on and whose slices are
consecutive from `start` up to `stop`, each as long as its chunk. -/
def Laid : (i offset start stop : Nat) → List Piece → Prop
  | _, _, start, stop, [] => start = stop
  | i, offset, start, stop, x :: xs =>
    x.index = i ∧ x.range.offset.toNat = offset ∧ x.slice = ⟨start, x.range.length.toNat⟩ ∧
      Laid (i + 1) (offset + x.range.length.toNat) (start + x.range.length.toNat) stop xs

/-- **Dealing consecutive chunks never runs out of buffer**, and lays the pieces out. -/
theorem deal_laid (i start : Nat) {rs : List ByteRange} {a b : Nat} (h : ByteRange.Tiles a b rs) :
    ∃ pieces, deal i ⟨start, b - a⟩ rs = .ok pieces ∧
      Laid i a start (start + (b - a)) pieces := by
  induction rs generalizing i a start with
  | nil =>
    have hab : a = b := h
    exact ⟨[], rfl, show start = start + (b - a) by omega⟩
  | cons r rs ih =>
    obtain ⟨hr, ht⟩ := h
    have hle := ht.start_le
    obtain ⟨pieces, hd, hl⟩ := ih (i + 1) (start + r.length.toNat) ht
    refine ⟨⟨i, r, ⟨start, r.length.toNat⟩⟩ :: pieces, ?_, rfl, hr, rfl, ?_⟩
    · have hsplit : Slice.split ⟨start, b - a⟩ r.length.toNat =
          .ok (⟨start, r.length.toNat⟩,
            ⟨start + r.length.toNat, b - (a + r.length.toNat)⟩) := by
        rw [Slice.split, if_pos (show r.length.toNat ≤ b - a by omega), Nat.sub_add_eq]
      rw [deal, hsplit]
      simp only [hd, Except.map]
    · rwa [show start + r.length.toNat + (b - (a + r.length.toNat)) = start + (b - a) by omega]
        at hl

theorem Laid.start_le : ∀ {pieces : List Piece} {i offset start stop : Nat},
    Laid i offset start stop pieces → start ≤ stop
  | [], _, _, _, _, h => Nat.le_of_eq h
  | _ :: _, _, _, _, _, ⟨_, _, _, h⟩ => Nat.le_trans (Nat.le_add_right ..) (Laid.start_le h)

/-- Number, offset and bounds of a piece of a layout. -/
theorem Laid.getElem? {pieces : List Piece} {i offset start stop k : Nat} {x : Piece}
    (h : Laid i offset start stop pieces) (hx : pieces[k]? = some x) :
    x.index = i + k ∧ x.slice.length = x.range.length.toNat ∧
      x.range.offset.toNat + start = offset + x.slice.start ∧ start ≤ x.slice.start ∧
      x.slice.start + x.slice.length ≤ stop := by
  induction pieces generalizing i offset start k with
  | nil => exact absurd hx (by simp)
  | cons y ys ih =>
    obtain ⟨hi, ho, hs, hl⟩ := h
    cases k with
    | zero =>
      obtain rfl : y = x := by simpa using hx
      have hle := hl.start_le
      rw [hs]
      exact ⟨hi, rfl, by rw [ho], Nat.le_refl _, hle⟩
    | succ k =>
      obtain ⟨h1, h2, h3, h4, h5⟩ := ih hl (by simpa using hx)
      exact ⟨by omega, h2, by omega, by omega, h5⟩

/-- The slices of a layout lie one behind the other. -/
theorem Laid.pairwise {pieces : List Piece} {i offset start stop : Nat}
    (h : Laid i offset start stop pieces) :
    pieces.Pairwise fun x y => x.slice.start + x.slice.length ≤ y.slice.start := by
  induction pieces generalizing i offset start with
  | nil => exact List.Pairwise.nil
  | cons x xs ih =>
    obtain ⟨-, -, hs, hl⟩ := h
    refine List.pairwise_cons.mpr ⟨?_, ih hl⟩
    intro y hy
    obtain ⟨k, hk⟩ := List.mem_iff_getElem?.mp hy
    rw [hs]
    exact (hl.getElem? hk).2.2.2.1

/-- Every position of the buffer is in some slice of the layout. -/
theorem Laid.exists_covers {pieces : List Piece} {i offset start stop p : Nat}
    (h : Laid i offset start stop pieces) (hp : start ≤ p ∧ p < stop) :
    ∃ x ∈ pieces, x.slice.Covers p := by
  induction pieces generalizing i offset start with
  | nil =>
    have hstop : start = stop := h
    omega
  | cons x xs ih =>
    obtain ⟨-, -, hs, hl⟩ := h
    by_cases hx : p < start + x.range.length.toNat
    · refine ⟨x, List.mem_cons_self, ?_⟩
      rw [hs]
      exact ⟨hp.1, hx⟩
    · obtain ⟨y, hy, hc⟩ := ih hl ⟨Nat.le_of_not_lt hx, hp.2⟩
      exact ⟨y, List.mem_cons_of_mem x hy, hc⟩

end Piece

/-- **The partition of a range that fits** into a buffer of its length exists; its pieces are laid
out over the range and the buffer, and they are the chunks in order. -/
theorem partition_laid {r : ByteRange} (hf : r.Fits) {size : UInt64} (hs : size ≠ 0) :
    ∃ pieces, partition r size r.length.toNat = .ok pieces ∧
      Piece.Laid 0 r.offset.toNat 0 r.length.toNat pieces ∧
      pieces.map Piece.range = r.chunks size := by
  obtain ⟨pieces, hd, hl⟩ := Piece.deal_laid 0 0 (r.chunks_tile hf size)
  rw [Nat.add_sub_cancel_left] at hd hl
  rw [Nat.zero_add] at hl
  refine ⟨pieces, ?_, hl, Piece.map_range_deal hd⟩
  rw [partition, if_pos rfl, if_neg hs]
  exact hd

end RangeFetch
