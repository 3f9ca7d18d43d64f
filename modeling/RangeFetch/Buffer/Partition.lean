import RangeFetch.Buffer
import RangeFetch.ByteRange
import RangeFetch.Fault

/-!
# Partitions of a destination buffer

A destination is dealt out to the chunks of its range in order: each chunk gets the next slice, as
long as the chunk. No other way to reach the memory is handed out.

`chunks?` is `chunk_ranges` with its assertion and its reservation of room, `Slice.split` the
`split_at` of a `DestinationBuffer`, `Piece` a `Chunk` with its `ChunkBuffer`; `partition` is called
so in the engine too (section 4.1).

Headlines:
* **`partition`** deals a buffer out; `partition_length`: every chunk of the range gets a slice.
-/

namespace RangeFetch

/-- `length` positions of a buffer from `start` on. -/
structure Slice where
  start : Nat
  length : Nat
  deriving DecidableEq, Repr

namespace Slice

/-- Position `i` of the buffer is in the slice. -/
def Covers (s : Slice) (i : Nat) : Prop :=
  s.start ≤ i ∧ i < s.start + s.length

/-- The first `n` positions and the others. -/
def split (s : Slice) (n : Nat) : Except Fault (Slice × Slice) :=
  if n ≤ s.length then .ok (⟨s.start, n⟩, ⟨s.start + n, s.length - n⟩) else .error .splitPastEnd

end Slice

/-- A chunk of a range with its number and the slice that receives it. -/
structure Piece where
  index : Nat
  range : ByteRange
  slice : Slice
  deriving DecidableEq, Repr

/-- The chunks of a range, for a chunk size that has to be checked. Room for all of them is asked
for before the first one is cut. -/
def ByteRange.chunks? (r : ByteRange) (size : UInt64) : Except Fault (List ByteRange) :=
  if size = 0 then .error .zeroChunkSize
  else if maxChunks < r.chunkCount size then .error .capacityOverflow
  else .ok (r.chunks size)

namespace Piece

/-- Gives the chunks, numbered from `i` on, the next slices of `rest`. -/
def deal : (i : Nat) → (rest : Slice) → List ByteRange → Except Fault (List Piece)
  | _, _, [] => .ok []
  | i, rest, r :: rs =>
    match rest.split r.length.toNat with
    | .error f => .error f
    | .ok (head, tail) => (deal (i + 1) tail rs).map (⟨i, r, head⟩ :: ·)

end Piece

/-- The pieces of a range that is read into a buffer of `length` bytes. They are those of `chunks?`
(`partition_eq_bind`), with room for all of them: a buffer with more bytes than a list has room for
chunks is more than any memory holds. -/
def partition (r : ByteRange) (size : UInt64) (length : Nat) : Except Fault (List Piece) :=
  if length = r.length.toNat then
    if size = 0 then .error .zeroChunkSize else Piece.deal 0 ⟨0, length⟩ (r.chunks size)
  else .error (.bufferMismatch length r.length.toNat)

theorem ByteRange.chunkCount_le (r : ByteRange) (size : UInt64) :
    r.chunkCount size ≤ max 1 r.length.toNat := by
  have hdiv : r.length.toNat / size.toNat ≤ r.length.toNat := Nat.div_le_self ..
  rw [chunkCount, UInt64.toNat_div]
  omega

/-- **A buffer of at most as many bytes as a list has room for chunks** is dealt out to the chunks
that the checked cutting gives, and fails where it fails. -/
theorem partition_eq_bind {r : ByteRange} (size : UInt64) (h : r.length.toNat ≤ maxChunks) :
    partition r size r.length.toNat =
      (r.chunks? size).bind (Piece.deal 0 ⟨0, r.length.toNat⟩) := by
  have hroom : ¬ maxChunks < r.chunkCount size :=
    Nat.not_lt.mpr (Nat.le_trans (r.chunkCount_le size) (Nat.max_le.mpr ⟨by decide, h⟩))
  rw [partition, if_pos rfl, ByteRange.chunks?, if_neg hroom]
  split <;> rfl

theorem Piece.map_range_deal {i : Nat} {rest : Slice} {ranges : List ByteRange}
    {pieces : List Piece} (h : Piece.deal i rest ranges = .ok pieces) :
    pieces.map Piece.range = ranges := by
  induction ranges generalizing i rest pieces with
  | nil =>
    obtain rfl : [] = pieces := by simpa [Piece.deal] using h
    rfl
  | cons r rs ih =>
    rw [Piece.deal] at h
    split at h
    · simp at h
    · rename_i head tail _
      cases hd : Piece.deal (i + 1) tail rs with
      | error f => simp [hd, Except.map] at h
      | ok ps =>
        obtain rfl : (⟨i, r, head⟩ : Piece) :: ps = pieces := by simpa [hd, Except.map] using h
        rw [List.map_cons, ih hd]

theorem partition_length {r : ByteRange} {size : UInt64} {length : Nat} {pieces : List Piece}
    (h : partition r size length = .ok pieces) : pieces.length = r.chunkCount size := by
  unfold partition at h
  split at h
  · split at h
    · simp at h
    · rw [← ByteRange.length_chunks, ← Piece.map_range_deal h, List.length_map]
  · simp at h

end RangeFetch
