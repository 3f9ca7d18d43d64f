/-!
# Byte ranges

A range of bytes of a blob, cut into chunks. A range of `length` bytes has
`max 1 (length / size)` chunks of `size` bytes; the last one also takes what is left over, so it may
be almost twice as long. Offsets and lengths are 64-bit words and the cutting adds and subtracts
words.

`ByteRange` is the engine's `ObjectRange` and its `ChunkRange`, and `chunks` the loop of
`chunk_ranges` (section 4.1). `Fits` is what `submit_read` checks of a range.

Headlines:
* **`ByteRange.chunks`** cuts a range; `length_chunks` counts the chunks.
-/

namespace RangeFetch

/-- `length` bytes of a blob from `offset` on. -/
structure ByteRange where
  offset : UInt64
  length : UInt64
  deriving DecidableEq, Repr

namespace ByteRange

/-- The first position behind the range is a 64-bit word. -/
def Fits (r : ByteRange) : Prop :=
  r.offset.toNat + r.length.toNat < UInt64.size

instance (r : ByteRange) : Decidable r.Fits :=
  inferInstanceAs (Decidable (_ < _))

/-- How many chunks of `size` bytes the range is cut into. -/
def chunkCount (r : ByteRange) (size : UInt64) : Nat :=
  max 1 (r.length / size).toNat

/-- `n` chunks from `offset` on, of which the last takes all that remains. -/
def cut (size : UInt64) : (n : Nat) → (offset remaining : UInt64) → List ByteRange
  | 0, _, _ => []
  | 1, offset, remaining => [⟨offset, remaining⟩]
  | n + 2, offset, remaining =>
    ⟨offset, size⟩ :: cut size (n + 1) (offset + size) (remaining - size)

/-- The chunks of a range, in order. -/
def chunks (r : ByteRange) (size : UInt64) : List ByteRange :=
  cut size (r.chunkCount size) r.offset r.length

theorem length_cut (size : UInt64) (n : Nat) (offset remaining : UInt64) :
    (cut size n offset remaining).length = n := by
  fun_induction cut size n offset remaining with
  | case1 => rfl
  | case2 => rfl
  | case3 n offset remaining ih => rw [List.length_cons, ih]

theorem length_chunks (r : ByteRange) (size : UInt64) :
    (r.chunks size).length = r.chunkCount size :=
  length_cut ..

theorem chunkCount_pos (r : ByteRange) (size : UInt64) : 0 < r.chunkCount size :=
  Nat.lt_of_lt_of_le Nat.zero_lt_one (Nat.le_max_left ..)

end ByteRange

end RangeFetch
