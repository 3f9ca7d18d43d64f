/-!
# Destination buffers

The memory that a request is read into: bytes that the caller hands over and gets back. A transfer
writes a run of bytes at a position; what would fall behind the end is not written.

A `Buffer` is the memory of a `DestinationBuffer`, `ofParts?` its `from_raw_parts`, and `write` what
is done to the slices of its `ChunkBuffer`s.

Headlines:
* **`Buffer.write`** writes a run; `getElem?_write` says what stands where afterwards.
-/

namespace RangeFetch

/-- Bytes of the caller. -/
abbrev Buffer := Array UInt8

namespace Buffer

/-- A buffer of `n` equal bytes. -/
def filled (n : Nat) (b : UInt8) : Buffer :=
  Array.replicate n b

/-- Memory handed over as an address, which may be null, and a length: the buffer is the first
`length` bytes at the address. Null is memory only when the length is zero. -/
def ofParts? (memory : Option Buffer) (length : UInt64) : Option Buffer :=
  match memory with
  | some b => some (b.take length.toNat)
  | none => if length = 0 then some #[] else none

/-- Writes `bytes` from position `start` on. -/
def write (b : Buffer) (start : Nat) : List UInt8 → Buffer
  | [] => b
  | x :: xs => write (b.setIfInBounds start x) (start + 1) xs

@[simp] theorem size_write (b : Buffer) (start : Nat) (bytes : List UInt8) :
    (b.write start bytes).size = b.size := by
  induction bytes generalizing b start with
  | nil => rfl
  | cons x xs ih => rw [write, ih, Array.size_setIfInBounds]

/-- A byte is the written one inside the run and the old one outside. -/
theorem getElem?_write (b : Buffer) (start : Nat) (bytes : List UInt8) (i : Nat) :
    (b.write start bytes)[i]? =
      if start ≤ i ∧ i < start + bytes.length ∧ i < b.size then bytes[i - start]? else b[i]? := by
  induction bytes generalizing b start with
  | nil =>
    rw [write, if_neg]
    simp only [List.length_nil]
    omega
  | cons x xs ih =>
    rw [write, ih, Array.size_setIfInBounds, Array.getElem?_setIfInBounds, List.length_cons]
    by_cases h : start = i
    · subst h
      by_cases hs : start < b.size
      · rw [if_neg (by omega), if_pos rfl, if_pos hs, if_pos (by omega)]
        simp
      · rw [if_neg (by omega), if_pos rfl, if_neg hs, if_neg (by omega)]
        simp [hs]
    · rw [if_neg h]
      by_cases hi : start + 1 ≤ i ∧ i < start + 1 + xs.length ∧ i < b.size
      · rw [if_pos hi, if_pos (by omega), show i - start = (i - (start + 1)) + 1 by omega,
          List.getElem?_cons_succ]
      · rw [if_neg hi, if_neg (by omega)]

/-- Two runs that are written one behind the other are one run. -/
theorem write_append (b : Buffer) (start : Nat) (xs ys : List UInt8) :
    (b.write start xs).write (start + xs.length) ys = b.write start (xs ++ ys) := by
  induction xs generalizing b start with
  | nil => rfl
  | cons x xs ih =>
    rw [List.cons_append, write, write, ← ih, List.length_cons, Nat.add_assoc, Nat.add_comm 1]

end Buffer

end RangeFetch
