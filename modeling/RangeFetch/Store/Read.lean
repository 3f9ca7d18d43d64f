import RangeFetch.Buffer
import RangeFetch.Store

/-!
# Reading from a store

One transfer: a blob's file is opened and sought to an offset, then read until the buffer is full or
the file ends. The system may give less than asked for at each read, but at least one byte while
there are bytes; which it gives is the `schedule`.

It is `read_range` of `LocalBlobStore` (section B.2).

Headlines:
* **`readAll`** is the loop of reads, `Store.readInto` the transfer into a buffer, and
  `Store.fetch` the bytes and the outcome that such a transfer has.
-/

namespace RangeFetch

/-- How many bytes the system would like to give at each read. -/
abbrev Schedule := Nat → Nat

namespace Schedule

/-- A system that gives all it is asked for. -/
def eager : Schedule := fun _ => UInt64.size

/-- What the `k`th read gives when `want` bytes are asked for and `left` are there. -/
def grant (schedule : Schedule) (k want left : Nat) : Nat :=
  min (max 1 (schedule k)) (min want left)

end Schedule

/-- Reads from `position` on until the buffer, of which `filled` bytes are written, is full or the
content ends. Gives the buffer and the number of bytes that are written. -/
def readAll (content : Array UInt8) (schedule : Schedule) (k position : Nat) (buffer : Buffer)
    (filled : Nat) : Buffer × Nat :=
  if filled < buffer.size then
    let n := schedule.grant k (buffer.size - filled) (content.size - position)
    if n = 0 then (buffer, filled)
    else
      readAll content schedule (k + 1) (position + n)
        (buffer.write filled (content.extract position (position + n)).toList) (filled + n)
  else (buffer, filled)
termination_by buffer.size - filled
decreasing_by
  rw [Buffer.size_write]
  omega

namespace Store

/-- The largest offset that a file can be sought to: all that 63 bits hold. -/
def maxOffset : Nat := 0x7FFFFFFFFFFFFFFF

/-- Opens the file of a blob at an offset. -/
def openAt (s : Store) (tree : FileTree) (l : Location) (offset : UInt64) :
    Except StoreError FileEntry :=
  match s.filePath? l with
  | none => .error (.escapes l)
  | some path =>
    match tree.openPath path with
    | .error e => .error (.file e)
    | .ok entry => if maxOffset < offset.toNat then .error (.file .invalidInput) else .ok entry

/-- Transfers bytes of a blob from an offset on into a buffer. -/
def readInto (s : Store) (tree : FileTree) (schedule : Schedule) (l : Location) (offset : UInt64)
    (buffer : Buffer) : Buffer × Except StoreError Nat :=
  match s.openAt tree l offset with
  | .error e => (buffer, .error e)
  | .ok .directory =>
    (buffer, if buffer.size = 0 then .ok 0 else .error (.file .isADirectory))
  | .ok (.file content) =>
    let (buffer', filled) := readAll content schedule 0 offset.toNat buffer 0
    (buffer', .ok filled)

/-- The bytes that a transfer of `size` bytes writes, and its outcome. -/
def fetch (s : Store) (tree : FileTree) (schedule : Schedule) (l : Location) (offset : UInt64)
    (size : Nat) : List UInt8 × Except StoreError Nat :=
  let (buffer, outcome) := s.readInto tree schedule l offset (.filled size 0)
  match outcome with
  | .ok filled => ((buffer.extract 0 filled).toList, .ok filled)
  | .error e => ([], .error e)

end Store

end RangeFetch
