import RangeFetch.Proofs.Tiling
import RangeFetch.Session.Step

/-!
# Memory through the slices of a partition

A partition deals a buffer out in slices, and from then on nobody reaches the memory but through
them. `Slice.view` is what is seen through a slice and `Slice.write` is what can be done through it;
`Session.write_eq` says that a transfer does nothing else. Slices that lie `Apart` have nothing to
do with each other: a write through one of them leaves the view through the other. From this and the
layout of the pieces follows what any order of the writes leads to.

Headlines:
* **`Slice.view_write_of_apart`**: the frame of a write.
* **`Piece.Laid.flatMap_view`**: the views through the slices of a layout make up the buffer.
* **`partition_deals`**: the partition of a range exists, and it is the dealing of the buffer to the
  chunks of the range.
-/

namespace RangeFetch

/-! ## One slice -/

namespace Slice

/-- What is seen of a buffer through the slice. -/
def view (s : Slice) (b : Buffer) : List UInt8 :=
  (b.toList.drop s.start).take s.length

/-- Writes `bytes` from position `i` of the slice on. What does not fit is not written. -/
def write (s : Slice) (b : Buffer) (i : Nat) (bytes : List UInt8) : Buffer :=
  b.write (s.start + i) (bytes.take (s.length - i))

/-- The slices have no position in common: one of them ends before the other begins. -/
def Apart (s t : Slice) : Prop :=
  s.start + s.length ≤ t.start ∨ t.start + t.length ≤ s.start

variable {s t : Slice} {b : Buffer}

theorem Apart.symm (h : Apart s t) : Apart t s := Or.symm h

@[simp] theorem size_write (i : Nat) (bytes : List UInt8) : (s.write b i bytes).size = b.size :=
  Buffer.size_write ..

/-- Position `j` of the view is position `j` of the slice. -/
theorem getElem?_view (s : Slice) (b : Buffer) (j : Nat) :
    (s.view b)[j]? = if j < s.length then b[s.start + j]? else none := by
  rw [view, List.getElem?_take, List.getElem?_drop, Array.getElem?_toList]

/-- **The frame of a write**: nothing changes in what is seen through a slice that lies apart. -/
theorem view_write_of_apart (h : Apart s t) (i : Nat) (bytes : List UInt8) :
    t.view (s.write b i bytes) = t.view b := by
  refine List.ext_getElem? fun j => ?_
  rw [getElem?_view, getElem?_view]
  by_cases hj : j < t.length
  · have houtside : ¬ (s.start + i ≤ t.start + j ∧
        t.start + j < s.start + i + (bytes.take (s.length - i)).length ∧ t.start + j < b.size) := by
      rw [List.length_take]
      rcases h with h | h <;> omega
    rw [if_pos hj, if_pos hj, write, Buffer.getElem?_write, if_neg houtside]
  · rw [if_neg hj, if_neg hj]

/-- What fills the slice is seen through it. -/
theorem view_write_self {bytes : List UInt8} (hb : s.start + s.length ≤ b.size)
    (hlen : bytes.length = s.length) : s.view (s.write b 0 bytes) = bytes := by
  refine List.ext_getElem? fun j => ?_
  have htake : bytes.take (s.length - 0) = bytes := List.take_of_length_le (by omega)
  rw [getElem?_view, write, htake, Buffer.getElem?_write]
  by_cases hj : j < s.length
  · rw [if_pos hj, if_pos (by omega), show s.start + j - (s.start + 0) = j by omega]
  · rw [if_neg hj, List.getElem?_eq_none (by omega)]

end Slice

/-- A transfer changes the memory of its request through the slice of its chunk. -/
theorem Session.write_eq {s : Session} {t i : Nat} {bytes : List UInt8} {task : Task}
    (ht : s.tasks[t]? = some task) (hp : task.phase = .running) :
    s.write t i bytes = s.modifyRequest task.request fun q =>
      { q with buffer := task.piece.slice.write q.buffer i bytes } := by
  simp only [Session.write, ht, hp, Slice.write]

/-! ## The slices of several pieces -/

namespace Piece

/-- Fills the slices of the pieces, in this order, each with the contents of its number. -/
def fill (contents : Nat → List UInt8) (b : Buffer) (order : List Piece) : Buffer :=
  order.foldl (fun b x => x.slice.write b 0 (contents x.index)) b

variable {contents : Nat → List UInt8}

@[simp] theorem size_fill (b : Buffer) (order : List Piece) :
    (fill contents b order).size = b.size := by
  induction order generalizing b with
  | nil => rfl
  | cons x xs ih => exact (ih _).trans (Slice.size_write ..)

theorem view_fill_of_apart {s : Slice} {order : List Piece}
    (h : ∀ x ∈ order, Slice.Apart x.slice s) (b : Buffer) :
    s.view (fill contents b order) = s.view b := by
  induction order generalizing b with
  | nil => rfl
  | cons x xs ih =>
    obtain ⟨hx, hxs⟩ := List.forall_mem_cons.mp h
    exact (ih hxs _).trans (Slice.view_write_of_apart hx ..)

/-- Where the slices lie apart, each shows what it was filled with, whatever was filled later. -/
theorem view_fill {b : Buffer} {order : List Piece}
    (hapart : order.Pairwise fun x y => Slice.Apart x.slice y.slice)
    (hin : ∀ x ∈ order, x.slice.start + x.slice.length ≤ b.size)
    (hlen : ∀ x ∈ order, (contents x.index).length = x.slice.length) {y : Piece}
    (hy : y ∈ order) : y.slice.view (fill contents b order) = contents y.index := by
  induction order generalizing b with
  | nil => exact absurd hy List.not_mem_nil
  | cons x xs ih =>
    obtain ⟨hx, hxs⟩ := List.pairwise_cons.mp hapart
    obtain ⟨hinx, hinxs⟩ := List.forall_mem_cons.mp hin
    obtain ⟨hlenx, hlenxs⟩ := List.forall_mem_cons.mp hlen
    rcases List.mem_cons.mp hy with rfl | hy
    · have hlater : ∀ z ∈ xs, Slice.Apart z.slice y.slice := fun z hz => (hx z hz).symm
      exact (view_fill_of_apart hlater _).trans (Slice.view_write_self hinx hlenx)
    · exact ih hxs (fun z hz => by rw [Slice.size_write]; exact hinxs z hz) hlenxs hy

namespace Laid

variable {pieces : List Piece} {i offset start stop : Nat}

/-- **The views through the slices of a layout**, one behind the other, are the part of the buffer
that is laid out. -/
theorem flatMap_view (h : Laid i offset start stop pieces) (b : Buffer) :
    pieces.flatMap (·.slice.view b) = (b.toList.drop start).take (stop - start) := by
  induction pieces generalizing i offset start with
  | nil =>
    obtain rfl : start = stop := h
    simp
  | cons x xs ih =>
    obtain ⟨-, -, hs, hl⟩ := h
    have hle := hl.start_le
    have hsplit : stop - start = x.range.length.toNat + (stop - (start + x.range.length.toNat)) := by
      omega
    rw [List.flatMap_cons, ih hl, hs, hsplit, List.take_add, List.drop_drop, Slice.view]

theorem pairwise_apart (h : Laid i offset start stop pieces) :
    pieces.Pairwise fun x y => Slice.Apart x.slice y.slice :=
  h.pairwise.imp Or.inl

theorem apart (h : Laid i offset start stop pieces) {k l : Nat} {x y : Piece}
    (hx : pieces[k]? = some x) (hy : pieces[l]? = some y) (hne : k ≠ l) :
    Slice.Apart x.slice y.slice := by
  obtain ⟨hk, rfl⟩ := List.getElem?_eq_some_iff.mp hx
  obtain ⟨hl, rfl⟩ := List.getElem?_eq_some_iff.mp hy
  rcases Nat.lt_or_gt_of_ne hne with hlt | hgt
  · exact List.pairwise_iff_getElem.mp h.pairwise_apart k l hk hl hlt
  · exact (List.pairwise_iff_getElem.mp h.pairwise_apart l k hl hk hgt).symm

/-- Filled in any order, a buffer that is laid out whole holds the contents in the order of the
pieces. -/
theorem toList_fill {b : Buffer} (h : Laid i offset 0 b.size pieces) {order : List Piece}
    (hperm : order.Perm pieces) (hlen : ∀ x ∈ pieces, (contents x.index).length = x.slice.length) :
    (fill contents b order).toList = pieces.flatMap fun x => contents x.index := by
  have hin : ∀ x ∈ pieces, x.slice.start + x.slice.length ≤ b.size := by
    intro x hx
    obtain ⟨k, hk⟩ := List.mem_iff_getElem?.mp hx
    exact (h.getElem? hk).2.2.2.2
  have hview : ∀ x ∈ pieces, x.slice.view (fill contents b order) = contents x.index := by
    intro x hx
    refine view_fill ?_ (fun y hy => hin y (hperm.mem_iff.mp hy))
      (fun y hy => hlen y (hperm.mem_iff.mp hy)) (hperm.mem_iff.mpr hx)
    exact (hperm.pairwise_iff Slice.Apart.symm).mpr h.pairwise_apart
  calc (fill contents b order).toList
      = ((fill contents b order).toList.drop 0).take (b.size - 0) := by
        rw [List.drop_zero, List.take_of_length_le (by simp)]
    _ = pieces.flatMap (·.slice.view (fill contents b order)) := (h.flatMap_view _).symm
    _ = pieces.flatMap fun x => contents x.index :=
        congrArg List.flatten (List.map_congr_left hview)

end Laid

end Piece

/-! ## The partition -/

/-- What `pieces` must be to deal a buffer of the range's length to the chunks of the range. -/
structure IsDealing (r : ByteRange) (size : UInt64) (pieces : List Piece) : Prop where
  /-- They are numbered in order, from zero on. -/
  index : ∀ {k : Nat} {x : Piece}, pieces[k]? = some x → x.index = k
  /-- Their ranges are the chunks, in order. -/
  ranges : pieces.map Piece.range = r.chunks size
  /-- Each slice is as long as its chunk and lies in the buffer. -/
  fits : ∀ x ∈ pieces, x.slice.length = x.range.length.toNat ∧
    x.slice.start + x.slice.length ≤ r.length.toNat
  /-- Each position of the buffer is in the slice of one piece and no other. -/
  owner : ∀ p < r.length.toNat, ∃ k x, pieces[k]? = some x ∧ x.slice.Covers p ∧
    ∀ {l : Nat} {y : Piece}, pieces[l]? = some y → y.slice.Covers p → l = k
  /-- Position `j` of a chunk is as far behind the start of the range as position `j` of its slice
  is behind the start of the buffer. -/
  matched : ∀ x ∈ pieces, ∀ p, x.slice.Covers p →
    ∀ j, p = x.slice.start + j → x.range.offset.toNat + j = r.offset.toNat + p
  /-- Whatever fills the slices, and in whatever order: afterwards the buffer holds the contents in
  the order of their numbers. -/
  filled : ∀ {b : Buffer} {contents : Nat → List UInt8} {order : List Piece},
    b.size = r.length.toNat → order.Perm pieces →
    (∀ x ∈ pieces, (contents x.index).length = x.slice.length) →
    (Piece.fill contents b order).toList = (List.range pieces.length).flatMap contents
  /-- A write through one slice changes nothing that is seen through another. -/
  apart : ∀ {k l : Nat} {x y : Piece}, pieces[k]? = some x → pieces[l]? = some y → k ≠ l →
    ∀ (b : Buffer) (i : Nat) (bytes : List UInt8),
      y.slice.view (x.slice.write b i bytes) = y.slice.view b

/-- The numbers of pieces that are numbered in order. -/
theorem Piece.map_index {pieces : List Piece}
    (h : ∀ {k : Nat} {x : Piece}, pieces[k]? = some x → x.index = k) :
    pieces.map Piece.index = List.range pieces.length := by
  refine List.ext_getElem (by simp) fun k hk _ => ?_
  rw [List.getElem_map, List.getElem_range]
  exact h (List.getElem?_eq_getElem _)

/-- **The partition of a range that fits deals a buffer of its length** to the chunks; it is not
asked for a slice that is longer than what is left. -/
theorem partition_deals {r : ByteRange} {size : UInt64} {b : Buffer} (hs : size ≠ 0) (hf : r.Fits)
    (hb : b.size = r.length.toNat) :
    ∃ pieces, partition r size b.size = .ok pieces ∧ IsDealing r size pieces := by
  obtain ⟨pieces, hpartition, hl, hranges⟩ := partition_laid hf hs
  have hindex : ∀ {k : Nat} {x : Piece}, pieces[k]? = some x → x.index = k := fun hx =>
    (hl.getElem? hx).1.trans (Nat.zero_add _)
  refine ⟨pieces, hb ▸ hpartition, ?_⟩
  exact {
    index := hindex
    ranges := hranges
    fits := by
      intro x hx
      obtain ⟨k, hk⟩ := List.mem_iff_getElem?.mp hx
      obtain ⟨-, hlen, -, -, hstop⟩ := hl.getElem? hk
      exact ⟨hlen, hstop⟩
    owner := by
      intro p hp
      obtain ⟨x, hx, hc⟩ := hl.exists_covers ⟨Nat.zero_le p, hp⟩
      obtain ⟨k, hk⟩ := List.mem_iff_getElem?.mp hx
      refine ⟨k, x, hk, hc, fun {l y} hy hcy => ?_⟩
      refine Decidable.byContradiction fun hne => ?_
      have hbeside := hl.apart hy hk hne
      obtain ⟨⟨h1, h2⟩, h3, h4⟩ := And.intro hc hcy
      rcases hbeside with h | h <;> omega
    matched := by
      intro x hx p _ j hj
      obtain ⟨k, hk⟩ := List.mem_iff_getElem?.mp hx
      obtain ⟨-, -, hoffset, -⟩ := hl.getElem? hk
      omega
    filled := by
      intro b contents order hb hperm hlen
      rw [← hb] at hl
      rw [hl.toList_fill hperm hlen, ← Piece.map_index hindex, List.flatMap_map]
    apart := fun hx hy hne _ _ _ => Slice.view_write_of_apart (hl.apart hx hy hne) .. }

/-- Ten bytes in chunks of four: the slices are the first four bytes and the other six, and they
can be filled from behind. -/
theorem partition_deals_ten :
    partition ⟨100, 10⟩ 4 (Buffer.filled 10 0xEE).size =
        .ok [⟨0, ⟨100, 4⟩, ⟨0, 4⟩⟩, ⟨1, ⟨104, 6⟩, ⟨4, 6⟩⟩] ∧
      IsDealing ⟨100, 10⟩ 4 [⟨0, ⟨100, 4⟩, ⟨0, 4⟩⟩, ⟨1, ⟨104, 6⟩, ⟨4, 6⟩⟩] ∧
      (Piece.fill (fun k => if k = 0 then [0, 1, 2, 3] else [4, 5, 6, 7, 8, 9])
          (Buffer.filled 10 0xEE)
          [⟨1, ⟨104, 6⟩, ⟨4, 6⟩⟩, ⟨0, ⟨100, 4⟩, ⟨0, 4⟩⟩]).toList =
        [0, 1, 2, 3, 4, 5, 6, 7, 8, 9] := by
  have hpartition : partition ⟨100, 10⟩ 4 (Buffer.filled 10 0xEE).size =
      .ok [⟨0, ⟨100, 4⟩, ⟨0, 4⟩⟩, ⟨1, ⟨104, 6⟩, ⟨4, 6⟩⟩] := rfl
  obtain ⟨pieces, hpieces, hdealing⟩ :=
    partition_deals (r := ⟨100, 10⟩) (b := Buffer.filled 10 0xEE) (show (4 : UInt64) ≠ 0 by decide)
      (by decide) (by decide)
  obtain rfl := Except.ok.inj (hpartition.symm.trans hpieces)
  exact ⟨hpartition, hdealing, hdealing.filled (by decide) (List.Perm.swap ..) (by decide)⟩

end RangeFetch
