import Mathlib.Algebra.Group.Nat.Defs
import RangeFetch.Store.Read

/-!
# Reads that give less than they are asked for

A read that asks for bytes may give any number of them, as long as it gives one while there is one.
The loop goes on from wherever a read has left it, and one read behind another leaves what a single
read of both their bytes leaves (`ReadLoop.advance_advance`). So any number of reads is one read,
and the reads of a loop that has ended are the one that takes all that fits: how the system cuts
the bytes up shows nowhere.

Headlines:
* **`Schedule.admissible_iff`**: the schedules leave out nothing that a read may give.
* **`Turns.eq_advance`**: any reads are one read, and there are at most as many as bytes.
* **`ReadLoop.ended_or_turn`**: a loop has ended or goes on; **`Turns.eq_finish`**: where it ends.
* **`readAll_eq_finish`**: the loop that runs is one of them.
* **`Store.readInto_exact`**: what a transfer comes to under any reads.
-/

namespace RangeFetch

/-! ## What a read gives -/

/-- What a read that asks for `want` bytes, but not for none, may give when `left` are there. -/
structure Admissible (want left n : Nat) : Prop where
  le_want : n ≤ want
  le_left : n ≤ left
  at_end : n = 0 → left = 0

/-- What a schedule grants may be given. -/
theorem Schedule.admissible_grant (schedule : Schedule) (k left : Nat) {want : Nat}
    (hwant : 0 < want) : Admissible want left (schedule.grant k want left) := by
  unfold grant
  constructor <;> omega

/-- The schedules grant what may be given, all of it and nothing else. -/
theorem Schedule.admissible_iff {k want left n : Nat} (hwant : 0 < want) :
    Admissible want left n ↔ ∃ schedule : Schedule, schedule.grant k want left = n := by
  constructor
  · rintro ⟨hle, hleft, hend⟩
    refine ⟨fun _ => n, ?_⟩
    show min (max 1 n) (min want left) = n
    omega
  · rintro ⟨schedule, rfl⟩
    exact schedule.admissible_grant k left hwant

/-! ## One read behind another -/

/-- Where a loop of reads stands. -/
structure ReadLoop where
  /-- Where the next read starts in the content. -/
  position : Nat
  buffer : Buffer
  /-- How much of the buffer is written. -/
  filled : Nat

namespace ReadLoop

/-- A loop that has read nothing. -/
def start (position : Nat) (buffer : Buffer) : ReadLoop :=
  ⟨position, buffer, 0⟩

variable (content : Array UInt8) (r : ReadLoop)

/-- How much the next read asks for. -/
def want : Nat :=
  r.buffer.size - r.filled

/-- How much of the content is left. -/
def left : Nat :=
  content.size - r.position

/-- The next `n` bytes are read. -/
def advance (n : Nat) : ReadLoop where
  position := r.position + n
  buffer := r.buffer.write r.filled (content.extract r.position (r.position + n)).toList
  filled := r.filled + n

/-- All is read that fits of what is left. -/
def finish : ReadLoop :=
  r.advance content (min r.want (r.left content))

/-- The buffer is full, or the next read may give nothing. -/
def Ended : Prop :=
  0 < r.want → Admissible r.want (r.left content) 0

variable {content r} {n m : Nat}

@[simp] theorem size_advance : (r.advance content n).buffer.size = r.buffer.size :=
  Buffer.size_write ..

theorem want_advance : (r.advance content n).want = r.want - n := by
  rw [want, size_advance]
  exact Nat.sub_add_eq ..

theorem left_advance : (r.advance content n).left content = r.left content - n :=
  Nat.sub_add_eq ..

theorem advance_zero : r.advance content 0 = r := by
  rw [advance, Nat.add_zero, Array.extract_empty_of_stop_le_start (Nat.le_refl _)]
  rfl

theorem length_run (hn : n ≤ r.left content) :
    (content.extract r.position (r.position + n)).toList.length = n := by
  rw [Array.length_toList, Array.size_extract]
  unfold left at hn
  omega

/-- **Two reads are one**, of the bytes of both. -/
theorem advance_advance (hn : n ≤ r.left content) :
    (r.advance content n).advance content m = r.advance content (n + m) := by
  have hrun : (content.extract r.position (r.position + n)).toList ++
      (content.extract (r.position + n) (r.position + n + m)).toList =
        (content.extract r.position (r.position + n + m)).toList := by
    rw [← Array.toList_append, Array.extract_append_extract, Nat.min_eq_left (by omega),
      Nat.max_eq_right (by omega)]
  have hwrite := r.buffer.write_append r.filled
    (content.extract r.position (r.position + n)).toList
    (content.extract (r.position + n) (r.position + n + m)).toList
  rw [length_run hn, hrun] at hwrite
  unfold advance
  rw [hwrite, Nat.add_assoc, Nat.add_assoc]

/-- A read puts the bytes that it gives behind those that are written. -/
theorem getElem?_advance (hn : n ≤ r.left content) {i : Nat} (hi : i < r.buffer.size) :
    (r.advance content n).buffer[i]? =
      if r.filled ≤ i ∧ i < r.filled + n then content[r.position + (i - r.filled)]?
      else r.buffer[i]? := by
  show (r.buffer.write _ _)[i]? = _
  rw [Buffer.getElem?_write, length_run hn]
  by_cases hin : r.filled ≤ i ∧ i < r.filled + n
  · rw [if_pos ⟨hin.1, hin.2, hi⟩, if_pos hin, Array.getElem?_toList, Array.getElem?_extract,
      if_pos (by unfold left at hn; omega)]
  · rw [if_neg (fun h => hin ⟨h.1, h.2.1⟩), if_neg hin]

theorem getElem?_finish {i : Nat} (hi : i < r.buffer.size) :
    (r.finish content).buffer[i]? =
      if r.filled ≤ i ∧ i < (r.finish content).filled then content[r.position + (i - r.filled)]?
      else r.buffer[i]? :=
  getElem?_advance (Nat.min_le_right _ _) hi

theorem ended_iff : r.Ended content ↔ r.want = 0 ∨ r.left content = 0 := by
  constructor
  · intro h
    rcases Nat.eq_zero_or_pos r.want with h0 | hpos
    · exact .inl h0
    · exact .inr ((h hpos).at_end rfl)
  · rintro (h0 | h0) hpos
    · exact absurd h0 (Nat.ne_of_gt hpos)
    · exact ⟨Nat.zero_le _, Nat.zero_le _, fun _ => h0⟩

end ReadLoop

/-! ## Runs of reads -/

/-- A read that gives something. -/
inductive Turn (content : Array UInt8) : ReadLoop → ReadLoop → Prop
  | read (r : ReadLoop) (n : Nat) (hn : n ≠ 0) (h : Admissible r.want (r.left content) n) :
      Turn content r (r.advance content n)

/-- So many reads that give something, one after the other. -/
inductive Turns (content : Array UInt8) : Nat → ReadLoop → ReadLoop → Prop
  | refl (r : ReadLoop) : Turns content 0 r r
  | head {k : Nat} {r r' r'' : ReadLoop} : Turn content r r' → Turns content k r' r'' →
      Turns content (k + 1) r r''

variable {content : Array UInt8} {r r' : ReadLoop} {k : Nat}

/-- **A loop has ended or goes on**: a read that gives nothing ends it. -/
theorem ReadLoop.ended_or_turn (content : Array UInt8) (r : ReadLoop) :
    r.Ended content ∨ ∃ r', Turn content r r' := by
  by_cases h : r.Ended content
  · exact .inl h
  · rw [ended_iff, not_or] at h
    have hone : Admissible r.want (r.left content) 1 := by
      constructor <;> omega
    exact .inr ⟨_, .read r 1 Nat.one_ne_zero hone⟩

/-- **Reads are one read**, of at least as many bytes as there are reads. -/
theorem Turns.eq_advance (h : Turns content k r r') :
    ∃ n, r' = r.advance content n ∧ k ≤ n ∧ n ≤ r.want ∧ n ≤ r.left content := by
  induction h with
  | refl r => exact ⟨0, ReadLoop.advance_zero.symm, Nat.le_refl 0, Nat.zero_le _, Nat.zero_le _⟩
  | head hturn _ ih =>
    obtain ⟨n, hn, hgive⟩ := hturn
    obtain ⟨m, rfl, hk, hwant, hleft⟩ := ih
    rw [ReadLoop.want_advance] at hwant
    rw [ReadLoop.left_advance] at hleft
    have hwant' := hgive.le_want
    have hleft' := hgive.le_left
    exact ⟨n + m, ReadLoop.advance_advance hleft', by omega, by omega, by omega⟩

/-- **Where a loop ends**: with all that fits of what is left. -/
theorem Turns.eq_finish (h : Turns content k r r') (hend : r'.Ended content) :
    r' = r.finish content := by
  obtain ⟨n, rfl, -, hwant, hleft⟩ := h.eq_advance
  rw [ReadLoop.ended_iff, ReadLoop.want_advance, ReadLoop.left_advance] at hend
  rw [ReadLoop.finish, show n = min r.want (r.left content) by omega]

/-- The loop that runs is a loop of reads, each of which gives what the schedule grants. -/
theorem exists_turns_readAll (content : Array UInt8) (schedule : Schedule) (k : Nat)
    (position : Nat) (buffer : Buffer) (filled : Nat) :
    ∃ j r, Turns content j ⟨position, buffer, filled⟩ r ∧ r.Ended content ∧
      readAll content schedule k position buffer filled = (r.buffer, r.filled) := by
  fun_induction readAll content schedule k position buffer filled with
  | case1 k position buffer filled hlt n hn =>
    have hgrant : Admissible (buffer.size - filled) (content.size - position) n :=
      schedule.admissible_grant k _ (Nat.sub_pos_of_lt hlt)
    rw [hn] at hgrant
    exact ⟨0, _, .refl _, fun _ => hgrant, rfl⟩
  | case2 k position buffer filled hlt n hn ih =>
    have hgrant : Admissible (buffer.size - filled) (content.size - position) n :=
      schedule.admissible_grant k _ (Nat.sub_pos_of_lt hlt)
    obtain ⟨j, r, hturns, hend, hr⟩ := ih
    exact ⟨j + 1, r, .head (.read ⟨position, buffer, filled⟩ n hn hgrant) hturns, hend, hr⟩
  | case3 k position buffer filled hge =>
    have hfull : ReadLoop.want ⟨position, buffer, filled⟩ = 0 :=
      Nat.sub_eq_zero_of_le (Nat.le_of_not_lt hge)
    exact ⟨0, _, .refl _, ReadLoop.ended_iff.mpr (.inl hfull), rfl⟩

/-- **What the loop that runs leaves.** -/
theorem readAll_eq_finish (content : Array UInt8) (schedule : Schedule) (k position : Nat)
    (buffer : Buffer) (filled : Nat) :
    readAll content schedule k position buffer filled =
      ((ReadLoop.finish content ⟨position, buffer, filled⟩).buffer,
        (ReadLoop.finish content ⟨position, buffer, filled⟩).filled) := by
  obtain ⟨j, r, hturns, hend, hr⟩ :=
    exists_turns_readAll content schedule k position buffer filled
  rw [hr, hturns.eq_finish hend]

/-! ## Transfers -/

/-- What a transfer of a content from `offset` on leaves of a buffer, of which it writes `count`
bytes. -/
structure Transferred (content : Array UInt8) (offset : Nat) (buffer after : Buffer) (count : Nat) :
    Prop where
  count_eq : count = min buffer.size (content.size - offset)
  size_eq : after.size = buffer.size
  read : ∀ i, i < count → after[i]? = content[offset + i]?
  kept : ∀ i, count ≤ i → after[i]? = buffer[i]?

theorem transferred_finish (content : Array UInt8) (offset : Nat) (buffer : Buffer) :
    Transferred content offset buffer ((ReadLoop.start offset buffer).finish content).buffer
      ((ReadLoop.start offset buffer).finish content).filled := by
  generalize hend : (ReadLoop.start offset buffer).finish content = r
  have hcount : r.filled = min buffer.size (content.size - offset) := by
    rw [← hend]
    exact Nat.zero_add _
  have hsize : r.buffer.size = buffer.size := by
    rw [← hend]
    exact ReadLoop.size_advance
  have hbyte : ∀ i, i < buffer.size → r.buffer[i]? =
      if i < r.filled then content[offset + i]? else buffer[i]? := by
    intro i hi
    have hget : ((ReadLoop.start offset buffer).finish content).buffer[i]? = _ :=
      ReadLoop.getElem?_finish hi
    rw [hend] at hget
    simpa only [ReadLoop.start, Nat.zero_le, true_and, Nat.sub_zero] using hget
  refine ⟨hcount, hsize, ?_, ?_⟩
  · intro i hi
    rw [hbyte i (by omega), if_pos hi]
  · intro i hi
    by_cases hin : i < buffer.size
    · rw [hbyte i hin, if_neg (Nat.not_lt.mpr hi)]
    · rw [Array.getElem?_eq_none (by omega), Array.getElem?_eq_none (by omega)]

namespace Store

variable {s : Store} {tree : FileTree} {l : Location} {offset : UInt64}

theorem openAt_eq_ok_iff {entry : FileEntry} :
    s.openAt tree l offset = .ok entry ↔
      offset.toNat ≤ maxOffset ∧ ∃ path, s.filePath? l = some path ∧
        tree.openPath path = .ok entry := by
  unfold openAt
  cases s.filePath? l with
  | none => simp
  | some path =>
    cases ho : tree.openPath path with
    | error e => simp [ho]
    | ok entry' =>
      by_cases hoff : maxOffset < offset.toNat
      · simp [ho, hoff, Nat.not_le.mpr hoff]
      · simp [ho, hoff, Nat.le_of_not_lt hoff]

/-- **A transfer comes to one result**, the exact one, whatever each of its reads gives: there are
at most as many reads as bytes, none of them is the last unless the loop has ended, and each
schedule has such reads. -/
theorem readInto_exact {path : List Char} {content : Array UInt8}
    (hpath : s.filePath? l = some path) (hopen : tree.openPath path = .ok (.file content))
    (hoff : offset.toNat < 2 ^ 63) (buffer : Buffer) :
    ∃ (after : Buffer) (count : Nat), Transferred content offset.toNat buffer after count ∧
      (∀ k r, Turns content k (.start offset.toNat buffer) r →
        k ≤ count ∧ (r.Ended content ∨ ∃ r', Turn content r r') ∧
          (r.Ended content → r.buffer = after ∧ r.filled = count)) ∧
      ∀ schedule,
        (∃ k r, Turns content k (.start offset.toNat buffer) r ∧ r.Ended content ∧
          s.readInto tree schedule l offset buffer = (r.buffer, .ok r.filled)) ∧
        s.readInto tree schedule l offset buffer = (after, .ok count) := by
  have hopened : s.openAt tree l offset = .ok (.file content) :=
    openAt_eq_ok_iff.mpr ⟨Nat.le_of_lt_succ hoff, path, hpath, hopen⟩
  have hloop (schedule : Schedule) : s.readInto tree schedule l offset buffer =
      ((readAll content schedule 0 offset.toNat buffer 0).1,
        .ok (readAll content schedule 0 offset.toNat buffer 0).2) := by
    unfold readInto
    rw [hopened]
  have hexact := transferred_finish content offset.toNat buffer
  refine ⟨_, _, hexact, ?_, ?_⟩
  · intro k r hturns
    refine ⟨?_, r.ended_or_turn content, ?_⟩
    · obtain ⟨n, -, hk, hwant, hleft⟩ := hturns.eq_advance
      rw [hexact.count_eq]
      exact Nat.le_trans hk (Nat.le_min.mpr ⟨hwant, hleft⟩)
    · intro hend
      rw [hturns.eq_finish hend]
      exact ⟨rfl, rfl⟩
  · intro schedule
    obtain ⟨k, r, hturns, hend, hr⟩ :=
      exists_turns_readAll content schedule 0 offset.toNat buffer 0
    rw [hloop, hr]
    refine ⟨⟨k, r, hturns, hend, rfl⟩, ?_⟩
    rw [hturns.eq_finish hend]
    rfl

/-- Blobs under `/s`. -/
def small : Store :=
  ⟨['/', 's'], by decide⟩

end Store

/-- One blob of six bytes. -/
def FileTree.six : FileTree :=
  ({} : FileTree).addFile [['s'], ['c'], ['b']] #[1, 2, 3, 4, 5, 6]

/-- Two bytes are left behind the fourth, and four are asked for. -/
theorem Store.readInto_exact_at_end :
    ∃ after count, Transferred #[1, 2, 3, 4, 5, 6] 4 #[9, 9, 9, 9] after count ∧ count = 2 ∧
      after = #[5, 6, 9, 9] ∧ ∀ schedule,
        Store.small.readInto .six schedule ⟨"c", "b"⟩ 4 #[9, 9, 9, 9] = (after, .ok count) := by
  have hpath : Store.small.filePath? ⟨"c", "b"⟩ = some "/s/c/b".toList := by decide
  have hopen : FileTree.six.openPath "/s/c/b".toList = .ok (.file #[1, 2, 3, 4, 5, 6]) := rfl
  have hoff : (4 : UInt64).toNat < 2 ^ 63 := by decide
  obtain ⟨after, count, hexact, -, hresult⟩ := Store.readInto_exact hpath hopen hoff #[9, 9, 9, 9]
  have hcount : count = 2 := hexact.count_eq
  subst hcount
  have hafter : after = #[5, 6, 9, 9] := by
    refine Array.ext_getElem? fun i => ?_
    match i with
    | 0 => exact hexact.read 0 (by decide)
    | 1 => exact hexact.read 1 (by decide)
    | i + 2 => exact hexact.kept (i + 2) (Nat.le_add_left 2 i)
  exact ⟨after, 2, hexact, rfl, hafter, fun schedule => (hresult schedule).2⟩

end RangeFetch
