import RangeFetch.Fault

/-!
# Permits

A limiter has a number of permits. Who asks while none is left joins a line, and a permit that
comes back goes to the first in the line.

It is the semaphore of a `Session`, of which each task of `dispatch` takes a permit by
`acquire_owned` and gives it back when its transfer has ended (section 5).

Headlines:
* **`Permits.acquire`** and **`Permits.release`**; `Permits.ofCount` has a limit of its own.
* `available_release`: a permit that comes back is not lost.
-/

namespace RangeFetch

/-- The permits that are left and the tasks that wait for one, the longest waiting first. -/
structure Permits where
  available : Nat
  line : List Nat := []
  deriving DecidableEq, Repr

namespace Permits

/-- A limiter of `count` permits. -/
def ofCount (count : UInt64) : Except Fault Permits :=
  if count.toNat ≤ maxPermits then .ok { available := count.toNat } else .error .tooManyPermits

/-- Task `t` asks for a permit: whether it has one now. -/
def acquire (p : Permits) (t : Nat) : Permits × Bool :=
  if p.available = 0 then ({ p with line := p.line ++ [t] }, false)
  else ({ p with available := p.available - 1 }, true)

/-- A permit comes back: who has it now, if anybody waits. -/
def release (p : Permits) : Permits × Option Nat :=
  match p.line with
  | [] => ({ p with available := p.available + 1 }, none)
  | t :: ts => ({ p with line := ts }, some t)

theorem available_release (p : Permits) :
    p.release.1.available + p.release.2.toList.length = p.available + 1 := by
  obtain ⟨available, line⟩ := p
  cases line <;> simp [release]

theorem line_release (p : Permits) : p.release.2.toList ++ p.release.1.line = p.line := by
  obtain ⟨available, line⟩ := p
  cases line <;> simp [release]

end Permits

end RangeFetch
