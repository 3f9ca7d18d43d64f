import RangeFetch.Transfer.Primitive

/-!
# Scripted transfers

A script is a list of rules. The first rule that fits a call and has uses left decides over it and
is used up once; a call without a rule transfers all its bytes. A rule may let a transfer give fewer
bytes or more than it was asked for, fail, panic, stop the session or wait to be released.

It stands for the `BlobTransfer`s that sessions are tested with, `Scripted` and `StopOnFirstRead`.

Headlines:
* **`Script.answer`** is the primitive that follows a script.
* `Rule.reply_filled_le`: a scripted transfer never writes more bytes than its slice has.
-/

namespace RangeFetch

/-- How a scripted transfer ends. -/
inductive Ending where
  | whole
  /-- It gives that many bytes less than it was asked for, or none. -/
  | short (missing : Nat)
  /-- It gives all the bytes and says that there were that many more. -/
  | over (surplus : Nat)
  | failed
  | panicked
  deriving DecidableEq, Repr

/-- The bytes that a transfer of `length` bytes writes before it ends. -/
def Ending.filled (length : Nat) : Ending → Nat
  | .whole | .over _ => length
  | .short missing => length - missing
  | .failed | .panicked => 0

/-- How a transfer of `length` bytes ends. -/
def Ending.outcome (length : Nat) : Ending → Outcome
  | .whole => .returned length
  | .short missing => .returned (length - missing)
  | .over surplus => .returned (length + surplus)
  | .failed => .failed
  | .panicked => .panicked

/-- What a script says about some calls. -/
structure Rule where
  /-- The offset of the calls it is for, if only some. -/
  offset : Option UInt64 := none
  /-- The blob of the calls it is for, if only some. -/
  blob : Option String := none
  /-- How often it may still be used, if there is a limit. -/
  uses : Option Nat := none
  stops : Bool := false
  held : Bool := false
  ending : Ending := .whole
  /-- How many bytes are written, if not as many as the ending says. -/
  fill : Option Nat := none
  deriving DecidableEq, Repr

namespace Rule

/-- The rule is for this call and has uses left. -/
def fits (r : Rule) (call : TransferCall) : Bool :=
  r.uses != some 0 && r.offset.all (· == call.offset) && r.blob.all (· == call.location.blob)

/-- The rule with one use less. -/
def spend (r : Rule) : Rule :=
  { r with uses := r.uses.map (· - 1) }

/-- What the rule answers to a call, where `content` gives the bytes of the blob. -/
def reply (content : UInt64 → UInt8) (r : Rule) (call : TransferCall) : Reply :=
  let filled := min ((r.fill).getD (r.ending.filled call.length)) call.length
  { stops := r.stops
    held := r.held
    bytes := (List.range filled).map fun i => content (call.offset + UInt64.ofNat i)
    outcome := r.ending.outcome call.length }

theorem reply_filled_le (content : UInt64 → UInt8) (r : Rule) (call : TransferCall) :
    (r.reply content call).bytes.length ≤ call.length := by
  simp only [reply, List.length_map, List.length_range]
  exact Nat.min_le_right ..

end Rule

/-- The rules of a primitive, the first of which comes first. -/
abbrev Script := List Rule

namespace Script

/-- The rule for a call, and the script after its use. -/
def choose (call : TransferCall) : Script → Rule × Script
  | [] => ({}, [])
  | r :: rs =>
    if r.fits call then (r, r.spend :: rs)
    else ((choose call rs).1, r :: (choose call rs).2)

/-- The primitive that follows a script, where `content` gives the bytes of the blobs. -/
def answer (content : UInt64 → UInt8) : Primitive Script := fun script call =>
  ((script.choose call).1.reply content call, (script.choose call).2)

end Script

end RangeFetch
