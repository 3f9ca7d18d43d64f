import RangeFetch.Completion.Queue

/-!
# Consumers asleep at a queue

Several consumers may ask a queue for a completion at the same time. Each looks at the queue under
its lock and either leaves with a completion or falls asleep. A push is followed by a call for one
sleeper, a stop by an alarm for all of them; registering more completions wakes nobody. Calls and
alarms are steps of their own, so that others may look in between, and which sleeper a call
reaches is open.

It is the loop of `pop` in the engine's `CompletionQueue`: a call is the `notify_one` of `push`, an
alarm the `notify_all` of `stop`, and `take` makes neither (section B.5).

Headlines:
* **`WaitingRoom.act`** is one step of one party, `Enabled` says which steps may come next.
* **`WaitingRoom.settle`** lets every call reach the consumer that slept longest and every consumer
  that is awake look; `join` and `play` are runs in which that is done after every step.
-/

namespace RangeFetch

/-- Where a consumer stands. -/
inductive Consumer where
  /-- About to look at the queue. -/
  | awake
  | asleep
  | served (c : Completion)
  deriving DecidableEq, Repr

/-- A sleeper that hears an alarm. -/
def Consumer.wake : Consumer → Consumer
  | .asleep => .awake
  | c => c

/-- A queue with the consumers that asked it, and the wake-ups that are on their way. -/
structure WaitingRoom where
  queue : CompletionQueue
  consumers : List Consumer := []
  /-- Calls for one sleeper. -/
  calls : Nat := 0
  /-- Alarms for all sleepers. -/
  alarms : Nat := 0
  deriving DecidableEq, Repr

namespace WaitingRoom

/-- A step of one party. -/
inductive Action where
  /-- One more consumer asks. -/
  | enter
  /-- Consumer `c` looks at the queue. -/
  | look (c : Nat)
  | register (n : Nat)
  | push (e : Completion)
  /-- Somebody takes a completion without waiting for one. -/
  | take
  | stop
  /-- A call reaches consumer `c`. -/
  | call (c : Nat)
  /-- A call finds nobody asleep. -/
  | lapse
  | alarm
  deriving DecidableEq, Repr

/-- What a consumer finds when it looks. -/
def look (r : WaitingRoom) (c : Nat) : WaitingRoom :=
  match r.queue.take? with
  | some (e, q) => { r with queue := q, consumers := r.consumers.set c (.served e) }
  | none => { r with consumers := r.consumers.set c .asleep }

/-- The state after a step. -/
def act (r : WaitingRoom) : Action → WaitingRoom
  | .enter => { r with consumers := r.consumers ++ [.awake] }
  | .look c => r.look c
  | .register n => { r with queue := r.queue.register n }
  | .push e => { r with queue := r.queue.push e, calls := r.calls + 1 }
  | .take => { r with queue := (r.queue.take?.map Prod.snd).getD r.queue }
  | .stop => { r with queue := r.queue.stop, alarms := r.alarms + 1 }
  | .call c => { r with consumers := r.consumers.set c .awake, calls := r.calls - 1 }
  | .lapse => { r with calls := r.calls - 1 }
  | .alarm => { r with consumers := r.consumers.map Consumer.wake, alarms := r.alarms - 1 }

/-- The steps that may come next. -/
def Enabled (r : WaitingRoom) : Action → Prop
  | .look c => r.consumers[c]? = some .awake
  | .call c => 0 < r.calls ∧ r.consumers[c]? = some .asleep
  | .lapse => 0 < r.calls ∧ .asleep ∉ r.consumers
  | .alarm => 0 < r.alarms
  | .enter | .register _ | .push _ | .take | .stop => True

/-! ## Running -/

/-- Lets the consumers `cs` look, if they are awake. -/
def lookAll (r : WaitingRoom) (cs : List Nat) : WaitingRoom :=
  cs.foldl (fun r c => if r.consumers[c]? = some .awake then r.act (.look c) else r) r

/-- Delivers up to `n` calls, each to the first sleeper. -/
def deliver : Nat → WaitingRoom → WaitingRoom
  | 0, r => r
  | n + 1, r =>
    match r.consumers.findIdx? (· == .asleep) with
    | some c => deliver n (r.act (.call c))
    | none => deliver n (r.act .lapse)

/-- Delivers all wake-ups and lets everybody look who is awake. -/
def settle (r : WaitingRoom) : WaitingRoom :=
  let r := deliver r.calls r
  let r := (List.replicate r.alarms Action.alarm).foldl act r
  r.lookAll (List.range r.consumers.length)

/-- Takes a step and lets everybody go on who can. -/
def play (r : WaitingRoom) (a : Action) : WaitingRoom :=
  (r.act a).settle

/-- Lets `n` more consumers ask. -/
def join (r : WaitingRoom) (n : Nat) : WaitingRoom :=
  ((List.replicate n Action.enter).foldl act r).settle

/-- The completions that consumers left with. -/
def served (r : WaitingRoom) : List Completion :=
  r.consumers.filterMap fun
    | .served e => some e
    | _ => none

end WaitingRoom

end RangeFetch
