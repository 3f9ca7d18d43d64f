import RangeFetch.Proofs.Retention
import RangeFetch.Transfer.Primitive

/-!
# Transfers that follow a reply

A primitive has a reply to each call: the bytes that the transfer writes, and the outcome that it
ends with. When it writes which of the bytes, and when it ends, is up to the run. Whatever the
order, a transfer that has ended has left the bytes of its reply, and nothing else.

Headlines:
* **`Obeys`**, **`Follows`** and **`Supplied`**: the steps, the runs and the histories in which the
  transfers take their bytes and their outcomes from replies.
* **`Supplied.replied`**: what was written is in the reply; of a transfer that has ended, all of it
  is.
-/

namespace RangeFetch

/-! ## Which steps end a transfer -/

namespace Session

/-- How the transfer of task `t` ended. -/
def outcomeOf? (s : Session) (t : Nat) : Option Outcome :=
  (s.phaseOf? t).bind Phase.outcome?

variable {s s' : Session} {t u : Nat} {task : Task} {p : Phase}

theorem outcomeOf?_of_getElem? (ht : s.tasks[t]? = some task) :
    s.outcomeOf? t = task.phase.outcome? := by
  rw [outcomeOf?, History.phaseOf?_of_getElem? ht, Option.bind_some]

theorem outcomeOf?_eq_none (ht : s.tasks[t]? = none) : s.outcomeOf? t = none := by
  rw [outcomeOf?, phaseOf?, ht]
  rfl

/-- A task moves between phases that show the same outcome. -/
theorem outcomeOf?_modify (hk : s'.tasks = s.tasks.modify t ({ · with phase := p }))
    (ht : s.tasks[t]? = some task) (hp : p.outcome? = task.phase.outcome?) (u : Nat) :
    s'.outcomeOf? u = s.outcomeOf? u := by
  unfold outcomeOf?
  rw [History.phaseOf?_modify hk]
  by_cases hu : u = t
  · subst hu
    rw [if_pos rfl, History.phaseOf?_of_getElem? ht]
    exact hp
  · rw [if_neg hu]

theorem outcomeOf?_push (hk : s'.tasks = s.tasks.push task) (hp : task.phase = .launched)
    (u : Nat) : s'.outcomeOf? u = s.outcomeOf? u := by
  unfold outcomeOf?
  rw [History.phaseOf?_push hk]
  by_cases hu : u = s.tasks.size
  · subst hu
    rw [if_pos rfl, hp, phaseOf?, Array.getElem?_size]
    rfl
  · rw [if_neg hu]

theorem tasks_leave (s : Session) : s.leave.tasks = s.tasks := by
  obtain ⟨n, faults, hv⟩ := History.leave_eq s
  rw [hv]

theorem outcomeOf?_submit (s : Session) (x : Submission) (u : Nat) :
    (s.submit x).1.outcomeOf? u = s.outcomeOf? u := by
  unfold submit
  split
  · rfl
  · split <;> rfl

theorem outcomeOf?_launch (s : Session) (r u : Nat) :
    (s.launch r).outcomeOf? u = s.outcomeOf? u := by
  cases hq : s.requests[r]? with
  | none => simp only [launch, hq]
  | some q =>
    cases hl : q.launch with
    | ready | entered =>
      simp only [launch, hq, hl]
      rfl
    | cleared =>
      simp only [launch, hq, hl]
      split
      · rfl
      · exact outcomeOf?_push rfl rfl u
    | barred =>
      simp only [launch, hq, hl]
      rw [outcomeOf?, phaseOf?, Session.modifyRequest, tasks_leave]
      rfl
    | answered code => simp only [launch, hq, hl]

/-- A task that moves on by itself does not end its transfer. -/
theorem outcomeOf?_advance (s : Session) (t u : Nat) :
    (s.advance t).outcomeOf? u = s.outcomeOf? u := by
  cases ht : s.tasks[t]? with
  | none => simp only [advance, ht]
  | some task =>
    cases hp : task.phase with
    | launched =>
      simp only [advance, ht, hp, acquire]
      split
      · exact outcomeOf?_modify (History.tasks_modifyTask ..) ht (by rw [hp]; rfl) u
      · exact outcomeOf?_modify (History.tasks_modifyTask ..) ht (by rw [hp]; rfl) u
    | granted =>
      simp only [advance, ht, hp]
      exact outcomeOf?_modify (History.tasks_modifyTask ..) ht (by rw [hp]; rfl) u
    | ended o =>
      simp only [advance, ht, hp, count]
      split
      · rfl
      · exact outcomeOf?_modify (History.tasks_modifyTask ..) ht (by rw [hp]; rfl) u
    | counted o code =>
      simp only [advance, ht, hp]
      exact outcomeOf?_modify (History.tasks_modifyTask ..) ht (by rw [hp]; rfl) u
    | reported o code =>
      simp only [advance, ht, hp]
      refine outcomeOf?_modify (p := .finished o code) ?_ ht (by rw [hp]; rfl) u
      rw [History.tasks_modifyTask, tasks_leave]
    | waiting | running | finished => simp only [advance, ht, hp]

/-- The end of a transfer moves its task, and the first in the line, if somebody waits there. -/
theorem finish_cases {o : Outcome} (ht : s.tasks[t]? = some task) (hp : task.phase = .running)
    (hw : ∀ w ∈ s.permits.line, s.phaseOf? w = some .waiting) :
    (s.finish t o).requests = s.requests ∧
      ((s.finish t o).tasks = s.tasks.modify t ({ · with phase := .ended o }) ∨
        ∃ w next, (s.modifyTask t ({ · with phase := .ended o })).tasks[w]? = some next ∧
          next.phase = .waiting ∧ (s.finish t o).tasks =
            (s.modifyTask t ({ · with phase := .ended o })).tasks.modify w
              ({ · with phase := .granted })) := by
  cases hline : s.permits.line with
  | nil =>
    have hfinish : s.finish t o = { s with
        permits := { s.permits with available := s.permits.available + 1 } }.modifyTask t
          ({ · with phase := .ended o }) := by
      simp [finish, ht, hp, Permits.release, modifyTask, hline]
    rw [hfinish]
    exact ⟨rfl, Or.inl rfl⟩
  | cons w ws =>
    obtain ⟨next, hn, hnp⟩ := Option.map_eq_some_iff.mp (hw w (by simp [hline]))
    have hne : t ≠ w := History.ne_of_running_waiting ht hp hn hnp
    have hn' : (s.modifyTask t ({ · with phase := .ended o })).tasks[w]? = some next := by
      rw [History.tasks_modifyTask, Array.getElem?_modify, if_neg hne]
      exact hn
    have hfinish : s.finish t o = ({ s with permits := { s.permits with line := ws } }.modifyTask t
        ({ · with phase := .ended o })).modifyTask w ({ · with phase := .granted }) := by
      simp [finish, ht, hp, Permits.release, modifyTask, hline]
    rw [hfinish]
    exact ⟨rfl, Or.inr ⟨w, next, hn', hnp, rfl⟩⟩

theorem outcomeOf?_closing (s : Session) (i u : Nat) :
    (s.closing i).outcomeOf? u = s.outcomeOf? u := by
  unfold closing
  split
  · rfl
  · split
    · rfl
    · rfl
    · split <;> rfl
    · rfl

theorem outcomeOf?_take (s : Session) (u : Nat) :
    (s.act .take).outcomeOf? u = s.outcomeOf? u := by
  obtain ⟨e, es, -, -, -, hn⟩ | hn | hn := History.next?_cases s
  all_goals simp only [act, hn]; rfl

end Session

namespace History

variable {config : Config} {h k : History} {t : Nat} {call : TransferCall}

/-- Of the steps that may come next, only the end of a transfer ends one. -/
theorem Coherent.outcomeOf?_finish (hc : h.Coherent) {o : Outcome}
    (he : h.session.Enabled (.finish t o)) (u : Nat) :
    (h.session.finish t o).outcomeOf? u = if u = t then some o else h.session.outcomeOf? u := by
  obtain ⟨task, ht, hp⟩ := he
  have hends (s' : Session)
      (hk : s'.tasks = h.session.tasks.modify t ({ · with phase := .ended o })) :
      s'.outcomeOf? u = if u = t then some o else h.session.outcomeOf? u := by
    unfold Session.outcomeOf?
    rw [phaseOf?_modify hk, phaseOf?_of_getElem? ht]
    split <;> rfl
  obtain ⟨-, hk | ⟨w, next, hn, hnp, hk⟩⟩ := Session.finish_cases (o := o) ht hp hc.waiting
  · exact hends _ hk
  · exact (Session.outcomeOf?_modify hk hn (by rw [hnp]; rfl) u).trans (hends _ rfl)

/-- No other step ends a transfer. -/
theorem outcomeOf?_act {a : Session.Action} (s : Session) (ha : ∀ t o, a ≠ .finish t o) (u : Nat) :
    (s.act a).outcomeOf? u = s.outcomeOf? u := by
  cases a with
  | submit x => exact s.outcomeOf?_submit x u
  | launch r => exact s.outcomeOf?_launch r u
  | advance t => exact s.outcomeOf?_advance t u
  | write t i bytes =>
    show (s.write t i bytes).outcomeOf? u = _
    unfold Session.write
    split
    · rfl
    · split <;> rfl
  | finish t o => exact absurd rfl (ha t o)
  | close waits => rfl
  | closing i => exact s.outcomeOf?_closing i u
  | take => exact s.outcomeOf?_take u

/-! ## What a transfer is asked for -/

theorem Coherent.callOf?_isSome (hc : h.Coherent) {task : Task}
    (ht : h.session.tasks[t]? = some task) : ∃ call, h.session.callOf? t = some call := by
  rw [Session.callOf?, ht, Option.bind_some,
    Array.getElem?_eq_getElem (hc.linked t task ht)]
  exact ⟨_, rfl⟩

/-- The call of a task asks for a part of the submitted range. -/
theorem Reachable.callOf?_eq_some (hr : h.Reachable config)
    (hc : h.session.callOf? t = some call) :
    ∃ (r : Nat) (a : Slice) (x : Submission), h.session.slot? t = some (r, a) ∧
      h.accepted[r]? = some x ∧ Location.ofUri x.path = .ok call.location ∧
      call.offset.toNat = x.range.offset.toNat + a.start ∧ call.length = a.length := by
  obtain ⟨task, ht, hm⟩ := Option.bind_eq_some_iff.mp hc
  obtain ⟨q, hq, rfl⟩ := Option.map_eq_some_iff.mp hm
  obtain ⟨x, hx, ha⟩ := hr.answers hq
  obtain ⟨-, -, hoff, -⟩ := hr.laid_task hq ht rfl
  rw [ha.range_eq] at hoff
  exact ⟨task.request, task.piece.slice, x, Session.slot?_eq_some.mpr ⟨task, ht, rfl, rfl⟩, hx,
    ha.location_eq, hoff, rfl⟩

/-- A task keeps its call. -/
theorem Reachable.callOf?_reaches (hr : h.Reachable config) (hk : h.Reaches k)
    (hc : h.session.callOf? t = some call) : k.session.callOf? t = some call := by
  obtain ⟨r, a, x, ht, hx, hl, hoff, hlen⟩ := hr.callOf?_eq_some hc
  have hr' := hr.reaches hk
  have ht' := hr.slot?_eq hk ht
  obtain ⟨task, htask, -⟩ := Session.slot?_eq_some.mp ht'
  obtain ⟨call', hc'⟩ := hr'.coherent.callOf?_isSome htask
  obtain ⟨r', a', x', hs, hx', hl', hoff', hlen'⟩ := hr'.callOf?_eq_some hc'
  obtain ⟨rfl, rfl⟩ := Prod.mk.inj (Option.some.inj (ht'.symm.trans hs))
  obtain rfl := Option.some.inj ((hk.accepted hx).symm.trans hx')
  obtain ⟨l, offset, length⟩ := call
  obtain ⟨l', offset', length'⟩ := call'
  obtain rfl : l = l' := Except.ok.inj (hl.symm.trans hl')
  obtain rfl : offset = offset' := UInt64.toNat_inj.mp (hoff.trans hoff'.symm)
  obtain rfl : length = length' := hlen.trans hlen'.symm
  exact hc'

/-! ## Replies -/

variable (reply : Nat → TransferCall → Reply)

/-- A step in which a transfer does what the reply to its call says: it writes bytes of the reply,
each where it belongs, and it ends, with the outcome of the reply, when it has written them all. -/
def Obeys (h : History) : Session.Action → Prop
  | .write t i bytes =>
    ∃ call ∈ h.session.callOf? t, ∀ j < bytes.length, (reply t call).bytes[i + j]? = bytes[j]?
  | .finish t o =>
    ∃ call ∈ h.session.callOf? t, o = (reply t call).outcome ∧
      ∀ j < (reply t call).bytes.length, h.written t j = (reply t call).bytes[j]?
  | .submit _ | .launch _ | .advance _ | .close _ | .closing _ | .take => True

/-- The histories that lead on from `h` when all transfers do what their replies say. -/
inductive Follows : History → History → Prop where
  | refl (h : History) : Follows h h
  | step {h k : History} {a : Session.Action} :
    Follows h k → k.session.Enabled a → k.Obeys reply a → Follows h (k.act a)

/-- The histories of a session that was made with `config`, whose transfers do what their replies
say. -/
def Supplied (config : Config) (h : History) : Prop :=
  ∃ s₀, Session.start config = .ok s₀ ∧ Follows reply { session := s₀ } h

variable {reply}

theorem Follows.reaches (hk : Follows reply h k) : h.Reaches k := by
  induction hk with
  | refl => exact .refl _
  | step _ he _ ih => exact .step ih he

theorem Supplied.reachable (hs : h.Supplied reply config) : h.Reachable config := by
  obtain ⟨s₀, hs₀, hh⟩ := hs
  exact ⟨s₀, hs₀, hh.reaches⟩

variable (reply) in
/-- What the transfer of task `t` has done so far is what its reply says. -/
structure Replied (h : History) (t : Nat) : Prop where
  written : ∀ call, h.session.callOf? t = some call →
    ∀ (j : Nat) (b : UInt8), h.written t j = some b → (reply t call).bytes[j]? = some b
  ended : ∀ call, h.session.callOf? t = some call → ∀ o, h.session.outcomeOf? t = some o →
    o = (reply t call).outcome ∧ ∀ j, h.written t j = (reply t call).bytes[j]?

/-- A call was there before, unless its task is new. -/
theorem Reachable.callOf?_of_reaches (hr : h.Reachable config) (hk : h.Reaches k)
    (hc : k.session.callOf? t = some call) :
    h.session.callOf? t = some call ∨ h.session.tasks[t]? = none := by
  cases ht : h.session.tasks[t]? with
  | none => exact Or.inr rfl
  | some task =>
    obtain ⟨call', hc'⟩ := hr.coherent.callOf?_isSome ht
    obtain rfl := Option.some.inj (hc.symm.trans (hr.callOf?_reaches hk hc'))
    exact Or.inl hc'

/-- A task that is not there has written nothing. -/
theorem Reachable.written_eq_none (hr : h.Reachable config) (ht : h.session.tasks[t]? = none)
    (j : Nat) : h.written t j = none := by
  refine History.written_eq_none ?_ j
  rintro w hw rfl
  obtain ⟨r, a, hslot, -⟩ := hr.landed.confined w hw
  obtain ⟨task, htask, -⟩ := Session.slot?_eq_some.mp hslot
  exact absurd (ht.symm.trans htask) (by simp)

theorem written_congr (hw : k.writes = h.writes) (t j : Nat) : k.written t j = h.written t j := by
  unfold History.written
  rw [hw]

/-- A transfer that neither writes nor ends. -/
theorem Replied.keep (hi : h.Replied reply t) (hr : h.Reachable config) (hk : h.Reaches k)
    (ho : k.session.outcomeOf? t = h.session.outcomeOf? t)
    (hw : ∀ j, k.written t j = h.written t j) : k.Replied reply t := by
  constructor
  · intro call hc j b hb
    rw [hw] at hb
    rcases hr.callOf?_of_reaches hk hc with hc | ht
    · exact hi.written call hc j b hb
    · exact absurd ((hr.written_eq_none ht j).symm.trans hb) (by simp)
  · intro call hc o hout
    rw [ho] at hout
    simp only [hw]
    rcases hr.callOf?_of_reaches hk hc with hc | ht
    · exact hi.ended call hc o hout
    · exact absurd ((Session.outcomeOf?_eq_none ht).symm.trans hout) (by simp)

/-- A running transfer writes bytes of its reply. -/
theorem Replied.write {i : Nat} {bytes : List UInt8} (hi : h.Replied reply t)
    (hr : h.Reachable config) (he : h.session.Enabled (.write t i bytes))
    (ho : h.Obeys reply (.write t i bytes)) (u : Nat) (hu : h.Replied reply u) :
    (h.act (.write t i bytes)).Replied reply u := by
  have hk : h.Reaches (h.act (.write t i bytes)) := .step (.refl h) he
  have hout := outcomeOf?_act h.session (a := .write t i bytes) (by simp)
  obtain ⟨task, ht, hp, -⟩ := he
  obtain ⟨call, hcall, hbytes⟩ := ho
  have hw : (h.act (.write t i bytes)).writes = h.writes ++ [⟨t, i, bytes⟩] := by
    simp [act, Session.phaseOf?, ht, hp]
  by_cases hut : u = t
  · subst hut
    have hk' := hr.callOf?_reaches hk hcall
    constructor
    · intro call' hc j b hb
      obtain rfl := Option.some.inj (hk'.symm.trans hc)
      rw [written_snoc hw] at hb
      rcases Option.or_eq_some_iff.mp hb with hb | ⟨-, hb⟩
      · obtain ⟨⟨-, hle⟩, hb⟩ := Option.ite_none_right_eq_some.mp hb
        have hbyte := hbytes (j - i) (List.getElem?_eq_some_iff.mp hb).1
        rw [Nat.add_sub_cancel' hle] at hbyte
        exact hbyte.trans hb
      · exact hi.written call hcall j b hb
    · intro call' hc o ho
      have hnone : h.session.outcomeOf? u = none := by
        rw [Session.outcomeOf?_of_getElem? ht, hp]
        rfl
      exact absurd (hnone.symm.trans ((hout u).symm.trans ho)) (by simp)
  · refine hu.keep hr hk (hout u) ?_
    intro j
    rw [written_snoc hw, Write.byte?_of_ne (Ne.symm hut), Option.none_or]

/-- A transfer ends when it has written its reply. -/
theorem Replied.finish {o : Outcome} (hi : h.Replied reply t) (hr : h.Reachable config)
    (he : h.session.Enabled (.finish t o)) (ho : h.Obeys reply (.finish t o)) (u : Nat)
    (hu : h.Replied reply u) : (h.act (.finish t o)).Replied reply u := by
  have hk : h.Reaches (h.act (.finish t o)) := .step (.refl h) he
  have hout : (h.act (.finish t o)).session.outcomeOf? u =
      if u = t then some o else h.session.outcomeOf? u := hr.coherent.outcomeOf?_finish he u
  have hw : (h.act (.finish t o)).writes = h.writes := List.append_nil _
  obtain ⟨call, hcall, houtcome, hall⟩ := ho
  by_cases hut : u = t
  · subst hut
    have hk' := hr.callOf?_reaches hk hcall
    rw [if_pos rfl] at hout
    constructor
    · intro call' hc j b hb
      obtain rfl := Option.some.inj (hk'.symm.trans hc)
      rw [written_congr hw] at hb
      exact hi.written call hcall j b hb
    · intro call' hc o' ho'
      obtain rfl := Option.some.inj (hk'.symm.trans hc)
      obtain rfl := Option.some.inj (hout.symm.trans ho')
      refine ⟨houtcome, ?_⟩
      intro j
      rw [written_congr hw]
      by_cases hj : j < (reply u call).bytes.length
      · exact hall j hj
      · -- behind the reply nothing was written
        have hnone : (reply u call).bytes[j]? = none := List.getElem?_eq_none (Nat.le_of_not_lt hj)
        rw [hnone, Option.eq_none_iff_forall_ne_some]
        intro b hb
        exact absurd (hnone.symm.trans (hi.written call hcall j b hb)) (by simp)
  · rw [if_neg hut] at hout
    exact hu.keep hr hk hout (written_congr hw u)

theorem Replied.step {a : Session.Action} (hi : ∀ t, h.Replied reply t) (hr : h.Reachable config)
    (he : h.session.Enabled a) (ho : h.Obeys reply a) (u : Nat) : (h.act a).Replied reply u := by
  have hk : h.Reaches (h.act a) := .step (.refl h) he
  cases a with
  | write t i bytes => exact (hi t).write hr he ho u (hi u)
  | finish t o => exact (hi t).finish hr he ho u (hi u)
  | submit | launch | advance | close | closing | take =>
    exact (hi u).keep hr hk (outcomeOf?_act _ (by simp) u)
      (written_congr (List.append_nil h.writes) u)

/-- **What a transfer has done is what its reply says.** -/
theorem Supplied.replied (hs : h.Supplied reply config) (t : Nat) : h.Replied reply t := by
  obtain ⟨s₀, hs₀, hh⟩ := hs
  induction hh generalizing t with
  | refl =>
    refine ⟨fun _ _ j b hb => absurd hb (by simp [History.written]), ?_⟩
    intro call hc
    rw [start_eq hs₀] at hc
    exact absurd hc (by simp [Session.callOf?, new])
  | step hk he ho ih => exact Replied.step ih ⟨s₀, hs₀, hk.reaches⟩ he ho t

theorem Follows.trans {m : History} (hk : Follows reply h k) (hm : Follows reply k m) :
    Follows reply h m := by
  induction hm with
  | refl => exact hk
  | step _ he ho ih => exact .step ih he ho

theorem Supplied.follows (hs : h.Supplied reply config) (hk : Follows reply h k) :
    k.Supplied reply config := by
  obtain ⟨s₀, hs₀, hh⟩ := hs
  exact ⟨s₀, hs₀, hh.trans hk⟩

/-- A running transfer whose reply fits into its slice can write the reply in one run, and end
then. -/
theorem Supplied.exists_written {task : Task} (hs : h.Supplied reply config)
    (ht : h.session.tasks[t]? = some task) (hp : task.phase = .running)
    (hc : h.session.callOf? t = some call)
    (hfit : (reply t call).bytes.length ≤ call.length) :
    ∃ k, Follows reply h k ∧ k.session = h.session.write t 0 (reply t call).bytes ∧
      k.session.Enabled (.finish t (reply t call).outcome) ∧
      k.Obeys reply (.finish t (reply t call).outcome) := by
  have hr := hs.reachable
  obtain ⟨r, a, x, hslot, -, -, -, hlen⟩ := hr.callOf?_eq_some hc
  obtain ⟨task', ht', -, rfl⟩ := Session.slot?_eq_some.mp hslot
  obtain rfl := Option.some.inj (ht.symm.trans ht')
  generalize hrep : reply t call = answer at hfit ⊢
  have he : h.session.Enabled (.write t 0 answer.bytes) := ⟨task, ht, hp, by omega⟩
  have ho : h.Obeys reply (.write t 0 answer.bytes) :=
    ⟨call, hc, fun j _ => by rw [hrep, Nat.zero_add]⟩
  have hk : Follows reply h (h.act (.write t 0 answer.bytes)) := .step (.refl h) he ho
  have htasks : (h.act (.write t 0 answer.bytes)).session.tasks = h.session.tasks := by
    simp [act, Session.act, Session.write, ht, hp, Session.modifyRequest]
  have hw : (h.act (.write t 0 answer.bytes)).writes = h.writes ++ [⟨t, 0, answer.bytes⟩] := by
    simp [act, Session.phaseOf?, ht, hp]
  refine ⟨_, hk, rfl, ⟨task, by rw [htasks]; exact ht, hp⟩,
    call, hr.callOf?_reaches hk.reaches hc, by rw [hrep], ?_⟩
  intro j hj
  rw [hrep] at hj ⊢
  rw [written_snoc hw, Write.byte?, if_pos ⟨rfl, Nat.zero_le j⟩]
  exact (congrArg (Option.or · _) (List.getElem?_eq_getElem hj)).trans
    (List.getElem?_eq_getElem hj).symm

/-! ## Runs given by their steps -/

variable (reply) in
instance (h : History) : DecidablePred (h.Obeys reply)
  | .write t i bytes =>
    inferInstanceAs (Decidable (∃ call ∈ h.session.callOf? t,
      ∀ j < bytes.length, (reply t call).bytes[i + j]? = bytes[j]?))
  | .finish t o =>
    inferInstanceAs (Decidable (∃ call ∈ h.session.callOf? t, o = (reply t call).outcome ∧
      ∀ j < (reply t call).bytes.length, h.written t j = (reply t call).bytes[j]?))
  | .submit _ | .launch _ | .advance _ | .close _ | .closing _ | .take => isTrue trivial

variable (reply) in
/-- Each of the steps may be taken when it comes, and does what the replies say. -/
def Lawful : History → List Session.Action → Prop
  | _, [] => True
  | h, a :: as => h.session.Enabled a ∧ h.Obeys reply a ∧ Lawful (h.act a) as

variable (reply) in
instance Lawful.decidable : (h : History) → (as : List Session.Action) →
    Decidable (h.Lawful reply as)
  | _, [] => isTrue trivial
  | h, a :: as =>
    have := Lawful.decidable (h.act a) as
    inferInstanceAs (Decidable (_ ∧ _ ∧ _))

theorem Follows.run {as : List Session.Action} (hk : Follows reply h k) (hl : k.Lawful reply as) :
    Follows reply h (k.run as) := by
  induction as generalizing k with
  | nil => exact hk
  | cons a as ih => exact ih (.step hk hl.1 hl.2.1) hl.2.2

/-- A run of a new session whose transfers do what their replies say. -/
theorem Supplied.ofRun (config : Config) (as : List Session.Action)
    (hc : config.maxConcurrency.toNat ≤ maxPermits) (hl : (new config).Lawful reply as) :
    ((new config).run as).Supplied reply config :=
  ⟨_, start_new hc, .run (.refl _) hl⟩

end History

end RangeFetch
