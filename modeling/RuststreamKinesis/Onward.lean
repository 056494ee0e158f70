import RuststreamKinesis.Order
import RuststreamKinesis.Progress
import RuststreamKinesis.Succession

/-!
# Reading on to the end

A reader that goes round its loop is not held up for good by anything but its consumer: by steps of
its own, answers of the service that are no errors, and polls of the consumer it comes to the end of
the log. What it has left to read gets less with each record, and between two records it comes
closer to the next one with each step, or to room in the channel.
-/

namespace RuststreamKinesis

set_option autoImplicit false

open Runs

/-- The reader goes round its loop, from the check for a closed channel to the end of a batch. -/
def Reader.looping (r : Reader) : Bool :=
  match r.pc with
  | .head | .draining | .renewing | .stamping | .reading _ | .forwarding _ _ _ _ _ | .idle => true
  | _ => false

/-- How far a reader is from the next record it hands out. -/
def Pc.ahead : Pc → Nat
  | .forwarding _ next stop _ _ => if next < stop then 0 else 7
  | .reading _ => 1
  | .stamping => 2
  | .renewing => 3
  | .draining => 4
  | .head => 5
  | .idle => 6
  | _ => 0

/-- The steps of a reader that goes on, all requests being answered and no renewal being due. -/
def SubAct.onward : SubAct → Bool
  | .poll => true
  | .reader act =>
    match act with
    | .checkClosed | .drained | .notDue | .stamp | .getRecords _ _ | .recordOpening true
    | .handOut | .batchDone | .wake => true
    | _ => false
  | _ => false

namespace Subscription

variable {Owner : Type} [DecidableEq Owner] {u u' : Subscription} {owner : Owner}
variable {shard : Shard} {lease lease' : MemoryLease Owner} {r r' : Reader} {a : SubAct}
variable {act : ReaderAct} {p p' : Nat} {pc : Pc}

/-- A reader on its way, with no seek sent to it, that may record where it opened. -/
structure Onward (shard : Shard) (owner : Owner) (lease : MemoryLease Owner) (u : Subscription)
    (r : Reader) (p : Nat) : Prop where
  opened : u.closed = false
  reader : u.reader = some r
  looping : r.looping = true
  position : r.position = some p
  inLog : p ≤ shard.log.length
  commands : r.commands = []
  owns : r.reading.unrecorded = true → lease.owner = some owner

/-- What is left to read, and what is left to do until the next record. -/
def toEnd (shard : Shard) (u : Subscription) (r : Reader) : Nat × Nat × Nat × Nat :=
  (shard.log.length - r.position.getD 0, r.pc.ahead, r.reading.unrecorded.toNat, u.queue.length)

/-- A step onward that leaves less to do. -/
def Nears (shard : Shard) (owner : Owner) (lease : MemoryLease Owner) (u : Subscription)
    (r : Reader) : Prop :=
  ∃ a lease' u' r' p', a.onward = true ∧ u.step owner shard lease a = some (lease', u') ∧
    Onward shard owner lease' u' r' p' ∧ Smaller (toEnd shard u' r') (toEnd shard u r)

/-- There is less left to read. -/
theorem smaller_left (hp : r.position = some p) (hp' : r'.position = some p') (hlt : p < p')
    (hle : p' ≤ shard.log.length) : Smaller (toEnd shard u' r') (toEnd shard u r) := by
  simp only [toEnd, hp, hp', Option.getD_some]
  apply Prod.Lex.left
  omega

/-- The next record is nearer. -/
theorem smaller_ahead (hp : r.position = some p) (hp' : r'.position = some p)
    (hlt : r'.pc.ahead < r.pc.ahead) : Smaller (toEnd shard u' r') (toEnd shard u r) := by
  simp only [toEnd, hp, hp']
  exact .right _ (.left _ _ hlt)

theorem Onward.nears (h : Onward shard owner lease u r p)
    (hact : (SubAct.reader act).onward = true)
    (hstep : u.readerStep owner shard lease r act = some (lease', u'))
    (hnext : Onward shard owner lease' u' r' p')
    (hless : Smaller (toEnd shard u' r') (toEnd shard u r)) : Nears shard owner lease u r := by
  refine ⟨.reader act, lease', u', r', p', hact, ?_, hnext, hless⟩
  simp only [Subscription.step, h.reader, Option.bind_some, hstep]

/-- The reader goes from one place of its loop to another, at the same record. -/
theorem Onward.goes (h : Onward shard owner lease u r p)
    (hact : (SubAct.reader act).onward = true)
    (hstep : u.readerStep owner shard lease r act = some (lease, u.goto r pc))
    (hloop : Reader.looping { r with pc := pc } = true)
    (hpos : Reader.position { r with pc := pc } = some p) (hlt : pc.ahead < r.pc.ahead) :
    Nears shard owner lease u r := by
  exact h.nears hact hstep ⟨h.opened, rfl, hloop, hpos, h.inLog, h.commands, h.owns⟩
    (smaller_ahead h.position hpos hlt)

theorem Onward.polls (h : Onward shard owner lease u r p) (hord : Orderly shard u)
    (hqueue : u.queue ≠ []) : Nears shard owner lease u r := by
  obtain ⟨u', hpoll, hr, hopen', -, hlt, -, -⟩ := hord.polls h.opened hqueue
  refine ⟨.poll, lease, u', r, p, rfl, ?_, ?_, ?_⟩
  · simp only [Subscription.step, hpoll, Option.map_some]
  · exact ⟨hopen', hr.trans h.reader, h.looping, h.position, h.inLog, h.commands, h.owns⟩
  · simp only [toEnd]
    exact .right _ (.right _ (.right _ hlt))

/-- The record under the cursor is handed out, or refused, once there is room for it. -/
theorem Onward.hands {epoch next stop : Nat} {last idle : Bool}
    (h : Onward shard owner lease u r p) (hord : Orderly shard u)
    (hpc : r.pc = .forwarding epoch next stop last idle) (hlt : next < stop)
    (hrec : r.reading.unrecorded = false) : Nears shard owner lease u r := by
  rcases room_or_queue u with hroom | hqueue
  · have hlen := (hord.inLog r epoch next stop last idle h.reader hpc).2
    have hget : shard.log[next]? = some shard.log[next] := List.getElem?_eq_getElem (by omega)
    have htracker := (hord.sound.seated r h.reader).1
    have hw : u.trackers[r.tracker]? = some u.trackers[r.tracker] :=
      List.getElem?_eq_getElem htracker
    have hpos : r.position = some next := Reader.position_forwarding hpc
    cases hagg : (shard.log[next]).aggregated with
    | true =>
      have hstep : u.readerStep owner shard lease r .handOut = some (lease,
          { (u.push ⟨some (epoch, r.gate), .aggregatedRecord⟩).goto
            { r with reading := r.reading.noteFirst next }
            (.forwarding epoch (next + 1) stop last idle) with
            refused := u.refused ++ [next] }) := by
        simp [readerStep, handOut, hpc, hlt, hrec, hget, hw, hagg, h.opened, hroom]
      refine h.nears rfl hstep ⟨h.opened, rfl, rfl, rfl, by omega, h.commands, ?_⟩ ?_
      · intro hun
        cases hrec.symm.trans hun
      · exact smaller_left hpos rfl (Nat.lt_succ_self next) (by omega)
    | false =>
      have hstep : u.readerStep owner shard lease r .handOut = some (lease,
          { (u.push ⟨some (epoch, r.gate), .delivery u.deliveries.length⟩).goto
            { r with reading := r.reading.noteFirst next }
            (.forwarding epoch (next + 1) stop last idle) with
            trackers := u.trackers.set r.tracker (u.trackers[r.tracker].deliver next)
            deliveries := u.deliveries ++ [{
              sequence := next
              tracker := r.tracker
              index := u.trackers[r.tracker].nextIndex
              gate := r.gate
              epoch := epoch
              via := u.applied
              phase := .queued }] }) := by
        simp [readerStep, handOut, hpc, hlt, hrec, hget, hw, hagg, h.opened, hroom]
      refine h.nears rfl hstep ⟨h.opened, rfl, rfl, rfl, by omega, h.commands, ?_⟩ ?_
      · intro hun
        cases hrec.symm.trans hun
      · exact smaller_left hpos rfl (Nat.lt_succ_self next) (by omega)
  · exact h.polls hord hqueue

theorem Onward.forwards {epoch next stop : Nat} {last idle : Bool}
    (h : Onward shard owner lease u r p) (hord : Orderly shard u)
    (hpc : r.pc = .forwarding epoch next stop last idle) (hlt : next < stop) :
    Nears shard owner lease u r := by
  cases hrec : r.reading.unrecorded with
  | false => exact h.hands hord hpc hlt hrec
  | true =>
    have hstep : u.readerStep owner shard lease r (.recordOpening true) =
        some ({ lease with openedAt := some next }, { u with reader := some { r with
          reading := { r.reading.noteFirst next with unrecorded := false } } }) := by
      simp [readerStep, recordOpening, hpc, hlt, hrec, MemoryLease.recordOpenedAt, h.owns hrec]
    refine h.nears rfl hstep ⟨h.opened, rfl, h.looping, h.position, h.inLog, h.commands, ?_⟩ ?_
    · intro hun
      cases hun
    · have hpos : Reader.position { r with
          reading := { r.reading.noteFirst next with unrecorded := false } } = some p := h.position
      simp only [toEnd, hpos, h.position, Option.getD_some, hrec]
      exact .right _ (.right _ (.left _ _ Nat.zero_lt_one))

/-- As long as there is something left to read, a step onward can be made. -/
theorem Onward.progress (h : Onward shard owner lease u r p) (hord : Orderly shard u)
    (hend : EndsLog shard u) (hleft : p < shard.log.length) : Nears shard owner lease u r := by
  have hposition := h.position
  have hloop := h.looping
  cases hpc : r.pc with
  | head =>
    have hstep : u.readerStep owner shard lease r .checkClosed =
        some (lease, u.goto r .draining) := by
      simp [readerStep, checkClosed, hpc, h.opened]
    refine h.goes rfl hstep rfl ?_ (by simp [Pc.ahead, hpc])
    simpa [Reader.position, hpc] using hposition
  | draining =>
    have hstep : u.readerStep owner shard lease r .drained =
        some (lease, u.goto r .renewing) := by
      simp [readerStep, drained, hpc, h.commands]
    refine h.goes rfl hstep rfl ?_ (by simp [Pc.ahead, hpc])
    simpa [Reader.position, hpc] using hposition
  | renewing =>
    have hstep : u.readerStep owner shard lease r .notDue =
        some (lease, u.goto r .stamping) := by
      simp [readerStep, notDue, hpc]
    refine h.goes rfl hstep rfl ?_ (by simp [Pc.ahead, hpc])
    simpa [Reader.position, hpc] using hposition
  | stamping =>
    have hgate := (hord.sound.seated r h.reader).2
    have hstep : u.readerStep owner shard lease r .stamp =
        some (lease, u.goto r (.reading u.gates[r.gate])) := by
      simp [readerStep, stamp, hpc, List.getElem?_eq_getElem hgate]
    refine h.goes rfl hstep rfl ?_ (by simp [Pc.ahead, hpc])
    simpa [Reader.position, hpc] using hposition
  | idle =>
    have hstep : u.readerStep owner shard lease r .wake = some (lease, u.goto r .head) := by
      simp [readerStep, wake, hpc]
    refine h.goes rfl hstep rfl ?_ (by simp [Pc.ahead, hpc])
    simpa [Reader.position, hpc] using hposition
  | reading epoch =>
    obtain rfl : r.iterator = p := by simpa [Reader.position, hpc] using hposition
    -- the service may answer with one record at a time
    have hstep : u.readerStep owner shard lease r (.getRecords 1 false) =
        some (lease, { u with reader := some { r with
          pc := .forwarding epoch r.iterator (r.iterator + 1) false false
          failures := 0 } }) := by
      simp [readerStep, getRecords, hpc, Nat.succ_le_of_lt hleft]
    refine h.nears rfl hstep ⟨h.opened, rfl, rfl, rfl, h.inLog, h.commands, h.owns⟩ ?_
    exact smaller_ahead hposition rfl (by simp [Pc.ahead, hpc])
  | forwarding epoch next stop last idle =>
    obtain rfl : next = p := by simpa [Reader.position, hpc] using hposition
    obtain ⟨hle, -⟩ := hord.inLog r epoch next stop last idle h.reader hpc
    rcases Nat.lt_or_eq_of_le hle with hlt | rfl
    · exact h.forwards hord hpc hlt
    · cases last with
      | true =>
        obtain ⟨-, hstop⟩ := hend r h.reader next (.inr ⟨_, _, _, hpc⟩)
        omega
      | false =>
        have hstep : u.readerStep owner shard lease r .batchDone =
            some (lease, { u with reader := some { r with
              pc := if idle then .idle else .head
              iterator := next } }) := by
          simp [readerStep, batchDone, hpc]
        have hnext : Reader.position { r with
            pc := if idle then .idle else .head
            iterator := next } = some next := by
          cases idle <;> rfl
        have hloops : Reader.looping { r with
            pc := if idle then .idle else .head
            iterator := next } = true := by
          cases idle <;> rfl
        refine h.nears rfl hstep ⟨h.opened, rfl, hloops, hnext, h.inLog, h.commands, h.owns⟩ ?_
        refine smaller_ahead hposition hnext ?_
        cases idle <;> simp [Pc.ahead, hpc]
  | opening | fetching | seeking | ending | releasing | exited =>
    simp [Reader.looping, hpc] at hloop

end Subscription

namespace System

open Subscription

variable {Owner : Type} [DecidableEq Owner] {owner : Nat → Owner} {s s' : System Owner} {act : Act}
variable {as : List Act} {x p : Nat} {r : Reader}

/-- The act is a step onward of instance `x`. -/
def onward (x : Nat) : Act → Bool
  | .sub y act => y == x && act.onward
  | _ => false

/-- What instance `x` has left to read, and to do until the next record. -/
def left (x : Nat) (s : System Owner) : Nat × Nat × Nat × Nat :=
  match (s.subs x).reader with
  | some r => toEnd s.shard (s.subs x) r
  | none => (0, 0, 0, 0)

theorem endsLog_run {shard : Shard} {lease : MemoryLease Owner}
    (h : Run (step owner) (fun _ _ => True) (fresh shard lease) s) (x : Nat) :
    EndsLog s.shard (s.subs x) := by
  refine h.invariant (I := fun s => ∀ x, EndsLog s.shard (s.subs x)) ?_ ?_ x
  · intro s act s' hs _ hstep y
    have hg := (step_cases hstep).grows
    rcases (step_cases hstep).at y with he | ⟨a, rfl, ha⟩
    · exact he ▸ (hs y).grows hg
    · exact ((hs y).step ha).grows hg
  · intro y r hr
    cases hr

omit [DecidableEq Owner] in
theorem onward_still (h : onward x act = true) : fetches x act = false := by
  cases act with
  | sub y a =>
    simp only [onward, Bool.and_eq_true, beq_iff_eq] at h
    obtain ⟨rfl, ha⟩ := h
    simp only [fetches, beq_self_eq_true, Bool.true_and]
    unfold SubAct.onward at ha
    split at ha
    · rfl
    · split at ha <;> first | rfl | cases ha
    · cases ha
  | _ => cases h

/-- The place a reader stands at is in the shard's log, or at its end. -/
theorem position_le {shard : Shard} {lease : MemoryLease Owner}
    (h : exec (step owner) (fresh shard lease) as = some s)
    (hr : (s.subs x).reader = some r) (hp : r.position = some p) : p ≤ s.shard.log.length := by
  have hstart : Follows x (fresh shard lease) (⟨shard.log, 0⟩ : Tape Record) :=
    ⟨rfl, .absent (by simp [fresh])⟩
  obtain ⟨⟨t, ht, hf⟩, -, -⟩ := run_follows h hstart
  obtain rfl : p = t.cursor := hf.cursor r p hr hp
  rw [← hf.log]
  exact Tape.exec_le ht (Nat.zero_le _)

/-- By steps onward a reader comes to the end of the log. -/
theorem reaches_end (hord : Orderly s.shard (s.subs x)) (hend : EndsLog s.shard (s.subs x))
    (h : Onward s.shard (owner x) s.lease (s.subs x) r p) :
    ∃ s', Run (step owner) (fun _ act => onward x act = true) s s' ∧ s'.shard = s.shard ∧
      ∃ r', (s'.subs x).reader = some r' ∧ r'.position = some s.shard.log.length := by
  have hreach : ∃ t, Run (step owner) (fun _ act => onward x act = true) s t ∧
      t.shard = s.shard ∧ ∃ r p, Onward s.shard (owner x) t.lease (t.subs x) r p ∧
        s.shard.log.length ≤ p := by
    refine Run.reaches smaller_wf (m := left x)
      (I := fun t => t.shard = s.shard ∧ Orderly s.shard (t.subs x) ∧ EndsLog s.shard (t.subs x) ∧
        ∃ r p, Onward s.shard (owner x) t.lease (t.subs x) r p) ?_ ⟨rfl, hord, hend, r, p, h⟩
    rintro t ⟨hshard, hord, hend, r, p, h⟩
    rcases Nat.lt_or_ge p s.shard.log.length with hlt | hge
    · obtain ⟨a, lease', u', r', p', ha, hstep, hnext, hless⟩ := h.progress hord hend hlt
      have hcases := Subscription.step_cases hstep
      rw [← hshard] at hstep
      refine .inr ⟨.sub x a, _, ?_, sub_step hstep, ⟨hshard, ?_⟩, .inr ?_⟩
      · simp only [onward, beq_self_eq_true, ha, Bool.and_self]
      · simp only [Function.update_self]
        exact ⟨hord.step hcases, hend.step hcases, r', p', hnext⟩
      · simp only [left, Function.update_self, hnext.reader, h.reader, hshard]
        exact hless
    · exact .inl ⟨hshard, r, p, h, hge⟩
  obtain ⟨s', hrun, hshard, r', p', h', hle⟩ := hreach
  have hp' : p' = s.shard.log.length := Nat.le_antisymm h'.inLog hle
  exact ⟨s', hrun, hshard, r', h'.reader, hp' ▸ h'.position⟩

/-- What is handed out, and refused, on the way there. -/
theorem reads_to_end (hord : Orderly s.shard (s.subs x)) (hend : EndsLog s.shard (s.subs x))
    (h : Onward s.shard (owner x) s.lease (s.subs x) r p) :
    ∃ bs s', (∀ act ∈ bs, onward x act = true) ∧ exec (step owner) s bs = some s' ∧
      s'.shard = s.shard ∧
      (s'.subs x).sequences = (s.subs x).sequences ++
        (List.range' p (s.shard.log.length - p)).filter (fun n => !s.refusedAt n) ∧
      (s'.subs x).refused = (s.subs x).refused ++
        (List.range' p (s.shard.log.length - p)).filter s.refusedAt := by
  obtain ⟨s', hon, hshard, r', hr', hp'⟩ := reaches_end hord hend h
  obtain ⟨bs, hbs, hexec⟩ := hon.exists_exec
  obtain ⟨⟨t', ht, hf⟩, hseq, href⟩ := run_follows hexec (Follows.from h.reader h.position)
  have hstill := labels_still hexec fun act hact => onward_still (hbs act hact)
  have hlog : t'.log = s.shard.log := hf.log.trans (congrArg Shard.log hshard)
  obtain ⟨-, hout, hrefused⟩ := handsOut_stretch ht hlog hstill
  have hcursor : s.shard.log.length = t'.cursor := hf.cursor r' _ hr' hp'
  rw [hcursor]
  exact ⟨bs, s', hbs, hexec, hshard, hout ▸ hseq, hrefused ▸ href⟩

/-- From wherever a reader stands in its loop with no seek before it, it can read on, by steps of
its own and polls of its consumer alone, until all the log is handed out, or refused, in order. -/
theorem reads_on {shard : Shard} {lease : MemoryLease Owner}
    (h : exec (step owner) (fresh shard lease) as = some s) (hopen : (s.subs x).closed = false)
    (hr : (s.subs x).reader = some r) (hloop : r.looping = true) (hp : r.position = some p)
    (hcommands : r.commands = [])
    (howns : r.reading.unrecorded = true → s.lease.owner = some (owner x)) :
    ∃ bs s', (∀ act ∈ bs, onward x act = true) ∧ exec (step owner) s bs = some s' ∧
      s'.shard = s.shard ∧
      (s'.subs x).sequences = (s.subs x).sequences ++
        (List.range' p (s.shard.log.length - p)).filter (fun n => !s.refusedAt n) ∧
      (s'.subs x).refused = (s.subs x).refused ++
        (List.range' p (s.shard.log.length - p)).filter s.refusedAt := by
  have hrun : Run (step owner) (fun _ _ => True) (fresh shard lease) s :=
    .of_exec (fun _ _ => trivial) h
  exact reads_to_end (orderly_run hrun x) (endsLog_run hrun x)
    ⟨hopen, hr, hloop, hp, position_le h hr hp, hcommands, howns⟩

/-- Three records have arrived at a reader that was opened at the tip. -/
theorem reads_on_handingOut : ∃ (s s' : System Nat) (bs : List Act),
    exec (step id) (fresh {} {}) (handingOut.take 7) = some s ∧
    (∀ act ∈ bs, onward 0 act = true) ∧ exec (step id) s bs = some s' ∧
    (s'.subs 0).sequences = [1, 3] ∧ (s'.subs 0).refused = [2] := by
  obtain ⟨s, hs, hr, hopen, howner, hseq, href, hlog⟩ : ∃ s : System Nat,
      exec (step id) (fresh {} {}) (handingOut.take 7) = some s ∧
      (∃ r, (s.subs 0).reader = some r ∧ r.looping = true ∧ r.position = some 1 ∧
        r.commands = []) ∧
      (s.subs 0).closed = false ∧ s.lease.owner = some 0 ∧
      (s.subs 0).sequences = [] ∧ (s.subs 0).refused = [] ∧
      s.shard.log.map Record.aggregated = [false, false, true, false] :=
    ⟨_, rfl, ⟨_, rfl, rfl, rfl, rfl⟩, rfl, rfl, rfl, rfl, by decide⟩
  obtain ⟨r, hr, hloop, hp, hcommands⟩ := hr
  obtain ⟨bs, s', hbs, hexec, -, hout, hrefused⟩ :=
    reads_on hs hopen hr hloop hp hcommands fun _ => howner
  have hlen : s.shard.log.length = 4 := by
    rw [← List.length_map, hlog]
    rfl
  have hat : ∀ n, s.refusedAt n = ([false, false, true, false][n]?).any id := by
    intro n
    rw [← hlog, List.getElem?_map, Option.any_map]
    rfl
  rw [funext hat, hlen, href] at hrefused
  rw [hlen, hseq] at hout
  simp only [hat] at hout
  exact ⟨s, s', bs, hs, hbs, hexec, hout, hrefused⟩

end System

end RuststreamKinesis
