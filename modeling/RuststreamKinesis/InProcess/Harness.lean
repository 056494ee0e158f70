import RuststreamKinesis.Inbox
import RuststreamKinesis.InProcess.Replay

/-!
# What a harness shows, the service can show

For whatever a consumer is handed in process there is a run of a subscription on a shard of the
service, over the same appended records, that moves its cursor in the same way and hands its
consumer the same records. The reader of that run is brought back to the head of its loop after
every event.
-/

namespace RuststreamKinesis

set_option autoImplicit false

open Runs

namespace Subscription

variable {Owner : Type} [DecidableEq Owner]

/-- The steps of a subscription over a shard that stays as it is. -/
def stepOn (owner : Owner) (shard : Shard) (state : MemoryLease Owner × Subscription)
    (a : SubAct) : Option (MemoryLease Owner × Subscription) :=
  state.2.step owner shard state.1 a

/-- Some steps lead from one state to the other, show the events and hand over the records. -/
def Shows (owner : Owner) (shard : Shard) (state state' : MemoryLease Owner × Subscription)
    (events : List (Tape.Event Record)) (records : List Nat) : Prop :=
  ∃ as, exec (stepOn owner shard) state as = some state' ∧
    labels (stepOn owner shard) (fun state a => state.2.shown shard a) state as = events ∧
    labels (stepOn owner shard) (fun state a => state.2.got a) state as = records

namespace Shows

variable {owner : Owner} {shard : Shard} {state m state' : MemoryLease Owner × Subscription}
variable {events events' : List (Tape.Event Record)} {records records' : List Nat} {a : SubAct}

theorem one (h : stepOn owner shard state a = some state') :
    Shows owner shard state state' (state.2.shown shard a) (state.2.got a) :=
  ⟨[a], by simp [exec, h], by simp [labels, h], by simp [labels, h]⟩

theorem trans (h : Shows owner shard state m events records)
    (h' : Shows owner shard m state' events' records') :
    Shows owner shard state state' (events ++ events') (records ++ records') := by
  obtain ⟨as, has, rfl, rfl⟩ := h
  obtain ⟨bs, hbs, rfl, rfl⟩ := h'
  exact ⟨as ++ bs, by rw [exec_append has, hbs], labels_append has, labels_append has⟩

theorem first (h : stepOn owner shard state a = some state') (hs : state.2.shown shard a = events)
    (hg : state.2.got a = records) : Shows owner shard state state' events records := by
  have hone := one h
  rwa [hs, hg] at hone

/-- A step that shows nothing first. -/
theorem after (h : stepOn owner shard state a = some m) (hs : state.2.shown shard a = [])
    (hg : state.2.got a = []) (h' : Shows owner shard m state' events records) :
    Shows owner shard state state' events records := by
  have hall := (one h).trans h'
  rwa [hs, hg] at hall

/-- Steps that show nothing last. -/
theorem before (h : Shows owner shard state m events records)
    (h' : Shows owner shard m state' [] []) : Shows owner shard state state' events records := by
  have hall := h.trans h'
  rwa [List.append_nil, List.append_nil] at hall

end Shows

variable {u u' : Subscription} {owner : Owner} {shard : Shard} {lease lease' : MemoryLease Owner}
variable {state' : MemoryLease Owner × Subscription} {events : List (Tape.Event Record)}
variable {records : List Nat} {r : Reader} {c n e : Nat} {record : Record}

/-- An open subscription whose reader is at the head of its loop, with nothing asked of it and
nothing left for its consumer. -/
structure Calm (u : Subscription) (r : Reader) (c : Nat) : Prop where
  opened : u.closed = false
  queue : u.queue = []
  reader : u.reader = some r
  handle : u.handle = some r.gate
  pc : r.pc = .head
  iterator : r.iterator = c
  commands : r.commands = []
  gate : ∃ e : Nat, u.gates[r.gate]? = some e
  tracker : ∃ w : Watermark, u.trackers[r.tracker]? = some w

/-- From the head of its loop the reader comes to its next read. -/
theorem shows_reading (hr : u.reader = some r) (hopen : u.closed = false) (hpc : r.pc = .head)
    (hcmd : r.commands = []) (hgate : u.gates[r.gate]? = some e)
    (h : Shows owner shard (lease, u.goto r (.reading e)) state' events records) :
    Shows owner shard (lease, u) state' events records := by
  refine .after (a := .reader .checkClosed) (m := (lease, u.goto r .draining)) ?_ ?_ rfl ?_
  · simp [stepOn, step, readerStep, checkClosed, hr, hopen, hpc]
  · simp [shown, hr, Reader.shown]
  refine .after (a := .reader .drained) (m := (lease, u.goto r .renewing)) ?_ ?_ rfl ?_
  · simp [stepOn, step, readerStep, drained, goto, hcmd]
  · simp [shown, goto, Reader.shown]
  refine .after (a := .reader .notDue) (m := (lease, u.goto r .stamping)) ?_ ?_ rfl ?_
  · simp [stepOn, step, readerStep, notDue, goto]
  · simp [shown, goto, Reader.shown]
  refine .after (a := .reader .stamp) (m := (lease, u.goto r (.reading e))) ?_ ?_ rfl h
  · simp [stepOn, step, readerStep, stamp, goto, hgate]
  · simp [shown, goto, Reader.shown]

/-- What is left to do once the reader has a batch of one record and its reading is recorded. -/
theorem shows_handing (owner : Owner) (lease : MemoryLease Owner) (hr : u.reader = some r)
    (hopen : u.closed = false) (hqueue : u.queue = [])
    (hpc : r.pc = .forwarding e c (c + 1) false false) (hun : r.reading.unrecorded = false)
    (hhandle : u.handle = some r.gate) (hcmd : r.commands = [])
    (hgate : u.gates[r.gate]? = some e)
    (htracker : ∃ w : Watermark, u.trackers[r.tracker]? = some w)
    (hrecord : shard.log[c]? = some record) :
    ∃ u' r', Calm u' r' (c + 1) ∧ Shows owner shard (lease, u) (lease, u') [.take c record]
      (Reader.handsOut (.take c record)) := by
  obtain ⟨w, hw⟩ := htracker
  cases hagg : record.aggregated with
  | true =>
    let v (q : List Stamped) (r' : Reader) : Subscription :=
      { u with reader := some r', queue := q, refused := u.refused ++ [c] }
    let done : Reader := { r with pc := .head, iterator := c + 1, reading := r.reading.noteFirst c }
    let item : Stamped := ⟨some (e, r.gate), .aggregatedRecord⟩
    refine ⟨v [] done, done, ⟨hopen, rfl, rfl, hhandle, rfl, rfl, hcmd, ⟨e, hgate⟩, ⟨w, hw⟩⟩, ?_⟩
    have hout : Reader.handsOut (.take c record) = [] ++ [] := by simp [Reader.handsOut, hagg]
    rw [hout]
    change Shows owner shard (lease, u) (lease, v [] done) ([.take c record] ++ []) ([] ++ [])
    refine Shows.trans (m := (lease, v [item]
      { done with pc := .forwarding e (c + 1) (c + 1) false false, iterator := r.iterator })) ?_ ?_
    · refine .first (a := .reader .handOut) ?_ ?_ rfl
      · simp [stepOn, step, readerStep, handOut, hr, hpc, hun, hrecord, hw, hagg, hopen, room,
          hqueue, channelCapacity, push, goto, v, item, done]
      · simp [shown, hr, Reader.shown, hpc, hopen, hrecord]
    · refine .after (a := .reader .batchDone) (m := (lease, v [item] done)) ?_ rfl rfl ?_
      · simp [stepOn, step, readerStep, batchDone, v, done]
      · refine .first (a := .poll) ?_ rfl ?_
        · simp [stepOn, step, poll, hopen, v, item]
        · simp [got, hopen, v, item, carries]
  | false =>
    let v (q : List Stamped) (phase : Phase) (r' : Reader) : Subscription :=
      { u with
        reader := some r'
        queue := q
        trackers := u.trackers.set r.tracker (w.deliver c)
        deliveries := u.deliveries ++ [⟨c, r.tracker, w.nextIndex, r.gate, e, u.applied, phase⟩] }
    let done : Reader := { r with pc := .head, iterator := c + 1, reading := r.reading.noteFirst c }
    let item : Stamped := ⟨some (e, r.gate), .delivery u.deliveries.length⟩
    refine ⟨v [] .held done, done, ⟨hopen, rfl, rfl, hhandle, rfl, rfl, hcmd, ⟨e, hgate⟩,
      ⟨_, Cells.get_set_self hw⟩⟩, ?_⟩
    have hout : Reader.handsOut (.take c record) = [] ++ [c] := by simp [Reader.handsOut, hagg]
    rw [hout]
    change Shows owner shard (lease, u) (lease, v [] .held done) ([.take c record] ++ [])
      ([] ++ [c])
    refine Shows.trans (m := (lease, v [item] .queued
      { done with pc := .forwarding e (c + 1) (c + 1) false false, iterator := r.iterator })) ?_ ?_
    · refine .first (a := .reader .handOut) ?_ ?_ rfl
      · simp [stepOn, step, readerStep, handOut, hr, hpc, hun, hrecord, hw, hagg, hopen, room,
          hqueue, channelCapacity, push, goto, v, item, done]
      · simp [shown, hr, Reader.shown, hpc, hopen, hrecord]
    · refine .after (a := .reader .batchDone) (m := (lease, v [item] .queued done)) ?_ rfl rfl ?_
      · simp [stepOn, step, readerStep, batchDone, v, done]
      · refine .first (a := .poll) ?_ rfl ?_
        · simp [stepOn, step, poll, hopen, v, item, setPhase, Stamped.current, hgate]
        · simp [got, hopen, v, item, carries, Stamped.current, hgate, sequences]

/-- The record under the cursor is read, handed out and received. -/
theorem shows_taking (h : Calm u r c) (howner : lease.owner = some owner)
    (hrecord : shard.log[c]? = some record) :
    ∃ lease' u' r', Calm u' r' (c + 1) ∧ lease'.owner = some owner ∧
      Shows owner shard (lease, u) (lease', u') [.take c record]
        (Reader.handsOut (.take c record)) := by
  obtain ⟨e, hgate⟩ := h.gate
  have hlen : c < shard.log.length := (List.getElem?_eq_some_iff.mp hrecord).1
  let batch (reading : Reading) : Reader :=
    { r with pc := .forwarding e c (c + 1) false false, failures := 0, reading := reading }
  cases hun : r.reading.unrecorded with
  | false =>
    obtain ⟨u', r', hcalm, hshows⟩ := shows_handing owner lease
      (u := { u with reader := some (batch r.reading) }) rfl h.opened h.queue rfl hun h.handle
      h.commands hgate h.tracker hrecord
    refine ⟨lease, u', r', hcalm, howner, ?_⟩
    refine shows_reading h.reader h.opened h.pc h.commands hgate ?_
    refine .after (a := .reader (.getRecords 1 false)) ?_ rfl rfl hshows
    simp [stepOn, step, readerStep, getRecords, goto, h.iterator, hlen, batch]
  | true =>
    let lease' : MemoryLease Owner := { lease with openedAt := some c }
    let recorded : Reading := { r.reading.noteFirst c with unrecorded := false }
    obtain ⟨u', r', hcalm, hshows⟩ := shows_handing owner lease'
      (u := { u with reader := some (batch recorded) }) rfl h.opened h.queue rfl rfl h.handle
      h.commands hgate h.tracker hrecord
    refine ⟨lease', u', r', hcalm, howner, ?_⟩
    refine shows_reading h.reader h.opened h.pc h.commands hgate ?_
    refine .after (a := .reader (.getRecords 1 false))
      (m := (lease, { u with reader := some (batch r.reading) })) ?_ rfl rfl ?_
    · simp [stepOn, step, readerStep, getRecords, goto, h.iterator, hlen, batch]
    refine .after (a := .reader (.recordOpening true)) ?_ rfl rfl hshows
    simp [stepOn, step, readerStep, recordOpening, hun, MemoryLease.recordOpenedAt, howner, batch,
      lease', recorded]

/-- A seek puts the cursor anywhere in the log or at its tip. -/
theorem shows_moving (owner : Owner) (lease : MemoryLease Owner) (h : Calm u r c)
    (hn : n ≤ shard.log.length) :
    ∃ u' r', Calm u' r' n ∧ Shows owner shard (lease, u) (lease, u') [.move n] [] := by
  obtain ⟨e, hgate⟩ := h.gate
  obtain ⟨start, hstart⟩ : ∃ start, shard.getShardIterator (iteratorAt start) = some n := by
    rcases Nat.lt_or_eq_of_le hn with hlt | rfl
    · exact ⟨.atSeq n, if_pos hlt⟩
    · exact ⟨.stream .latest, rfl⟩
  let call := u.calls.length
  let found : SeekCall := ⟨r.gate, start, 0, .found⟩
  let bumped : SeekCall := ⟨r.gate, start, u.deliveries.length, .bumped⟩
  let sought (phase : CallPhase) : SeekCall := { bumped with phase := phase }
  let v (c : SeekCall) (r' : Reader) : Subscription :=
    { u with
      gates := u.gates.set r.gate (e + 1)
      calls := u.calls ++ [c]
      reader := some r' }
  let moved : Reader :=
    { r with
      iterator := n
      tracker := u.trackers.length
      reading := { rewind := rewindTo start, unrecorded := true } }
  let beyond (r' : Reader) : Subscription :=
    { v (sought (.answered (.moved (u.applied + 1)))) r' with
      trackers := u.trackers ++ [{}]
      applied := u.applied + 1 }
  have hgate' : (u.gates.set r.gate (e + 1))[r.gate]? = some (e + 1) := Cells.get_set_self hgate
  have hlive : u.live r.gate = true := by
    simp [live, h.reader, Reader.exited, h.pc]
  refine ⟨beyond moved, moved, ⟨h.opened, h.queue, rfl, h.handle, h.pc, rfl, h.commands,
    ⟨_, hgate'⟩, ⟨{}, by simp [moved, beyond]⟩⟩, ?_⟩
  refine .after (a := .find start) (m := (lease, { u with calls := u.calls ++ [found] })) ?_ rfl
    rfl ?_
  · simp [stepOn, step, find, h.handle, found]
  refine .after (a := .bump call) (m := (lease, v bumped r)) ?_ rfl rfl ?_
  · simp [stepOn, step, bump, found, call, hgate, v, bumped, h.reader]
  refine .after (a := .send call)
    (m := (lease, v (sought .sent) { r with commands := [call] })) ?_ rfl rfl ?_
  · simp [stepOn, step, send, call, v, bumped, sought, live, Reader.exited, h.pc, setCall,
      h.commands]
  refine .after (a := .reader .checkClosed)
    (m := (lease, v (sought .sent) { r with pc := .draining, commands := [call] })) ?_ rfl rfl ?_
  · simp [stepOn, step, readerStep, checkClosed, h.pc, h.opened, v, goto]
  refine .after (a := .reader .takeSeek)
    (m := (lease, v (sought .sent) { r with pc := .seeking call false })) ?_ rfl rfl ?_
  · simp [stepOn, step, readerStep, takeSeek, v, h.commands]
  have hfirst : Shows owner shard (lease, v (sought .sent) { r with pc := .seeking call false })
      (lease, beyond { moved with pc := .draining }) [.move n] [] := by
    refine .first (a := .reader (.applySeek .iterator)) ?_ ?_ rfl
    · simp [stepOn, step, readerStep, applySeek, applyShardSeek, v, beyond, call, sought, bumped,
        hstart, setCall, moved]
    · simp [shown, v, Reader.shown, call, sought, bumped, hstart]
  refine hfirst.before ?_
  refine .after (a := .reader .drained) (m := (lease, beyond { moved with pc := .renewing })) ?_ rfl
    rfl ?_
  · simp [stepOn, step, readerStep, drained, goto, beyond, v, moved, h.commands]
  refine .after (a := .reader .notDue) (m := (lease, beyond { moved with pc := .stamping })) ?_ rfl
    rfl ?_
  · simp [stepOn, step, readerStep, notDue, goto, beyond, v]
  refine .after (a := .reader .stamp)
    (m := (lease, beyond { moved with pc := .reading (e + 1) })) ?_ rfl rfl ?_
  · simp [stepOn, step, readerStep, stamp, goto, beyond, v, moved, hgate']
  refine .first (a := .reader (.readFails .throttled)) ?_ rfl rfl
  simp [stepOn, step, readerStep, readFails, goto, beyond, v, moved, h.pc]

end Subscription

namespace System

variable {Owner : Type} [DecidableEq Owner] {owner : Nat → Owner} {s s' : System Owner}
variable {x : Nat} {t t' : Tape (List UInt8)} {event : Tape.Event (List UInt8)}
variable {events events' : List (Tape.Event (List UInt8))} {records records' : List Nat}

/-- The records a consumer is handed where the entry is taken by a subscription to a shard: none
for an aggregated one. -/
def hands : Tape.Event (List UInt8) → List Nat
  | .take n data => if (⟨data, 0⟩ : Record).aggregated then [] else [n]
  | _ => []

/-- The record such a subscription refuses where the entry is taken. -/
def declines : Tape.Event (List UInt8) → List Nat
  | .take n data => if (⟨data, 0⟩ : Record).aggregated then [n] else []
  | _ => []

theorem refuses_declines (events : List (Tape.Event Record)) :
    events.flatMap Reader.refuses =
      (events.map (Tape.Event.map Record.data)).flatMap declines := by
  rw [List.flatMap_map]
  refine List.flatMap_congr fun event _ => ?_
  cases event <;> rfl

/-- Some run leads from one state to the other, shows the events and hands the records over to the
consumer of instance `x`. -/
def Shows (owner : Nat → Owner) (x : Nat) (s s' : System Owner)
    (events : List (Tape.Event (List UInt8))) (records : List Nat) : Prop :=
  ∃ as, exec (step owner) s as = some s' ∧
    (labels (step owner) (shown x) s as).map (Tape.Event.map Record.data) = events ∧
    received owner x s as = records

namespace Shows

variable {m : System Owner} {act : Act}

theorem nothing : Shows owner x s s [] [] := ⟨[], rfl, rfl, rfl⟩

theorem one (h : s.step owner act = some s') :
    Shows owner x s s' ((shown x s act).map (Tape.Event.map Record.data)) (got x s act) :=
  ⟨[act], by simp [exec, h], by simp [labels, h], by simp [received, labels, h]⟩

theorem trans (h : Shows owner x s m events records) (h' : Shows owner x m s' events' records') :
    Shows owner x s s' (events ++ events') (records ++ records') := by
  obtain ⟨as, has, rfl, rfl⟩ := h
  obtain ⟨bs, hbs, rfl, rfl⟩ := h'
  refine ⟨as ++ bs, by rw [exec_append has, hbs], ?_, labels_append has⟩
  rw [labels_append has, List.map_append]

end Shows

/-- Steps of a subscription are steps of the system it is in. -/
theorem exec_subs {as : List SubAct} {lease : MemoryLease Owner} {u : Subscription}
    (h : exec (Subscription.stepOn (owner x) s.shard) (s.lease, s.subs x) as = some (lease, u)) :
    let acts := as.map (Act.sub x)
    exec (step owner) s acts = some { s with lease, subs := Function.update s.subs x u } ∧
      labels (step owner) (shown x) s acts = labels (Subscription.stepOn (owner x) s.shard)
        (fun state a => state.2.shown s.shard a) (s.lease, s.subs x) as ∧
      received owner x s acts = labels (Subscription.stepOn (owner x) s.shard)
        (fun state a => state.2.got a) (s.lease, s.subs x) as := by
  induction as generalizing s with
  | nil =>
    obtain ⟨rfl, rfl⟩ := Prod.mk.inj (Option.some.inj h)
    exact ⟨by simp [exec], rfl, rfl⟩
  | cons a as ih =>
    obtain ⟨⟨lease₁, u₁⟩, h₁, hrest⟩ := Option.bind_eq_some_iff.mp h
    have hstep : s.step owner (.sub x a) =
        some { s with lease := lease₁, subs := Function.update s.subs x u₁ } :=
      Option.map_eq_some_iff.mpr ⟨_, h₁, rfl⟩
    have hself : Function.update s.subs x u₁ x = u₁ := Function.update_self ..
    have hall := ih
      (s := { s with lease := lease₁, subs := Function.update s.subs x u₁ })
      (by simpa only [hself] using hrest)
    simp only [hself, Function.update_idem] at hall
    obtain ⟨hexec, hlabels, hgot⟩ := hall
    refine ⟨?_, ?_, ?_⟩
    · simp only [List.map_cons, exec, hstep, Option.bind_some]
      exact hexec
    · rw [List.map_cons, labels_cons hstep, labels_cons h₁, hlabels]
      simp only [shown, ite_true]
    · rw [received, List.map_cons, labels_cons hstep, labels_cons h₁]
      simp only [got, ite_true]
      exact congrArg _ hgot

theorem shows_subs {lease : MemoryLease Owner} {u : Subscription}
    {shown : List (Tape.Event Record)} (h : Subscription.Shows (owner x) s.shard
      (s.lease, s.subs x) (lease, u) shown records) :
    Shows owner x s { s with lease, subs := Function.update s.subs x u }
      (shown.map (Tape.Event.map Record.data)) records := by
  obtain ⟨as, has, rfl, rfl⟩ := h
  obtain ⟨hexec, hlabels, hgot⟩ := exec_subs has
  exact ⟨as.map (.sub x), hexec, by rw [hlabels], hgot⟩

/-- The shard has the log of the tape, and the instance reads it from where the cursor is. -/
structure Stands (owner : Nat → Owner) (x : Nat) (s : System Owner) (t : Tape (List UInt8)) :
    Prop where
  log : s.shard.log.map Record.data = t.log
  growing : s.shard.closed = false
  held : s.lease.owner = some (owner x)
  calm : ∃ r, (s.subs x).Calm r t.cursor

/-- The shard has the log of the tape, and nobody has read it. -/
structure Untouched (x : Nat) (s : System Owner) (t : Tape (List UInt8)) : Prop where
  log : s.shard.log.map Record.data = t.log
  growing : s.shard.closed = false
  lease : s.lease = {}
  sub : s.subs x = {}

theorem shows_append {data : List UInt8} (hopen : s.shard.closed = false) :
    Shows owner x s { s with shard := s.shard.append data } [.append data] [] := by
  have hstep : s.step owner (.append data) =
      some { s with shard := s.shard.append data } := by simp [step, hopen]
  exact .one hstep

/-- Whatever the tape does next, the instance can do. -/
theorem Stands.next (hs : Stands owner x s t) (h : t.step event = some t') :
    ∃ s', Shows owner x s s' [event] (hands event) ∧ Stands owner x s' t' := by
  obtain ⟨hlog, hopen, howner, r, hcalm⟩ := hs
  cases event with
  | append data =>
    obtain rfl := Option.some.inj h
    refine ⟨_, shows_append hopen, ?_, hopen, howner, r, hcalm⟩
    simp [Shard.append, hlog]
  | move n =>
    simp only [Tape.step, Option.ite_none_right_eq_some, Option.some.injEq] at h
    obtain ⟨hn, rfl⟩ := h
    have hlen : n ≤ s.shard.log.length := by rwa [← hlog, List.length_map] at hn
    obtain ⟨u, r', hcalm', hshows⟩ :=
      Subscription.shows_moving (owner x) s.lease hcalm hlen
    exact ⟨_, shows_subs hshows, hlog, hopen, howner, r', by simpa using hcalm'⟩
  | take n data =>
    simp only [Tape.step, Option.ite_none_right_eq_some, Option.some.injEq] at h
    obtain ⟨⟨rfl, hget⟩, rfl⟩ := h
    rw [← hlog, List.getElem?_map] at hget
    obtain ⟨record, hrecord, rfl⟩ := Option.map_eq_some_iff.mp hget
    obtain ⟨lease, u, r', hcalm', howner', hshows⟩ :=
      Subscription.shows_taking hcalm howner hrecord
    exact ⟨_, shows_subs hshows, hlog, hopen, howner', r', by simpa using hcalm'⟩

theorem Stands.run (hs : Stands owner x s t) (h : exec Tape.step t events = some t') :
    ∃ s', Shows owner x s s' events (events.flatMap hands) ∧ Stands owner x s' t' := by
  induction events generalizing s t with
  | nil =>
    obtain rfl := Option.some.inj h
    exact ⟨s, .nothing, hs⟩
  | cons event events ih =>
    obtain ⟨m, hm, hrest⟩ := Option.bind_eq_some_iff.mp h
    obtain ⟨s₁, hshows, hs₁⟩ := hs.next hm
    obtain ⟨s₂, hshows', hs₂⟩ := ih hs₁ hrest
    exact ⟨s₂, hshows.trans hshows', hs₂⟩

/-- A fresh lineage opens its shard at the tip. -/
theorem Untouched.opens (owner : Nat → Owner) (hs : Untouched x s t) :
    ∃ s', Shows owner x s s' [.move t.log.length] [] ∧
      Stands owner x s' { t with cursor := t.log.length } := by
  obtain ⟨hlog, hopen, hlease, hsub⟩ := hs
  obtain ⟨⟨lease, u⟩, hexec, howner, hshown, hgot, r, hcalm⟩ : ∃ state,
      exec (Subscription.stepOn (owner x) s.shard) ({}, {})
        [.acquire .opens 0, .reader (.readRow true), .reader (.openIterator .iterator)] =
          some state ∧
      state.1.owner = some (owner x) ∧
      labels (Subscription.stepOn (owner x) s.shard) (fun state a => state.2.shown s.shard a)
        ({}, {}) [.acquire .opens 0, .reader (.readRow true),
          .reader (.openIterator .iterator)] = [.move s.shard.log.length] ∧
      labels (Subscription.stepOn (owner x) s.shard) (fun state a => state.2.got a)
        ({}, {}) [.acquire .opens 0, .reader (.readRow true),
          .reader (.openIterator .iterator)] = [] ∧
      ∃ r, state.2.Calm r s.shard.log.length :=
    ⟨_, rfl, rfl, rfl, rfl, _, ⟨rfl, rfl, rfl, rfl, rfl, rfl, rfl, ⟨0, rfl⟩, ⟨{}, rfl⟩⟩⟩
  have hlen : t.log.length = s.shard.log.length := by rw [← hlog, List.length_map]
  have hshows : Subscription.Shows (owner x) s.shard (s.lease, s.subs x) (lease, u)
      [.move s.shard.log.length] [] := by
    rw [hlease, hsub]
    exact ⟨_, hexec, hshown, hgot⟩
  rw [hlen]
  exact ⟨_, shows_subs hshows, hlog, hopen, howner, r, by simpa using hcalm⟩

/-- A tape that is first put at its tip is read by an instance that begins. -/
theorem Untouched.run (owner : Nat → Owner) (hs : Untouched x s t)
    (h : exec Tape.step t events = some t')
    (hopens : Tape.OpensAtTip t.log.length events) :
    ∃ s', Shows owner x s s' events (events.flatMap hands) ∧
      s'.shard.log.map Record.data = t'.log := by
  induction events generalizing s t with
  | nil =>
    obtain rfl := Option.some.inj h
    exact ⟨s, .nothing, hs.log⟩
  | cons event events ih =>
    obtain ⟨m, hm, hrest⟩ := Option.bind_eq_some_iff.mp h
    cases event with
    | append data =>
      obtain rfl := Option.some.inj hm
      have hs₁ : Untouched x { s with shard := s.shard.append data }
          { t with log := t.log ++ [data] } :=
        ⟨by simp [Shard.append, hs.log], hs.growing, hs.lease, hs.sub⟩
      obtain ⟨s₂, hshows, hlog⟩ := ih hs₁ hrest (by simpa [Tape.OpensAtTip] using hopens)
      exact ⟨s₂, (shows_append hs.growing).trans hshows, hlog⟩
    | move n =>
      obtain rfl : n = t.log.length := hopens
      simp only [Tape.step, Option.ite_none_right_eq_some, Option.some.injEq] at hm
      obtain ⟨-, rfl⟩ := hm
      obtain ⟨s₁, hshows, hs₁⟩ := hs.opens owner
      obtain ⟨s₂, hshows', hs₂⟩ := hs₁.run hrest
      exact ⟨s₂, hshows.trans hshows', hs₂.log⟩
    | take n data => cases hopens

end System

namespace InProcess.Bus

variable {start b b' : Bus} {act : Act} {as : List Act} {s n : Nat} {name : String} {sub : Sub}

/-- The subscription `s` of the stream has not registered. -/
def Unread (name : String) (s : Nat) (b : Bus) : Prop :=
  ∀ sub, b.subs[s]? = some sub → sub.stream ≠ name

theorem Unread.set {i : Nat} {old new : Sub} (hunread : Unread name s b)
    (hold : b.subs[i]? = some old) (hstream : new.stream = old.stream)
    (hsubs : b'.subs = b.subs.set i new) : Unread name s b' := by
  intro sub' hsub'
  rw [hsubs] at hsub'
  rcases Cells.get_set hsub' with ⟨rfl, rfl⟩ | ⟨-, hsub⟩
  · rw [hstream]
    exact hunread old hold
  · exact hunread sub' hsub

/-- Until the subscription registers a step shows a record at most. -/
theorem step_unread (h : b.step act = some b') (hunread : Unread name s b)
    (hopen : b'.phase ≠ .closed) :
    (∃ n, b.shown name s act = [.move n] ∧ n = (b.data name).length) ∨
    Unread name s b' ∧
      ((b.shown name s act = [] ∧ (b'.data name).length = (b.data name).length) ∨
        ∃ data, b.shown name s act = [.append data] ∧
          (b'.data name).length = (b.data name).length + 1) := by
  have hm := step_moves h
  have hphase : b.phase ≠ .closed := hm.phase hopen
  simp only [shown, if_neg hphase]
  cases hm with
  | tick _ | subscribe _ _ | append _ _ _ _ | stamp _ | skip _ _ _ | finish _ | shut =>
    exact .inr ⟨hunread, .inl ⟨rfl, rfl⟩⟩
  | clear _ _ => exact absurd rfl hopen
  | send _ hold _ | count _ hold | part hold _ _ _ =>
    refine .inr ⟨hunread.set hold ?_ rfl, .inl ⟨rfl, rfl⟩⟩
    rfl
  | @push k order stream record hk _ _ =>
    refine .inr ⟨hunread, ?_⟩
    simp only [hk]
    by_cases hname : stream = name
    · subst hname
      refine .inr ⟨record.data, if_pos rfl, ?_⟩
      simp [data]
    · refine .inl ⟨if_neg hname, ?_⟩
      simp [data, Function.update_of_ne (Ne.symm hname)]
  | @register k stream hk _ =>
    simp only [hk]
    by_cases hs : b.subs.length = s ∧ stream = name
    · exact .inl ⟨_, if_pos hs, by simp [data]⟩
    · refine .inr ⟨?_, .inl ⟨if_neg hs, rfl⟩⟩
      intro sub' hsub'
      rcases Cells.get_push hsub' with hsub' | ⟨hlen, rfl⟩
      · exact hunread sub' hsub'
      · exact fun hname => hs ⟨hlen.symm, hname⟩
  | @sub i a old new lock hold hlock hmove =>
    have hne : ¬ (i = s ∧ old.stream = name) := by
      rintro ⟨rfl, hname⟩
      exact hunread old hold hname
    simp only [hold, if_neg hne]
    exact .inr ⟨hunread.set hold hmove.stream rfl, .inl ⟨trivial, rfl⟩⟩

theorem exec_phase (h : exec Bus.step b as = some b') (hopen : b'.phase ≠ .closed) :
    b.phase ≠ .closed := by
  induction as generalizing b with
  | nil =>
    obtain rfl := Option.some.inj h
    exact hopen
  | cons act as ih =>
    obtain ⟨m, hm, hrest⟩ := Option.bind_eq_some_iff.mp h
    exact (step_moves hm).phase (ih hrest)

/-- A subscription is put at the tip of its stream first. -/
theorem shown_opens (h : exec Bus.step b as = some b') (hunread : Unread name s b)
    (hopen : b'.phase ≠ .closed) :
    Tape.OpensAtTip (b.data name).length (labels Bus.step (shown name s) b as) := by
  induction as generalizing b with
  | nil => trivial
  | cons act as ih =>
    obtain ⟨m, hm, hrest⟩ := Option.bind_eq_some_iff.mp h
    rw [labels_cons hm]
    rcases step_unread hm hunread (exec_phase hrest hopen) with
      ⟨n, hshown, hn⟩ | ⟨hunread', ⟨hshown, hlen⟩ | ⟨data, hshown, hlen⟩⟩
    · rw [hshown]
      exact hn
    · rw [hshown, ← hlen]
      exact ih hrest hunread'
    · have hrun := ih hrest hunread'
      rw [hlen] at hrun
      rw [hshown]
      exact hrun

/-- The deliveries a subscription took off its queue, in the order it did. -/
def takes (sub : Sub) : List Delivery :=
  (sub.events.filterMap fun event =>
    match event with
    | .took delivery => some delivery
    | _ => none).reverse

theorem taken_takes : sub.taken = (takes sub).map fun d => (d.index, d.record.data) := by
  rw [Sub.taken, takes, List.map_reverse, List.map_filterMap]
  congr 1
  refine List.filterMap_congr fun event _ => ?_
  cases event <;> rfl

/-- A delivery is made of a record unless it is aggregated. -/
theorem deliver_ok (delivery : Delivery) : (deliver delivery).isOk =
    !(⟨delivery.record.data, 0⟩ : RuststreamKinesis.Record).aggregated := by
  have hagg : (⟨delivery.record.data, 0⟩ : RuststreamKinesis.Record).aggregated =
      decide (4 < delivery.record.data.length ∧ delivery.record.data.take 4 = kplMagic) := by
    rw [RuststreamKinesis.Record.aggregated, Bool.decide_and, beq_eq_decide]
  rw [hagg, deliver]
  split
  · rename_i h
    rw [decide_eq_true h]
    rfl
  · rename_i h
    rw [decide_eq_false h]
    rfl

/-- What the service hands out and refuses of the entries that are taken in process. -/
theorem hands_takes {events : List (Tape.Event (List UInt8))} {ds : List Delivery}
    (h : events.flatMap Tape.Event.taken = ds.map fun d => (d.index, d.record.data)) :
    events.flatMap System.hands =
        (ds.filter fun d => (deliver d).isOk).map Delivery.index ∧
      events.flatMap System.declines =
        (ds.filter fun d => !(deliver d).isOk).map Delivery.index := by
  induction events generalizing ds with
  | nil =>
    obtain rfl := List.map_eq_nil_iff.mp h.symm
    exact ⟨rfl, rfl⟩
  | cons event events ih =>
    cases event with
    | append | move => exact ih h
    | take n data =>
      cases ds with
      | nil => cases h
      | cons d ds =>
        obtain ⟨hhead, hrest⟩ := List.cons.inj h
        obtain ⟨rfl, rfl⟩ := Prod.mk.inj hhead
        obtain ⟨hout, hrefused⟩ := ih hrest
        have hok := deliver_ok d
        rw [List.flatMap_cons, List.flatMap_cons, hout, hrefused]
        simp only [System.hands, System.declines, List.filter_cons, hok]
        cases (⟨d.record.data, 0⟩ : RuststreamKinesis.Record).aggregated <;> exact ⟨rfl, rfl⟩

/-- Whatever a subscription of a bus that is not cleared shows, an instance reading a shard of the
service with the same records can show. Its consumer is handed the deliveries made in process, and
the records refused there are refused to it, in the same order. -/
theorem stands_for_service (hfresh : Fresh start) (h : exec Bus.step start as = some b)
    (hopen : b.phase ≠ .closed) (hsub : b.subs[s]? = some sub) :
    let shard : Shard := { log := (start.data sub.stream).map fun data => ⟨data, 0⟩ }
    ∃ (acts : List RuststreamKinesis.Act) (s' : System Nat),
      exec (System.step id) (System.fresh shard {}) acts = some s' ∧
      s'.shard.log.map RuststreamKinesis.Record.data = b.data sub.stream ∧
      (labels (System.step id) (System.shown 0) (System.fresh shard {}) acts).map
          (Tape.Event.map RuststreamKinesis.Record.data) =
        labels Bus.step (shown sub.stream s) start as ∧
      System.received id 0 (System.fresh shard {}) acts =
        ((takes sub).filter fun d => (deliver d).isOk).map Delivery.index ∧
      (s'.subs 0).refused =
        ((takes sub).filter fun d => !(deliver d).isOk).map Delivery.index := by
  intro shard
  have hempty : start.subs[s]? = none := by rw [hfresh.subs]; rfl
  have hunread : Unread sub.stream s start := by
    intro sub' hsub'
    cases hempty.symm.trans hsub'
  have hstart : Tracks sub.stream s start (⟨start.data sub.stream, 0⟩ : Tape (List UInt8)) := by
    refine ⟨ledger_fresh hfresh, enrolled_fresh hfresh, follows_fresh hfresh, fun _ => rfl, ?_⟩
    intro _ sub' hsub' _
    cases hempty.symm.trans hsub'
  obtain ⟨⟨t, ht, hf⟩, -, htaken⟩ := run_tracks h hstart hopen
  have hbegin : System.Untouched 0 (System.fresh shard {} : System Nat)
      (⟨start.data sub.stream, 0⟩ : Tape (List UInt8)) := by
    refine ⟨?_, rfl, rfl, rfl⟩
    simp [System.fresh, shard, Function.comp_def]
  obtain ⟨s', ⟨acts, hacts, hshown, hgot⟩, hlog⟩ :=
    hbegin.run id ht (shown_opens h hunread hopen)
  have hnone : start.takenBy sub.stream s = [] := by simp only [takenBy, hempty]
  rw [takenBy_some hsub rfl, hnone, List.nil_append, taken_takes] at htaken
  obtain ⟨hout, hrefused⟩ := hands_takes htaken.symm
  refine ⟨acts, s', hacts, hlog.trans (hf.log hopen), hshown, hgot.trans hout, ?_⟩
  have hfollows : System.Follows 0 (System.fresh shard {} : System Nat) ⟨shard.log, 0⟩ :=
    ⟨rfl, .absent (by simp [System.fresh])⟩
  obtain ⟨-, -, href⟩ := System.run_follows hacts hfollows
  have hbegun : ((System.fresh shard {} : System Nat).subs 0).refused = [] := rfl
  rw [href, hbegun, List.nil_append, System.refuses_declines, hshown, hrefused]

/-- The replay as an instance of the service can show it: the record there was and the refusal. -/
theorem stands_for_service_replaying :
    ∃ (acts : List RuststreamKinesis.Act) (s' : System Nat),
      exec (System.step id) (System.fresh {} {}) acts = some s' ∧
      System.received id 0 (System.fresh {} {}) acts = [0] ∧ (s'.subs 0).refused = [1] := by
  obtain ⟨b, hexec, hphase, sub, hsub, hout, hrefused⟩ : ∃ b,
      exec Bus.step {} replaying = some b ∧ b.phase = .opened ∧ ∃ sub, b.subs[0]? = some sub ∧
        ((takes sub).filter fun d => (deliver d).isOk).map Delivery.index = [0] ∧
        ((takes sub).filter fun d => !(deliver d).isOk).map Delivery.index = [1] :=
    ⟨_, rfl, rfl, _, rfl, rfl, rfl⟩
  have hopen : b.phase ≠ .closed := by rw [hphase]; simp
  obtain ⟨acts, s', hacts, -, -, hgot, href⟩ :=
    stands_for_service ⟨rfl, rfl, rfl, rfl⟩ hexec hopen hsub
  exact ⟨acts, s', hacts, hgot.trans hout, href.trans hrefused⟩

end InProcess.Bus

end RuststreamKinesis
