import RuststreamKinesis.Lease
import RuststreamKinesis.Service
import RuststreamKinesis.Track

/-!
# One subscription on one shard

The part of a subscription that concerns one shard: the coordinator's entries for it, the seek
surface, the reader task, the deliveries it handed out and the seeks made on it (`subscriber.rs`,
`message.rs`). Every await of the source is a step of its own, so any interleaving of the tasks
is a sequence of these steps. The channel is the one of the source restricted to the items of this
shard; what other shards put into it only makes a reader wait.
-/

namespace RuststreamKinesis

set_option autoImplicit false

/-- How far the settlement of a delivery has come. -/
inductive Phase where
  | queued
  | held
  | checked
  | writing (sequence : Nat)
  | settled (watermark : Option Nat)
  | stale
  | unsettled
  | discarded
deriving DecidableEq, Repr

/-- What is left of a settlement once the tracker answered: a checkpoint to write, or nothing. -/
def Phase.told : Option Nat → Phase
  | some sequence => .writing sequence
  | none => .settled none

/-- A delivery with its settlement: the tracker, the index, the gate and the epoch it carries.
`via` is bookkeeping of the model: how many seeks had been applied when it was read. -/
structure Delivery where
  sequence : Nat
  tracker : Nat
  index : Nat
  gate : Nat
  epoch : Nat
  via : Nat
  phase : Phase
deriving DecidableEq, Repr

inductive Item where
  | delivery (id : Nat)
  | aggregatedRecord
  | error
deriving DecidableEq, Repr

/-- One channel item with its generation stamp, an epoch and the gate it was read from. -/
structure Stamped where
  stamp : Option (Nat × Nat)
  item : Item
deriving DecidableEq, Repr

inductive Outcome where
  | moved (applied : Nat)
  | failed
  | shutDown
  | noReader
deriving DecidableEq, Repr

inductive CallPhase where
  | found
  | bumped
  | sent
  | answered (outcome : Outcome)
  | returned (outcome : Outcome)
deriving DecidableEq, Repr

/-- A seek on this shard. Where it found no reader, `gate` is the one the next reader will have.
`before` is bookkeeping of the model: how many deliveries had been handed out when the gate was
bumped. -/
structure SeekCall where
  gate : Nat
  start : ShardStart
  before : Nat
  phase : CallPhase
deriving DecidableEq, Repr

/-- Where a reader stands. -/
inductive Pc where
  | opening (again : Bool)
  | fetching (start : ShardStart) (recorded again : Bool)
  | head
  | draining
  | seeking (call : Nat) (idle : Bool)
  | renewing
  | stamping
  | reading (epoch : Nat)
  | forwarding (epoch next stop : Nat) (last idle : Bool)
  | idle
  | ending (stop : Nat)
  | releasing (rewind : Option ShardStart)
  | exited (rewind : Option ShardStart)
deriving DecidableEq, Repr

structure Reader where
  gate : Nat
  lineage : Lineage
  pc : Pc
  iterator : Nat
  tracker : Nat
  reading : Reading
  failures : Nat
  commands : List Nat
deriving DecidableEq, Repr

/-- `gates` and `trackers` are the shared cells by the order they were allocated in. `refused` and
`applied` are bookkeeping of the model: the aggregated records refused to the consumer and the
number of seeks applied. -/
structure Subscription where
  closed : Bool := false
  installed : Option StreamStart := none
  handle : Option Nat := none
  reader : Option Reader := none
  rewind : Option ShardStart := none
  gates : List Nat := []
  trackers : List Watermark := []
  queue : List Stamped := []
  deliveries : List Delivery := []
  refused : List Nat := []
  calls : List SeekCall := []
  applied : Nat := 0
deriving DecidableEq, Repr

def channelCapacity : Nat := 64
def leaseTtl : Nat := 10000
def maxFailures : Nat := 10

/-- The reply of `GetShardIterator` as the reader sees it. -/
inductive Reply where
  | iterator
  | noIterator
  | fails
deriving DecidableEq, Repr

inductive ReadError where
  | throttled
  | expired
  | fatal
  | other
deriving DecidableEq, Repr

inductive ReaderAct where
  | readRow (ok : Bool)
  | openIterator (reply : Reply)
  | checkClosed
  | takeSeek
  | drained
  | applySeek (reply : Reply)
  | renew (now : Nat)
  | renewFails
  | notDue
  | stamp
  | getRecords (count : Nat) (last : Bool)
  | readFails (error : ReadError)
  | recordOpening (ok : Bool)
  | handOut
  | batchDone
  | wake
  | markEnd (ok : Bool)
  | release
  | crash
deriving DecidableEq, Repr

inductive SubAct where
  | forgetFinished (inBudget : Bool)
  | acquire (lineage : Lineage) (now : Nat)
  | report
  | leave
  | reader (act : ReaderAct)
  | poll
  | ack (id : Nat)
  | settle (id : Nat)
  | write (id : Nat) (ok : Bool)
  | refuse (id : Nat)
  | install (start : StreamStart)
  | find (start : ShardStart)
  | bump (call : Nat)
  | send (call : Nat)
  | answer (call : Nat)
deriving DecidableEq, Repr

/-- An item is handed to the consumer only while its stamp is the gate's current generation. -/
def Stamped.current (gates : List Nat) (stamped : Stamped) : Bool :=
  stamped.stamp.all fun (epoch, gate) => gates[gate]? = some epoch

def Reader.exited (r : Reader) : Bool :=
  match r.pc with
  | .exited _ => true
  | _ => false

/-- Opened at the tip: the first record read is where the reading started. -/
def Reading.noteFirst (reading : Reading) (sequence : Nat) : Reading :=
  { reading with rewind := some (reading.rewind.getD (.atSeq sequence)) }

namespace Subscription

variable {Owner : Type} [DecidableEq Owner]

def room (u : Subscription) : Bool := u.queue.length < channelCapacity

def goto (u : Subscription) (r : Reader) (pc : Pc) : Subscription :=
  { u with reader := some { r with pc := pc } }

/-- The reader returns: its guard deregisters the shard and its command channel closes. -/
def exit (u : Subscription) (r : Reader) (rewind : Option ShardStart) : Subscription :=
  { u with reader := some { r with pc := .exited rewind, commands := [] }, handle := none }

def push (u : Subscription) (stamped : Stamped) : Subscription :=
  { u with queue := u.queue ++ [stamped] }

def setPhase (u : Subscription) (id : Nat) (d : Delivery) (phase : Phase) : Subscription :=
  { u with deliveries := u.deliveries.set id { d with phase := phase } }

def setCall (u : Subscription) (id : Nat) (c : SeekCall) (phase : CallPhase) : Subscription :=
  { u with calls := u.calls.set id { c with phase := phase } }

/-- `forget_finished` for this shard: a reader that stopped is dropped, and the place it hands
back is kept for the next one if its handle is polled within the budget of the coordinator's task
(`Readers` takes a pass apart). -/
def forgetFinished (u : Subscription) (inBudget : Bool) : Subscription :=
  match u.reader with
  | some r =>
    match r.pc with
    | .exited (some rewind) =>
      { u with reader := none, rewind := if inBudget then some rewind else u.rewind }
    | .exited none => { u with reader := none }
    | _ => u
  | none => u

/-- Registers the seek surface and spawns the reader. -/
def spawn (u : Subscription) (lineage : Lineage) : Subscription :=
  { u with
    handle := some u.gates.length
    reader := some {
      gate := u.gates.length
      lineage := lineage
      pc := .opening false
      iterator := 0
      tracker := u.trackers.length
      reading := { rewind := u.rewind, unrecorded := false }
      failures := 0
      commands := [] }
    rewind := none
    gates := u.gates ++ [0]
    trackers := u.trackers ++ [{}] }

def acquire (u : Subscription) (owner : Owner) (lease : MemoryLease Owner) (lineage : Lineage)
    (now : Nat) : Option (MemoryLease Owner × Subscription) :=
  if u.reader.isNone then
    let (taken, lease) := lease.acquire owner now leaseTtl
    some (lease, if taken then u.spawn lineage else u)
  else none

def report (u : Subscription) : Option Subscription :=
  if u.closed then some u else if u.room then some (u.push ⟨none, .error⟩) else none

/-- The subscriber is dropped: its receiver goes, and what was queued with it. -/
def leave (u : Subscription) : Subscription :=
  { u with
    closed := true
    queue := []
    deliveries := u.deliveries.map fun d =>
      if d.phase = .queued then { d with phase := .discarded } else d }

/-- An error of `initial_iterator`: reported and final on the first call, ignored on a later one. -/
def fetchFailed (u : Subscription) (r : Reader) (again : Bool) : Option Subscription :=
  if again then some (u.goto r .head)
  else if u.closed then some (u.exit r r.reading.rewind)
  else if u.room then some ((u.push ⟨none, .error⟩).exit r r.reading.rewind)
  else none

/-- The first half of `initial_iterator`: the lease row is read and the cursor chosen. -/
def readRow (u : Subscription) (lease : MemoryLease Owner) (r : Reader) (ok : Bool) :
    Option Subscription :=
  match r.pc with
  | .opening again =>
    if ok then
      match lease.checkpoint with
      | some .shardEnd => some (u.exit r none)
      | some (.sequence sequence) =>
        let start := reopenAt (some sequence) lease.openedAt r.reading.rewind r.lineage u.installed
        some (u.goto r (.fetching start true again))
      | none =>
        let start := reopenAt none lease.openedAt r.reading.rewind r.lineage u.installed
        some (u.goto r (.fetching start lease.openedAt.isSome again))
    else u.fetchFailed r again
  | _ => none

/-- The second half of `initial_iterator`: the service answers with the iterator. -/
def openIterator (u : Subscription) (shard : Shard) (r : Reader) (reply : Reply) :
    Option Subscription :=
  match r.pc with
  | .fetching start recorded again =>
    match reply with
    | .iterator =>
      (shard.getShardIterator (iteratorAt start)).map fun iterator =>
        { u with reader := some { r with
            pc := .head
            iterator := iterator
            reading := { rewind := rewindTo start, unrecorded := !recorded } } }
    | .noIterator => some (u.exit r none)
    | .fails => u.fetchFailed r again
  | _ => none

def checkClosed (u : Subscription) (r : Reader) : Option Subscription :=
  match r.pc with
  | .head => some (u.goto r (if u.closed then .releasing none else .draining))
  | _ => none

def takeSeek (u : Subscription) (r : Reader) : Option Subscription :=
  match r.pc, r.commands with
  | .draining, call :: rest =>
    some { u with reader := some { r with pc := .seeking call false, commands := rest } }
  | .idle, call :: rest =>
    some { u with reader := some { r with pc := .seeking call true, commands := rest } }
  | _, _ => none

def drained (u : Subscription) (r : Reader) : Option Subscription :=
  match r.pc, r.commands with
  | .draining, [] => some (u.goto r .renewing)
  | _, _ => none

/-- `apply_shard_seek`: a fresh iterator at the requested cursor and a reset watermark. -/
def applyShardSeek (u : Subscription) (shard : Shard) (r : Reader) (call : Nat) (c : SeekCall)
    (reply : Reply) (pc : Pc) : Option Subscription :=
  match reply with
  | .iterator =>
    (shard.getShardIterator (iteratorAt c.start)).map fun iterator =>
      { u.setCall call c (.answered (.moved (u.applied + 1))) with
        reader := some { r with
          pc := pc
          iterator := iterator
          tracker := u.trackers.length
          reading := { rewind := rewindTo c.start, unrecorded := true } }
        trackers := u.trackers ++ [{}]
        applied := u.applied + 1 }
  | _ => some ((u.setCall call c (.answered .failed)).goto r pc)

def applySeek (u : Subscription) (shard : Shard) (r : Reader) (reply : Reply) :
    Option Subscription :=
  match r.pc with
  | .seeking call idle => do
    let c ← u.calls[call]?
    u.applyShardSeek shard r call c reply (if idle then .head else .draining)
  | _ => none

def renew (u : Subscription) (owner : Owner) (lease : MemoryLease Owner) (r : Reader)
    (now : Nat) : Option (MemoryLease Owner × Subscription) :=
  match r.pc with
  | .renewing =>
    let (kept, lease) := lease.renew owner now leaseTtl
    some (lease, if kept then u.goto r .stamping else u.exit r r.reading.rewind)
  | _ => none

def renewFails (u : Subscription) (r : Reader) : Option Subscription :=
  match r.pc with
  | .renewing => some (u.exit r r.reading.rewind)
  | _ => none

def notDue (u : Subscription) (r : Reader) : Option Subscription :=
  match r.pc with
  | .renewing => some (u.goto r .stamping)
  | _ => none

/-- The epoch is loaded before the read. -/
def stamp (u : Subscription) (r : Reader) : Option Subscription :=
  match r.pc with
  | .stamping => u.gates[r.gate]?.map fun epoch => u.goto r (.reading epoch)
  | _ => none

/-- `GetRecords` answers with `count` records; `last` says it gave no next iterator, which it does
only at the end of a closed shard. -/
def getRecords (u : Subscription) (shard : Shard) (r : Reader) (count : Nat) (last : Bool) :
    Option Subscription :=
  match r.pc with
  | .reading epoch =>
    let stop := r.iterator + count
    if stop ≤ shard.log.length ∧ (last → shard.closed ∧ stop = shard.log.length) then
      some { u with reader := some { r with
        pc := .forwarding epoch r.iterator stop last (count == 0)
        failures := 0 } }
    else none
  | _ => none

/-- The error arm of the read: throttling is waited out, everything but an expired iterator is
reported, and a reader that fails too often gives up. -/
def readFails (u : Subscription) (r : Reader) (error : ReadError) : Option Subscription :=
  match r.pc with
  | .reading _ =>
    match error with
    | .throttled => some (u.goto r .head)
    | .expired =>
      if maxFailures < r.failures + 1 then some (u.goto r (.releasing r.reading.rewind))
      else some { u with reader := some { r with
        pc := .opening true
        failures := r.failures + 1 } }
    | .fatal =>
      if u.closed then some (u.exit r none)
      else if u.room then some ((u.push ⟨none, .error⟩).goto r (.releasing none))
      else none
    | .other =>
      if u.closed then some (u.exit r none)
      else if u.room then
        if maxFailures < r.failures + 1 then
          some ((u.push ⟨none, .error⟩).goto r (.releasing r.reading.rewind))
        else some { u.push ⟨none, .error⟩ with reader := some { r with
          pc := .head
          failures := r.failures + 1 } }
      else none
  | _ => none

/-- The opening is recorded before the first record of a reading is handed out. -/
def recordOpening (u : Subscription) (owner : Owner) (lease : MemoryLease Owner) (r : Reader)
    (ok : Bool) : Option (MemoryLease Owner × Subscription) :=
  match r.pc with
  | .forwarding _ next stop _ _ =>
    if next < stop ∧ r.reading.unrecorded then
      let reading := r.reading.noteFirst next
      if ok then
        let (recorded, lease) := lease.recordOpenedAt owner next
        some (lease,
          if recorded then
            { u with reader := some { r with reading := { reading with unrecorded := false } } }
          else u.exit { r with reading := reading } reading.rewind)
      else some (lease, u.exit { r with reading := reading } reading.rewind)
    else none
  | _ => none

/-- One record of the batch goes into the channel: a refusal if it is aggregated, else a delivery
under the next index of the tracker. -/
def handOut (u : Subscription) (shard : Shard) (r : Reader) : Option Subscription :=
  match r.pc with
  | .forwarding epoch next stop last idle =>
    if next < stop ∧ ¬ r.reading.unrecorded then do
      let record ← shard.log[next]?
      let tracker ← u.trackers[r.tracker]?
      let r := { r with reading := r.reading.noteFirst next }
      if record.aggregated then
        if u.closed then some (u.exit r none)
        else if u.room then
          some { (u.push ⟨some (epoch, r.gate), .aggregatedRecord⟩).goto r
            (.forwarding epoch (next + 1) stop last idle) with
            refused := u.refused ++ [next] }
        else none
      else if u.closed then some (u.goto r (.releasing none))
      else if u.room then
        some { (u.push ⟨some (epoch, r.gate), .delivery u.deliveries.length⟩).goto r
            (.forwarding epoch (next + 1) stop last idle) with
          trackers := u.trackers.set r.tracker (tracker.deliver next)
          deliveries := u.deliveries ++ [{
            sequence := next
            tracker := r.tracker
            index := tracker.nextIndex
            gate := r.gate
            epoch := epoch
            via := u.applied
            phase := .queued }] }
      else none
    else none
  | _ => none

def batchDone (u : Subscription) (r : Reader) : Option Subscription :=
  match r.pc with
  | .forwarding _ next stop last idle =>
    if next = stop then
      if last then some (u.goto r (.ending stop))
      else some { u with reader := some { r with
        pc := if idle then .idle else .head
        iterator := stop } }
    else none
  | _ => none

def wake (u : Subscription) (r : Reader) : Option Subscription :=
  match r.pc with
  | .idle => some (u.goto r .head)
  | _ => none

/-- `SHARD_END`: once every delivery has settled the shard is marked finished. -/
def markEnd (u : Subscription) (owner : Owner) (lease : MemoryLease Owner) (r : Reader)
    (ok : Bool) : Option (MemoryLease Owner × Subscription) :=
  match r.pc with
  | .ending _ => do
    let tracker ← u.trackers[r.tracker]?
    if tracker.drained then
      some (if ok then (lease.saveCheckpoint owner .shardEnd).2 else lease,
        u.goto r (.releasing none))
    else if u.closed then some (lease, u.goto r (.releasing none))
    else none
  | _ => none

def release (u : Subscription) (owner : Owner) (lease : MemoryLease Owner) (r : Reader) :
    Option (MemoryLease Owner × Subscription) :=
  match r.pc with
  | .releasing rewind => some (lease.release owner, u.exit r rewind)
  | _ => none

def crash (u : Subscription) (r : Reader) : Option Subscription :=
  if r.exited then none else some (u.exit r none)

def readerStep (u : Subscription) (owner : Owner) (shard : Shard) (lease : MemoryLease Owner)
    (r : Reader) : ReaderAct → Option (MemoryLease Owner × Subscription)
  | .readRow ok => (u.readRow lease r ok).map (lease, ·)
  | .openIterator reply => (u.openIterator shard r reply).map (lease, ·)
  | .checkClosed => (u.checkClosed r).map (lease, ·)
  | .takeSeek => (u.takeSeek r).map (lease, ·)
  | .drained => (u.drained r).map (lease, ·)
  | .applySeek reply => (u.applySeek shard r reply).map (lease, ·)
  | .renew now => u.renew owner lease r now
  | .renewFails => (u.renewFails r).map (lease, ·)
  | .notDue => (u.notDue r).map (lease, ·)
  | .stamp => (u.stamp r).map (lease, ·)
  | .getRecords count last => (u.getRecords shard r count last).map (lease, ·)
  | .readFails error => (u.readFails r error).map (lease, ·)
  | .recordOpening ok => u.recordOpening owner lease r ok
  | .handOut => (u.handOut shard r).map (lease, ·)
  | .batchDone => (u.batchDone r).map (lease, ·)
  | .wake => (u.wake r).map (lease, ·)
  | .markEnd ok => u.markEnd owner lease r ok
  | .release => u.release owner lease r
  | .crash => (u.crash r).map (lease, ·)

/-- The consumer polls its stream: a current item is handed over, a stale one is dropped. -/
def poll (u : Subscription) : Option Subscription :=
  match u.closed, u.queue with
  | false, stamped :: rest =>
    match stamped.item with
    | .delivery id => do
      let d ← u.deliveries[id]?
      if d.phase = .queued then
        some { u.setPhase id d (if stamped.current u.gates then .held else .discarded) with
          queue := rest }
      else none
    | _ => some { u with queue := rest }
  | _, _ => none

/-- The first step of `ack` and of `nack(requeue = false)`: the gate is loaded. -/
def ack (u : Subscription) (id : Nat) : Option Subscription := do
  let d ← u.deliveries[id]?
  if d.phase = .held then
    some (u.setPhase id d (if u.gates[d.gate]? = some d.epoch then .checked else .stale))
  else none

/-- The second step of a settlement: the tracker is told, under its mutex. -/
def settle (u : Subscription) (id : Nat) : Option Subscription := do
  let d ← u.deliveries[id]?
  let tracker ← u.trackers[d.tracker]?
  if d.phase = .checked then
    let (advanced, tracker) := tracker.settle d.index
    some { u.setPhase id d (.told advanced) with trackers := u.trackers.set d.tracker tracker }
  else none

/-- The third step of a settlement: the checkpoint is written, conditional on the lease. -/
def write (u : Subscription) (owner : Owner) (lease : MemoryLease Owner) (id : Nat) (ok : Bool) :
    Option (MemoryLease Owner × Subscription) := do
  let d ← u.deliveries[id]?
  match d.phase with
  | .writing sequence =>
    some (if ok then (lease.saveCheckpoint owner (.sequence sequence)).2 else lease,
      u.setPhase id d (.settled (some sequence)))
  | _ => none

/-- `nack(requeue = true)`, or a delivery dropped by who holds it: it is left unsettled. -/
def refuse (u : Subscription) (id : Nat) : Option Subscription := do
  let d ← u.deliveries[id]?
  if d.phase = .held then some (u.setPhase id d .unsettled) else none

/-- A seek looks up the live reader of the shard. -/
def find (u : Subscription) (start : ShardStart) : Subscription :=
  match u.handle with
  | some gate => { u with calls := u.calls ++ [⟨gate, start, 0, .found⟩] }
  | none => { u with calls := u.calls ++ [⟨u.gates.length, start, 0, .returned .noReader⟩] }

/-- A seek bumps the gate before it sends its command. -/
def bump (u : Subscription) (call : Nat) : Option Subscription := do
  let c ← u.calls[call]?
  let epoch ← u.gates[c.gate]?
  if c.phase = .found then
    some { u with
      gates := u.gates.set c.gate (epoch + 1)
      calls := u.calls.set call { c with before := u.deliveries.length, phase := .bumped } }
  else none

/-- Whether the reader behind a handle still has its end of the command channel. -/
def live (u : Subscription) (gate : Nat) : Bool :=
  u.reader.any fun r => r.gate == gate && !r.exited

def send (u : Subscription) (call : Nat) : Option Subscription := do
  let c ← u.calls[call]?
  if c.phase = .bumped then
    match u.reader with
    | some r =>
      if u.live c.gate then
        some { u.setCall call c .sent with
          reader := some { r with commands := r.commands ++ [call] } }
      else some (u.setCall call c (.returned .shutDown))
    | none => some (u.setCall call c (.returned .shutDown))
  else none

/-- The seek's wait ends: with the reader's answer, or because the reader is gone. -/
def answer (u : Subscription) (call : Nat) : Option Subscription := do
  let c ← u.calls[call]?
  match c.phase with
  | .answered outcome => some (u.setCall call c (.returned outcome))
  | .sent => if u.live c.gate then none else some (u.setCall call c (.returned .shutDown))
  | _ => none

def step (u : Subscription) (owner : Owner) (shard : Shard) (lease : MemoryLease Owner) :
    SubAct → Option (MemoryLease Owner × Subscription)
  | .forgetFinished inBudget => some (lease, u.forgetFinished inBudget)
  | .acquire lineage now => u.acquire owner lease lineage now
  | .report => u.report.map (lease, ·)
  | .leave => some (lease, u.leave)
  | .reader act => u.reader.bind fun r => u.readerStep owner shard lease r act
  | .poll => u.poll.map (lease, ·)
  | .ack id => (u.ack id).map (lease, ·)
  | .settle id => (u.settle id).map (lease, ·)
  | .write id ok => u.write owner lease id ok
  | .refuse id => (u.refuse id).map (lease, ·)
  | .install start => some (lease, { u with installed := some start })
  | .find start => some (lease, u.find start)
  | .bump call => (u.bump call).map (lease, ·)
  | .send call => (u.send call).map (lease, ·)
  | .answer call => (u.answer call).map (lease, ·)

end Subscription

end RuststreamKinesis
