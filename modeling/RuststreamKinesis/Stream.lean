import RuststreamKinesis.System

/-!
# A subscription on a stream

The shards of one stream with their lease rows, and one subscription on it: the coordinator's
passes, the seekers and, for each shard, what `Subscription` models. A pass of the coordinator and
a seek go step by step, one for each await and for each shared cell they touch, and any of the
other tasks may step in between. A coordinator error only fills the channel: it is the step
`report` of the shard it names, or of none.
-/

namespace RuststreamKinesis

set_option autoImplicit false

/-- A shard in the stream's graph, `listed` until retention trims it out of the listing. -/
structure Node where
  parent : Option Nat := none
  adjacent : Option Nat := none
  listed : Bool := true
  shard : Shard := {}
deriving DecidableEq, Repr

def Node.parents (node : Node) : List Nat := node.parent.toList ++ node.adjacent.toList

/-- One shard of the answer to `ListShards`; it is closed if it has an ending sequence number. -/
structure Listed where
  id : Nat
  parents : List Nat
  closed : Bool
deriving DecidableEq, Repr

/-- Where a shard's parents stand. -/
inductive Parents where
  | pending
  | consumed
  | skipped
deriving DecidableEq, Repr

def Parents.lineage : Parents → Option Lineage
  | .pending => none
  | .consumed => some .continues
  | .skipped => some .opens

/-- Whether a shard without a checkpoint opens at the tip. -/
def startsAtTip : Option StreamStart → Bool
  | none | some .latest => true
  | _ => false

/-- What the row of one more parent makes of the outcome so far. -/
def Parents.afterRow (outcome : Parents) (closed : Bool) (installed : Option StreamStart) :
    Option Checkpoint → Parents
  | some .shardEnd => .consumed
  | none => if closed && startsAtTip installed then outcome else .pending
  | some (.sequence _) => .pending

/-- Where the coordinator stands in its pass; `todo` is what is left of the listing. -/
inductive Pass where
  | listing
  | visiting (todo : List Listed)
  | gating (shard : Nat) (rest : List Nat) (outcome : Parents) (todo : List Listed)
  | checking (shard : Nat) (lineage : Lineage) (todo : List Listed)
  | acquiring (shard : Nat) (lineage : Lineage) (todo : List Listed)
  | positioning
  | resting
deriving DecidableEq, Repr

inductive KinesisPosition where
  | horizon
  | latest
  | timestamp (millis : Nat)
  | sequence (shard sequence : Nat)
deriving DecidableEq, Repr

/-- The position every shard is moved to, unless the position names one shard. -/
def KinesisPosition.stream : KinesisPosition → Option StreamStart
  | .horizon => some .horizon
  | .latest => some .latest
  | .timestamp millis => some (.timestamp millis)
  | .sequence _ _ => none

/-- The part of a seek that concerns one shard: its call there. -/
structure Leg where
  shard : Nat
  call : Nat
deriving DecidableEq, Repr

inductive SeekPhase where
  | installed (start : StreamStart)
  | bumping (todo legs : List Leg)
  | sending (todo waits : List Leg)
  | waiting (todo : List Leg)
  | returned (ok : Bool)
deriving DecidableEq, Repr

/-- Where a seek goes on from a command it sent. A stream-wide one leaves a reader that has shut
down alone: its successor will open at the installed position. -/
def KinesisPosition.afterSend (position : KinesisPosition) (todo waits : List Leg) (leg : Leg) :
    CallPhase → SeekPhase
  | .sent => .sending todo (waits ++ [leg])
  | _ => if position.stream.isSome then .sending todo waits else .returned false

/-- Where a seek goes on from an answer it waited for. -/
def KinesisPosition.afterAnswer (position : KinesisPosition) (todo : List Leg) :
    CallPhase → SeekPhase
  | .returned .failed => .returned false
  | .returned .shutDown =>
    if position.stream.isSome then .waiting todo else .returned false
  | _ => .waiting todo

/-- A call of `seek`. -/
structure Seek where
  position : KinesisPosition
  phase : SeekPhase
deriving DecidableEq, Repr

/-- `known` is the listing the pass goes by. Bookkeeping of the model: the shards a reader opened
while they were open for writes, those over which a child was let through as skipped, and those of
which a reader that opened at the tip, behind which there were records, has read some. -/
structure Stream (Owner : Type) where
  count : Nat
  node : Nat → Node
  lease : Nat → MemoryLease Owner
  sub : Nat → Subscription
  pass : Pass := .listing
  known : List Listed := []
  opened : Bool := false
  connected : Bool := true
  seeks : List Seek := []
  tailed : Nat → Bool := fun _ => false
  skipped : Nat → Bool := fun _ => false
  tipped : Nat → Bool := fun _ => false

/-- A pass forgets the readers that finished; `lost` are the shards whose handles it polls past the
budget of its task. -/
inductive CoordinatorAct where
  | forget (lost : List Nat)
  | list (ok : Bool)
  | visit
  | row (ok : Bool)
  | acquire (ok : Bool) (now : Nat)
  | positioned
deriving DecidableEq, Repr

inductive StreamAct where
  | tick (shard : Nat)
  | append (shard : Nat) (data : List UInt8)
  | close (shard : Nat)
  | reshard (parent adjacent : Option Nat)
  | trim (shard : Nat)
  | coordinator (act : CoordinatorAct)
  | sub (shard : Nat) (act : SubAct)
  | seek (position : KinesisPosition)
  | advance (seek : Nat) (order : List Nat)
  | leave
  | disconnect
deriving DecidableEq, Repr

/-- What a reader, the consumer and the channel do on their own. -/
def SubAct.own : SubAct → Bool
  | .reader _ | .report | .poll | .ack _ | .settle _ | .write _ _ | .refuse _ => true
  | _ => false

/-- The reader has its starting cursor, or will not get one. -/
def Reader.positioned (r : Reader) : Bool :=
  match r.pc with
  | .opening false | .fetching _ _ false => false
  | _ => true

/-- The reading opened at the tip, there were records before it, and it has read none yet. -/
def Reader.bare (r : Reader) : Bool := r.reading.rewind.isNone && r.iterator != 0

namespace Stream

variable {Owner : Type} [DecidableEq Owner]

def mark (flags : Nat → Bool) (k : Nat) (flag : Bool) : Nat → Bool :=
  Function.update flags k (flags k || flag)

def setShard (w : Stream Owner) (k : Nat) (shard : Shard) : Stream Owner :=
  { w with node := Function.update w.node k { w.node k with shard := shard } }

def setSub (w : Stream Owner) (k : Nat) (lease : MemoryLease Owner) (u : Subscription) :
    Stream Owner :=
  { w with lease := Function.update w.lease k lease, sub := Function.update w.sub k u }

def setSeek (w : Stream Owner) (i : Nat) (seek : Seek) (phase : SeekPhase) : Stream Owner :=
  { w with seeks := w.seeks.set i { seek with phase := phase } }

/-- A step of the part of the subscription that concerns shard `k`. -/
def on (w : Stream Owner) (owner : Owner) (k : Nat) (act : SubAct) : Option (Stream Owner) :=
  ((w.sub k).step owner (w.node k).shard (w.lease k) act).map fun (lease, u) => w.setSub k lease u

/-- The answer to `ListShards`: `known`, and what the pass has to go through. -/
def listing (w : Stream Owner) : List Listed :=
  ((List.range w.count).filter fun k => (w.node k).listed).map fun k =>
    ⟨k, (w.node k).parents, (w.node k).shard.closed⟩

/-- The first pass ends once every reader it started has fetched its starting cursor. -/
def endPass (w : Stream Owner) : Stream Owner :=
  { w with pass := if w.opened then .resting else .positioning }

/-- One more parent's row is read: `parents` goes on to the next one, or the shard waits. -/
def readParent (w : Stream Owner) (k p : Nat) (rest : List Nat) (outcome : Parents)
    (todo : List Listed) (ok : Bool) : Option (Stream Owner) := do
  let parent ← w.known.find? fun s => s.id == p
  let checkpoint := (w.lease p).checkpoint
  let outcome := if ok then outcome.afterRow parent.closed (w.sub k).installed checkpoint
    else .pending
  if outcome = .pending then some { w with pass := .visiting todo }
  else some { w with
    pass := .gating k rest outcome todo
    skipped := mark w.skipped p checkpoint.isNone }

def coordinate (w : Stream Owner) (owner : Owner) (act : CoordinatorAct) :
    Option (Stream Owner) :=
  match act, w.pass with
  | .forget lost, .resting =>
    some { w with
      pass := .listing
      sub := fun k => (w.sub k).forgetFinished (k ∉ lost) }
  | .list ok, .listing =>
    some (if ok then { w with pass := .visiting w.listing, known := w.listing } else w.endPass)
  | .visit, .visiting [] => some w.endPass
  | .visit, .visiting (s :: todo) =>
    some { w with pass :=
      if (w.sub s.id).reader.isSome then .visiting todo
      else .gating s.id s.parents .skipped todo }
  | .visit, .gating k [] outcome todo =>
    match outcome.lineage with
    | some lineage => some { w with pass := .checking k lineage todo }
    | none => some { w with pass := .visiting todo }
  | .visit, .gating k (p :: rest) outcome todo =>
    -- trimmed past retention
    if (w.known.find? fun s => s.id == p).isNone then
      some { w with pass := .gating k rest outcome todo }
    else none
  | .row ok, .gating k (p :: rest) outcome todo => w.readParent k p rest outcome todo ok
  | .row ok, .checking k lineage todo =>
    some { w with pass :=
      if ok && (w.lease k).checkpoint != some .shardEnd then .acquiring k lineage todo
      else .visiting todo }
  | .acquire ok now, .acquiring k lineage todo =>
    if ok then (w.on owner k (.acquire lineage now)).map ({ · with pass := .visiting todo })
    else some { w with pass := .visiting todo }
  | .positioned, .positioning =>
    if (List.range w.count).all fun k => (w.sub k).reader.all Reader.positioned then
      some { w with pass := .resting, opened := true }
    else none
  | _, _ => none

/-- The shards whose readers can be repositioned right now. -/
def live (w : Stream Owner) : List Nat :=
  (List.range w.count).filter fun k => (w.sub k).handle.isSome

/-- `seek_stream` up to the first cell it changes: the position is installed. -/
def seekStream (w : Stream Owner) (position : KinesisPosition) (start : StreamStart) :
    Stream Owner :=
  { w with
    sub := fun k => { w.sub k with installed := some start }
    seeks := w.seeks ++ [⟨position, .installed start⟩] }

/-- `seek_shard` up to its gate bump: the live reader of the shard is looked up. -/
def seekShard (w : Stream Owner) (k sequence : Nat) : Stream Owner :=
  let u := w.sub k
  let leg : Leg := ⟨k, u.calls.length⟩
  { w with
    sub := Function.update w.sub k (u.find (.atSeq sequence))
    seeks := w.seeks ++ [⟨.sequence k sequence,
      if u.handle.isSome then .bumping [leg] [leg] else .returned false⟩] }

/-- A seeker exists once `open` has returned, and seeks only while the broker is connected. -/
def seek (w : Stream Owner) (position : KinesisPosition) : Option (Stream Owner) :=
  if !w.opened then none
  else if !w.connected then some { w with seeks := w.seeks ++ [⟨position, .returned false⟩] }
  else
    match position with
    | .horizon => some (w.seekStream position .horizon)
    | .latest => some (w.seekStream position .latest)
    | .timestamp millis => some (w.seekStream position (.timestamp millis))
    | .sequence k sequence => some (w.seekShard k sequence)

/-- The next step of a seek. The bus is a hash map, so a stream-wide seek goes through the live
shards in any `order`. -/
def advance (w : Stream Owner) (owner : Owner) (i : Nat) (order : List Nat) :
    Option (Stream Owner) := do
  let seek ← w.seeks[i]?
  match seek.phase with
  | .installed start =>
    if order.isPerm w.live then
      let legs := order.map fun k => ⟨k, (w.sub k).calls.length⟩
      some ({ w with sub := fun k =>
        if k ∈ order then (w.sub k).find (.stream start) else w.sub k }.setSeek i seek
          (.bumping legs legs))
    else none
  | .bumping (leg :: todo) legs =>
    (w.on owner leg.shard (.bump leg.call)).map (·.setSeek i seek (.bumping todo legs))
  | .bumping [] legs => some (w.setSeek i seek (.sending legs []))
  | .sending (leg :: todo) waits =>
    let w' ← w.on owner leg.shard (.send leg.call)
    let c ← (w'.sub leg.shard).calls[leg.call]?
    some (w'.setSeek i seek (seek.position.afterSend todo waits leg c.phase))
  | .sending [] waits => some (w.setSeek i seek (.waiting waits))
  | .waiting (leg :: todo) =>
    let w' ← w.on owner leg.shard (.answer leg.call)
    let c ← (w'.sub leg.shard).calls[leg.call]?
    some (w'.setSeek i seek (seek.position.afterAnswer todo c.phase))
  | .waiting [] => some (w.setSeek i seek (.returned true))
  | .returned _ => none

/-- A shard opens for writes once the shards it descends from are closed. -/
def reshard (w : Stream Owner) (parent adjacent : Option Nat) : Option (Stream Owner) :=
  let node : Node := { w.node w.count with parent := parent, adjacent := adjacent }
  if node.parents.all fun p => decide (p < w.count) && (w.node p).shard.closed then
    some { w with count := w.count + 1, node := Function.update w.node w.count node }
  else none

/-- What the model notes of a reader's step. -/
def noting (w : Stream Owner) (k : Nat) (act : SubAct) (w' : Stream Owner) : Stream Owner :=
  match act with
  | .reader (.openIterator .iterator) =>
    { w' with tailed := mark w.tailed k !(w.node k).shard.closed }
  | .reader (.getRecords count _) =>
    { w' with tipped := mark w.tipped k ((w.sub k).reader.any Reader.bare && count != 0) }
  | _ => w'

def step (owner : Owner) (w : Stream Owner) : StreamAct → Option (Stream Owner)
  | .tick k =>
    let shard := (w.node k).shard
    if k < w.count then some (w.setShard k { shard with clock := shard.clock + 1 }) else none
  | .append k data =>
    let shard := (w.node k).shard
    if k < w.count && !shard.closed then some (w.setShard k (shard.append data)) else none
  | .close k =>
    if k < w.count then some (w.setShard k { (w.node k).shard with closed := true }) else none
  | .reshard parent adjacent => w.reshard parent adjacent
  | .trim k =>
    if k < w.count then
      some { w with node := Function.update w.node k { w.node k with listed := false } }
    else none
  | .coordinator act => w.coordinate owner act
  | .sub k act => if act.own then (w.on owner k act).map (w.noting k act) else none
  | .seek position => w.seek position
  | .advance i order => w.advance owner i order
  | .leave => some { w with sub := fun k => (w.sub k).leave }
  | .disconnect => some { w with connected := false }

/-- A stream as the subscription finds it, whatever rows the lease table has. -/
structure Fresh (w : Stream Owner) : Prop where
  rooted : ∀ k < w.count, ∀ p ∈ (w.node k).parents, p < w.count
  sub : ∀ k, w.sub k = {}
  pass : w.pass = .listing
  known : w.known = []
  seeks : w.seeks = []
  skipped : ∀ k, w.skipped k = false
  tipped : ∀ k, w.tipped k = false

/-- Of a shard that is marked finished the service takes no more records. -/
def MarksClosed (w : Stream Owner) : Prop :=
  ∀ k, (w.lease k).checkpoint = some .shardEnd → (w.node k).shard.closed = true

end Stream

end RuststreamKinesis
