import RuststreamKinesis.Stream
import RuststreamKinesis.Lib.Runs

/-!
# A connection and its shutdown

The subscriptions that consumers hold open over one connection, each on a stream of its own, and
`shutdown`, which sets the closed flag of the core they share (`broker.rs`). An opening looks at
the flag once, before it asks the service for its stream.
-/

namespace RuststreamKinesis

set_option autoImplicit false

structure Connection (Owner : Type) where
  owner : Owner
  closed : Bool := false
  /-- Openings that found the connection open and have not spawned their coordinator. -/
  opening : Nat := 0
  streams : List (Stream Owner) := []

inductive ConnectionAct (Owner : Type) where
  | subscribe
  /-- The service does not have the stream. -/
  | fail
  /-- The coordinator of an opening is spawned; the stream has these shards and lease rows. -/
  | spawn (shards : List (Node × MemoryLease Owner))
  | stream (i : Nat) (act : StreamAct)
  /-- Another instance changes the row of a shard. -/
  | row (i k : Nat) (row : MemoryLease Owner)
  | shutdown

/-- A subscription before its coordinator's first step. -/
def Stream.spawned {Owner : Type} (shards : List (Node × MemoryLease Owner)) (connected : Bool) :
    Stream Owner where
  count := shards.length
  node k := shards[k]?.elim {} Prod.fst
  lease k := shards[k]?.elim {} Prod.snd
  sub _ := {}
  connected := connected

/-- What a task that stopped does no more. -/
inductive Work where
  | lease
  | round
  | renew
  | fetch
  | read
  | handOut
deriving DecidableEq, Repr

/-- The part of the batch already read that is not handed out. -/
def Reader.batch (r : Reader) : Option (Nat × Nat) :=
  match r.pc with
  | .forwarding _ next stop _ _ => some (next, stop)
  | _ => none

/-- The batch of a shard's reader. -/
def Stream.batch {Owner : Type} (w : Stream Owner) (k : Nat) : Option (Nat × Nat) :=
  (w.sub k).reader.bind Reader.batch

/-- A step that starts a piece of work: a lease is acquired, a reader passes the top of its loop,
renews, is about to ask for an iterator or for records, or hands out a record that was not in its
batch `before`. -/
inductive Stream.Starts {Owner : Type} [DecidableEq Owner] (owner : Owner)
    (before : Nat → Option (Nat × Nat)) (w : Stream Owner) : StreamAct → Work → Prop where
  | lease {k now : Nat} {lineage : Lineage} {todo : List Listed} :
      w.pass = .acquiring k lineage todo → (w.lease k).held owner now = false →
      Starts owner before w (.coordinator (.acquire true now)) .lease
  | round {k : Nat} : Starts owner before w (.sub k (.reader .checkClosed)) .round
  | renew {k now : Nat} : Starts owner before w (.sub k (.reader (.renew now))) .renew
  | fetch {k : Nat} : (w.lease k).checkpoint ≠ some .shardEnd →
      Starts owner before w (.sub k (.reader (.readRow true))) .fetch
  | refetch {k : Nat} : Starts owner before w (.sub k (.reader .takeSeek)) .fetch
  | read {k : Nat} : Starts owner before w (.sub k (.reader .stamp)) .read
  | handOut {k next stop : Nat} : w.batch k = some (next, stop) →
      ((before k).all fun (first, last) => next < first ∨ last ≤ next) →
      Starts owner before w (.sub k (.reader .handOut)) .handOut

namespace Connection

variable {Owner : Type} [DecidableEq Owner]

def step (c : Connection Owner) : ConnectionAct Owner → Option (Connection Owner)
  | .subscribe => if c.closed then none else some { c with opening := c.opening + 1 }
  | .fail =>
    match c.opening with
    | 0 => none
    | opening + 1 => some { c with opening }
  | .spawn shards =>
    match c.opening with
    | 0 => none
    | opening + 1 =>
      some { c with opening, streams := c.streams ++ [.spawned shards !c.closed] }
  | .stream i act =>
    match c.streams[i]? with
    | some w =>
      if act = .leave ∨ act = .disconnect then none
      else (w.step c.owner act).map fun w => { c with streams := c.streams.set i w }
    | none => none
  | .row i k row =>
    match c.streams[i]? with
    | some w =>
      if k < w.count then
        some { c with
          streams := c.streams.set i { w with lease := Function.update w.lease k row } }
      else none
    | none => none
  | .shutdown =>
    some { c with
      closed := true
      streams := c.streams.map fun w => { w with connected := false } }

/-- A state of some run of a connection. -/
def Reached (c : Connection Owner) : Prop :=
  ∃ owner, Runs.Run step (fun _ _ => True) { owner : Connection Owner } c

def batch (c : Connection Owner) (i k : Nat) : Option (Nat × Nat) :=
  c.streams[i]?.bind fun w => w.batch k

/-- From now on no coordinator and no reader starts the work. -/
def Never (c : Connection Owner) (work : Work) : Prop :=
  ∀ (c' : Connection Owner) (i : Nat) (w : Stream Owner) (act : StreamAct),
    Runs.Run step (fun _ _ => True) c c' → c'.streams[i]? = some w →
      (c'.step (.stream i act)).isSome → ¬ Stream.Starts c'.owner (c.batch i) w act work

/-- Coordinators acquire no more leases, and readers only leave their loop. -/
def Stops (c : Connection Owner) : Prop := ∀ work, c.Never work

end Connection

end RuststreamKinesis
