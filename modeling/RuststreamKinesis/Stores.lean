import RuststreamKinesis.Lease
import Mathlib.Algebra.Group.Nat.Defs
import Mathlib.Data.List.Basic
import Mathlib.Logic.Function.Basic

/-!
# The lease stores

`MemoryLeaseStore` keeps its rows in a map (`lease.rs`), `DynamoLeaseStore` in the items of a table
(`dynamo.rs`), keyed by `stream:shard`. Of the service it relies on conditional updates and
consistent reads of one item, each atomic; an absent attribute makes a comparison false.
-/

namespace RuststreamKinesis

set_option autoImplicit false

structure LeaseKey where
  stream : String
  shard : String
deriving DecidableEq, Repr

/-- `stream:shard`, the form a store that keeps one string key writes. -/
def LeaseKey.text (key : LeaseKey) : String := key.stream ++ ":" ++ key.shard

/-- The persisted state of one shard's lease. -/
structure LeaseState where
  checkpoint : Option Checkpoint := none
  openedAt : Option Nat := none
deriving DecidableEq, Repr

/-- The calls of a `LeaseStore`, with the clock reading each one takes. -/
inductive Call (Owner : Type) where
  | acquire (owner : Owner) (now ttl : Nat)
  | renew (owner : Owner) (now ttl : Nat)
  | checkpoint (owner : Owner) (value : Checkpoint)
  | recordOpenedAt (owner : Owner) (sequence : Nat)
  | read
  | release (owner : Owner)
deriving DecidableEq, Repr

/-- The only progress of a shard is under its bare id, and no stream is named for it. -/
structure UnattributedLegacyRow where
  table : String
  shard : String
  stream : String
deriving DecidableEq, Repr

inductive Answer where
  | held (held : Bool)
  | state (state : LeaseState)
  | released
  | failed (error : UnattributedLegacyRow)
deriving DecidableEq, Repr

namespace MemoryLease

variable {Owner : Type} [DecidableEq Owner]

/-- A call on the row it names. -/
def call (lease : MemoryLease Owner) : Call Owner → Answer × MemoryLease Owner
  | .acquire owner now ttl => (lease.acquire owner now ttl).map .held id
  | .renew owner now ttl => (lease.renew owner now ttl).map .held id
  | .checkpoint owner value => (lease.saveCheckpoint owner value).map .held id
  | .recordOpenedAt owner sequence => (lease.recordOpenedAt owner sequence).map .held id
  | .read => (.state ⟨lease.checkpoint, lease.openedAt⟩, lease)
  | .release owner => (.released, lease.release owner)

end MemoryLease

/-- `leases` is the store's map. -/
structure MemoryLeaseStore (Owner : Type) where
  leases : LeaseKey → Option (MemoryLease Owner) := fun _ => none

namespace MemoryLeaseStore

variable {Owner : Type} [DecidableEq Owner]

/-- A row that is not there yet is entered blank. -/
def withLease {R : Type} (store : MemoryLeaseStore Owner) (key : LeaseKey)
    (f : MemoryLease Owner → R × MemoryLease Owner) : R × MemoryLeaseStore Owner :=
  let (answer, lease) := f ((store.leases key).getD {})
  (answer, { leases := Function.update store.leases key (some lease) })

def call (store : MemoryLeaseStore Owner) (key : LeaseKey) (c : Call Owner) :
    Answer × MemoryLeaseStore Owner := store.withLease key (·.call c)

/-- The row of a key as the store's calls see it. -/
def row (store : MemoryLeaseStore Owner) (key : LeaseKey) : MemoryLease Owner :=
  (store.leases key).getD {}

end MemoryLeaseStore

/-- An item of the lease table, with the attributes the store reads and writes. -/
structure LeaseItem (Owner : Type) where
  leaseOwner : Option Owner := none
  leaseExpiry : Option Nat := none
  leaseCounter : Option Nat := none
  checkpoint : Option Checkpoint := none
  openedAt : Option Nat := none
deriving DecidableEq, Repr

/-- The items of a table by their partition key. -/
abbrev Table (Owner : Type) := String → Option (LeaseItem Owner)

namespace Table

variable {Owner : Type}

/-- `UpdateItem`: an item that is not there has no attributes, and is created by the update. -/
def updateItem (table : Table Owner) (key : String) (condition : LeaseItem Owner → Bool)
    (update : LeaseItem Owner → LeaseItem Owner) : Bool × Table Owner :=
  let item := (table key).getD {}
  if condition item then (true, Function.update table key (some (update item))) else (false, table)

end Table

namespace LeaseItem

variable {Owner : Type} [DecidableEq Owner]

/-- `ADD lease_counter :one`. -/
def count (item : LeaseItem Owner) : LeaseItem Owner :=
  { item with leaseCounter := some (item.leaseCounter.getD 0 + 1) }

/-- `lease_owner = :me`. -/
def owned (owner : Owner) (item : LeaseItem Owner) : Bool := item.leaseOwner == some owner

/-- `attribute_not_exists(lease_owner) OR lease_owner = :me OR lease_expiry < :now`. -/
def free (owner : Owner) (now : Nat) (item : LeaseItem Owner) : Bool :=
  item.leaseOwner.isNone || item.leaseOwner == some owner || item.leaseExpiry.any (· < now)

/-- The row of the item as the calls of the store see it. -/
def row (item : LeaseItem Owner) : MemoryLease Owner where
  owner := item.leaseOwner
  expires := item.leaseExpiry
  checkpoint := item.checkpoint
  openedAt := item.openedAt

end LeaseItem

/-- `table` is the table's name. -/
structure DynamoLeaseStore where
  table : String
  legacyStream : Option String := none
deriving DecidableEq, Repr

namespace DynamoLeaseStore

variable {Owner : Type} [DecidableEq Owner]

/-- The `u64` sum of the clock and the time to live, in milliseconds. -/
def expiry (now ttl : Nat) : Nat := (now + min ttl (2 ^ 64 - 1)) % 2 ^ 64

def checkpointOf (item : Option (LeaseItem Owner)) : Option Checkpoint := item.bind (·.checkpoint)

def openedAtOf (item : Option (LeaseItem Owner)) : Option Nat := item.bind (·.openedAt)

def acquire (table : Table Owner) (key : LeaseKey) (owner : Owner) (now ttl : Nat) :
    Bool × Table Owner :=
  table.updateItem key.text (LeaseItem.free owner now) fun item =>
    { item with leaseOwner := some owner, leaseExpiry := some (expiry now ttl) }.count

def renew (table : Table Owner) (key : LeaseKey) (owner : Owner) (now ttl : Nat) :
    Bool × Table Owner :=
  table.updateItem key.text (LeaseItem.owned owner) fun item =>
    { item with leaseExpiry := some (expiry now ttl) }.count

def saveCheckpoint (table : Table Owner) (key : LeaseKey) (owner : Owner) (value : Checkpoint) :
    Bool × Table Owner :=
  table.updateItem key.text (LeaseItem.owned owner) fun item =>
    { item with checkpoint := some value }.count

def recordOpenedAt (table : Table Owner) (key : LeaseKey) (owner : Owner) (sequence : Nat) :
    Bool × Table Owner :=
  table.updateItem key.text (LeaseItem.owned owner) fun item =>
    { item with openedAt := some sequence }.count

def release (table : Table Owner) (key : LeaseKey) (owner : Owner) : Table Owner :=
  (table.updateItem key.text (LeaseItem.owned owner) fun item =>
    { item with leaseOwner := none, leaseExpiry := none }.count).2

/-- Copies a bare row's checkpoint onto the stream's own row, unless that row has one already. -/
def adopt (table : Table Owner) (key : LeaseKey) (checkpoint : Checkpoint) : Bool × Table Owner :=
  table.updateItem key.text (·.checkpoint.isNone) fun item =>
    { item with checkpoint := some checkpoint }.count

/-- Whether the bare rows are another stream's progress. -/
def foreign (store : DynamoLeaseStore) (key : LeaseKey) : Bool :=
  store.legacyStream.any (· != key.stream)

def unattributed (store : DynamoLeaseStore) (key : LeaseKey) : UnattributedLegacyRow where
  table := store.table
  shard := key.shard
  stream := key.stream

/-- A `read` whose requests nothing comes between. -/
def read (store : DynamoLeaseStore) (table : Table Owner) (key : LeaseKey) :
    Answer × Table Owner :=
  let own := table key.text
  match checkpointOf own with
  | some checkpoint => (.state ⟨some checkpoint, openedAtOf own⟩, table)
  | none =>
    if store.foreign key then (.state ⟨none, openedAtOf own⟩, table)
    else
      match checkpointOf (table key.shard) with
      | none => (.state ⟨none, openedAtOf own⟩, table)
      | some checkpoint =>
        match store.legacyStream with
        | none => (.failed (store.unattributed key), table)
        | some _ =>
          let (wrote, table) := adopt table key checkpoint
          if wrote then (.state ⟨some checkpoint, openedAtOf own⟩, table)
          else
            let own := table key.text
            (.state ⟨(checkpointOf own).or (some checkpoint), openedAtOf own⟩, table)

def call (store : DynamoLeaseStore) (table : Table Owner) (key : LeaseKey) :
    Call Owner → Answer × Table Owner
  | .acquire owner now ttl => (acquire table key owner now ttl).map .held id
  | .renew owner now ttl => (renew table key owner now ttl).map .held id
  | .checkpoint owner value => (saveCheckpoint table key owner value).map .held id
  | .recordOpenedAt owner sequence => (recordOpenedAt table key owner sequence).map .held id
  | .read => store.read table key
  | .release owner => (.released, release table key owner)

end DynamoLeaseStore

end RuststreamKinesis
