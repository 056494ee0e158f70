import Mathlib.Logic.Basic

/-!
# Lease coordination

One row of `MemoryLeaseStore` and the calls of `LeaseStore` on it (`lease.rs`). Owner ids are an
arbitrary type with decidable equality: the store only compares them. The clock is the reading
each call takes.
-/

namespace RuststreamKinesis

set_option autoImplicit false

/-- What a row's `checkpoint` holds: a sequence number or the mark of a finished shard. -/
inductive Checkpoint where
  | sequence (sequence : Nat)
  | shardEnd
deriving DecidableEq, Repr

structure MemoryLease (Owner : Type) where
  owner : Option Owner := none
  expires : Option Nat := none
  checkpoint : Option Checkpoint := none
  openedAt : Option Nat := none
deriving DecidableEq, Repr

namespace MemoryLease

variable {Owner : Type} [DecidableEq Owner]

/-- Whether another live owner holds the lease. -/
def held (lease : MemoryLease Owner) (owner : Owner) (now : Nat) : Bool :=
  lease.owner.any fun current => current ≠ owner && lease.expires.any (now < ·)

def acquire (lease : MemoryLease Owner) (owner : Owner) (now ttl : Nat) :
    Bool × MemoryLease Owner :=
  if lease.held owner now then (false, lease)
  else (true, { lease with owner := some owner, expires := some (now + ttl) })

def renew (lease : MemoryLease Owner) (owner : Owner) (now ttl : Nat) :
    Bool × MemoryLease Owner :=
  if lease.owner = some owner then (true, { lease with expires := some (now + ttl) })
  else (false, lease)

def saveCheckpoint (lease : MemoryLease Owner) (owner : Owner) (value : Checkpoint) :
    Bool × MemoryLease Owner :=
  if lease.owner = some owner then (true, { lease with checkpoint := some value })
  else (false, lease)

def recordOpenedAt (lease : MemoryLease Owner) (owner : Owner) (sequence : Nat) :
    Bool × MemoryLease Owner :=
  if lease.owner = some owner then (true, { lease with openedAt := some sequence })
  else (false, lease)

def release (lease : MemoryLease Owner) (owner : Owner) : MemoryLease Owner :=
  if lease.owner = some owner then { lease with owner := none, expires := none } else lease

end MemoryLease

end RuststreamKinesis
