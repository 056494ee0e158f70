import RuststreamKinesis.Cursor
import Mathlib.Data.List.Basic

/-!
# The service's side of a shard

What the code relies on of Kinesis: a shard is an append-only log until it is closed, an iterator
is a position in it, and a position in the future cannot be asked for. Records do not leave the
log by retention during a run.
-/

namespace RuststreamKinesis

set_option autoImplicit false

structure Record where
  data : List UInt8
  arrival : Nat
deriving DecidableEq, Repr

/-- The KPL aggregation magic prefix; such records are refused loudly. -/
def kplMagic : List UInt8 := [0xF3, 0x89, 0x9A, 0xC2]

def Record.aggregated (record : Record) : Bool :=
  4 < record.data.length && record.data.take 4 == kplMagic

structure Shard where
  log : List Record := []
  closed : Bool := false
  clock : Nat := 0
deriving DecidableEq, Repr

namespace Shard

/-- The position of the first record that arrived at or after `millis`, or the tip. -/
def firstFrom (log : List Record) (millis : Nat) : Nat :=
  log.findIdx fun record => decide (millis ≤ record.arrival)

/-- The place a cursor names in the shard as it stands. -/
def place (shard : Shard) : ShardStart → Nat
  | .stream .horizon => 0
  | .stream .latest => shard.log.length
  | .stream (.timestamp millis) => firstFrom shard.log (clampMillis millis)
  | .atSeq sequence => sequence
  | .afterSeq sequence => sequence + 1

/-- The service's answer to `GetShardIterator`: `none` where it refuses the position. -/
def getShardIterator (shard : Shard) : IteratorRequest → Option Nat
  | .latest => some shard.log.length
  | .trimHorizon => some 0
  | .atTimestamp millis =>
    if millis ≤ shard.clock then some (firstFrom shard.log millis) else none
  | .atSequenceNumber sequence => if sequence < shard.log.length then some sequence else none
  | .afterSequenceNumber sequence =>
    if sequence < shard.log.length then some (sequence + 1) else none

/-- Records the service appends while the shard is open. -/
def append (shard : Shard) (data : List UInt8) : Shard :=
  { shard with log := shard.log ++ [⟨data, shard.clock⟩] }

/-- The sequence number names a record that is never handed out. -/
def Unreadable (shard : Shard) (n : Nat) : Prop :=
  ∃ record, shard.log[n]? = some record ∧ record.aggregated = true

theorem getShardIterator_eq_place {shard : Shard} {start : ShardStart} {p : Nat}
    (h : shard.getShardIterator (iteratorAt start) = some p) : p = shard.place start := by
  cases start with
  | stream start => cases start <;> simp_all [iteratorAt, getShardIterator, place]
  | atSeq => simp_all [iteratorAt, getShardIterator, place]
  | afterSeq =>
    simp only [iteratorAt, getShardIterator, Option.ite_none_right_eq_some, Option.some.injEq] at h
    exact h.2.symm

theorem firstFrom_le_length (log : List Record) (millis : Nat) :
    firstFrom log millis ≤ log.length := List.findIdx_le_length

theorem getShardIterator_le {shard : Shard} {request : IteratorRequest} {p : Nat}
    (h : shard.getShardIterator request = some p) : p ≤ shard.log.length := by
  cases request with
  | latest => simp_all [getShardIterator]
  | trimHorizon =>
    simp only [getShardIterator, Option.some.injEq] at h
    omega
  | atTimestamp millis =>
    simp only [getShardIterator, Option.ite_none_right_eq_some, Option.some.injEq] at h
    exact h.2 ▸ firstFrom_le_length _ _
  | atSequenceNumber sequence =>
    simp only [getShardIterator, Option.ite_none_right_eq_some, Option.some.injEq] at h
    omega
  | afterSequenceNumber sequence =>
    simp only [getShardIterator, Option.ite_none_right_eq_some, Option.some.injEq] at h
    omega

end Shard

end RuststreamKinesis
