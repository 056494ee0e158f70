import Mathlib.Algebra.Group.Nat.Defs

/-!
# Cursors

The cursors a shard's reader opens at and the iterator request each one becomes (`cursor.rs`).
A sequence number is modelled by the position of its record in the shard: the service hands
them out in increasing order and the code only stores and compares them for equality.
-/

namespace RuststreamKinesis

set_option autoImplicit false

/-- A position every shard of the subscription can open at. -/
inductive StreamStart where
  | horizon
  | latest
  | timestamp (millis : Nat)
deriving DecidableEq, Repr

/-- The cursor one shard's reader opens with. -/
inductive ShardStart where
  | stream (start : StreamStart)
  | atSeq (sequence : Nat)
  | afterSeq (sequence : Nat)
deriving DecidableEq, Repr

/-- Whether a shard's reader picks up a reading its parents left off, or opens one of its own. -/
inductive Lineage where
  | opens
  | continues
deriving DecidableEq, Repr

structure Reading where
  rewind : Option ShardStart := none
  unrecorded : Bool := false
deriving DecidableEq, Repr

/-- A `GetShardIterator` request: the iterator type and its parameter. -/
inductive IteratorRequest where
  | latest
  | trimHorizon
  | atTimestamp (millis : Nat)
  | atSequenceNumber (sequence : Nat)
  | afterSequenceNumber (sequence : Nat)
deriving DecidableEq, Repr

/-- `i64::try_from(millis).unwrap_or(i64::MAX)`. -/
def clampMillis (millis : Nat) : Nat := min millis (2 ^ 63 - 1)

def iteratorAt : ShardStart → IteratorRequest
  | .stream .latest => .latest
  | .stream .horizon => .trimHorizon
  | .stream (.timestamp millis) => .atTimestamp (clampMillis millis)
  | .atSeq sequence => .atSequenceNumber sequence
  | .afterSeq sequence => .afterSequenceNumber sequence

/-- The cursor a shard's reader opens at: when it starts, and when it lost its iterator. -/
def reopenAt (checkpoint openedAt : Option Nat) (rewind : Option ShardStart) (lineage : Lineage)
    (installed : Option StreamStart) : ShardStart :=
  match checkpoint, openedAt, rewind, lineage, installed with
  | some sequence, _, _, _, _ => .afterSeq sequence
  | none, some sequence, _, _, _ => .atSeq sequence
  | none, none, some rewind, _, _ => rewind
  | none, none, none, .continues, some (.timestamp millis) => .stream (.timestamp millis)
  | none, none, none, .continues, _ => .stream .horizon
  | none, none, none, .opens, installed => .stream (installed.getD .latest)

/-- The cursor that reads the shard again from `start` later on, if there is one. -/
def rewindTo : ShardStart → Option ShardStart
  | .stream .latest => none
  | other => some other

@[simp] theorem reopenAt_checkpoint (c : Nat) (o : Option Nat) (r : Option ShardStart)
    (l : Lineage) (i : Option StreamStart) : reopenAt (some c) o r l i = .afterSeq c := rfl

@[simp] theorem reopenAt_openedAt (o : Nat) (r : Option ShardStart) (l : Lineage)
    (i : Option StreamStart) : reopenAt none (some o) r l i = .atSeq o := rfl

@[simp] theorem reopenAt_rewind (st : ShardStart) (l : Lineage) (i : Option StreamStart) :
    reopenAt none none (some st) l i = st := rfl

theorem rewindTo_eq_some {start st : ShardStart} :
    rewindTo start = some st ↔ start = st ∧ start ≠ .stream .latest := by
  unfold rewindTo
  split
  · simp
  · rename_i hne
    constructor
    · intro h
      exact ⟨Option.some.inj h, hne⟩
    · rintro ⟨rfl, _⟩
      rfl

theorem rewindTo_eq_none {start : ShardStart} :
    rewindTo start = none ↔ start = .stream .latest := by
  unfold rewindTo
  split <;> simp_all

end RuststreamKinesis
