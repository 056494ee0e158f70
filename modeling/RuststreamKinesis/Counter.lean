import RuststreamKinesis.Adoption

/-!
# The fencing counter

Every write to the lease table adds one to the row's `lease_counter` (`dynamo.rs`): whoever finds
the counter as it was finds the row as it was.
-/

namespace RuststreamKinesis

set_option autoImplicit false

open Runs

variable {Owner : Type}

/-- A row that is not there, or was never written, counts nothing. -/
def counterOf (item : Option (LeaseItem Owner)) : Nat := (item.bind (·.leaseCounter)).getD 0

/-- A row is as it was, or a write of it is counted. -/
inductive Counted (item item' : Option (LeaseItem Owner)) : Prop where
  | kept (h : item' = item)
  | written (h : counterOf item' = counterOf item + 1)

theorem counted_getD {item : Option (LeaseItem Owner)} :
    (item.getD {}).leaseCounter.getD 0 = counterOf item := by
  cases item <;> rfl

/-- An update that counts itself is counted in the row it is made on. -/
theorem updateItem_counted (table : Table Owner) (key k : String)
    (condition : LeaseItem Owner → Bool) {update : LeaseItem Owner → LeaseItem Owner}
    (hu : ∀ item, (update item).leaseCounter = some (item.leaseCounter.getD 0 + 1)) :
    Counted (table k) ((table.updateItem key condition update).2 k) := by
  simp only [Table.updateItem]
  split
  · by_cases hk : k = key
    · subst hk
      refine .written ?_
      simp only [Function.update_self, counterOf, Option.bind_some, hu, Option.getD_some]
      rw [counted_getD, counterOf]
    · exact .kept (Function.update_of_ne hk _ _)
  · exact .kept rfl

variable [DecidableEq Owner]

namespace DynamoLeaseStore

omit [DecidableEq Owner] in
theorem adopt_counted (table : Table Owner) (key : LeaseKey) (checkpoint : Checkpoint)
    (k : String) : Counted (table k) ((adopt table key checkpoint).2 k) :=
  updateItem_counted table key.text k _ fun _ => rfl

theorem call_counted (store : DynamoLeaseStore) (table : Table Owner) (key : LeaseKey)
    (k : String) {c : Call Owner} (hread : c ≠ .read) :
    Counted (table k) ((store.call table key c).2 k) := by
  cases c with
  | read => exact absurd rfl hread
  | acquire | renew | checkpoint | recordOpenedAt | release =>
    simp only [DynamoLeaseStore.call, acquire, renew, saveCheckpoint, recordOpenedAt, release,
      Prod.map_snd, id_eq]
    exact updateItem_counted table key.text k _ fun _ => rfl

omit [DecidableEq Owner] in
theorem request_counted (store : DynamoLeaseStore) (key : LeaseKey) (table : Table Owner)
    (phase : ReadPhase) (k : String) : Counted (table k) ((store.request key table phase).2 k) := by
  rcases request_table store key table phase with hr | ⟨openedAt, c, -, -, hr, -⟩
  · exact .kept (congrFun hr k)
  · rw [hr]
    exact adopt_counted table key c k

end DynamoLeaseStore

namespace Requests

variable {s s' t : Requests Owner} {a : Request Owner}

theorem step_counted (h : s.step a = some s') (k : String) :
    Counted (s.table k) (s'.table k) := by
  cases a with
  | call store key c =>
    simp only [step] at h
    split at h
    · cases h
    · rename_i hread
      obtain rfl := Option.some.inj h
      exact store.call_counted s.table key k hread
  | begin store key =>
    obtain rfl := Option.some.inj h
    exact .kept rfl
  | next id =>
    simp only [step] at h
    split at h
    · rename_i r _
      split at h
      · cases h
      · obtain rfl := Option.some.inj h
        exact r.store.request_counted r.key s.table r.phase k
    · cases h

/-- Over any calls and any requests of reads, in any order, the counter of a row never falls, and
where it has not risen the row has not changed. -/
theorem counter_fences (h : Reaches s t) (k : String) :
    counterOf (s.table k) ≤ counterOf (t.table k) ∧
      (counterOf (t.table k) = counterOf (s.table k) → t.table k = s.table k) := by
  induction h with
  | refl => exact ⟨Nat.le_refl _, fun _ => rfl⟩
  | tail _ _ hstep ih =>
    obtain ⟨hle, hsame⟩ := ih
    cases step_counted hstep k with
    | kept hk =>
      rw [hk]
      exact ⟨hle, hsame⟩
    | written hk =>
      refine ⟨by omega, fun heq => ?_⟩
      omega

/-- The copy of a bare row's checkpoint is counted. -/
theorem counter_fences_upgrading : ∃ s : Requests Nat, upgrading.Reaches s ∧
    counterOf (upgrading.table "orders:0") ≤ counterOf (s.table "orders:0") ∧
    counterOf (s.table "orders:0") = 1 := by
  have hown : upgrading.Reaches _ := Run.single (a := .next 0) trivial rfl
  have hbare := hown.tail (a := .next 0) rfl
  have hadopt := hbare.tail (a := .next 0) rfl
  exact ⟨_, hadopt, (counter_fences hadopt "orders:0").1, rfl⟩

end Requests

end RuststreamKinesis
