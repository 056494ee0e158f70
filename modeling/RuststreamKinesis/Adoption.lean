import RuststreamKinesis.Lib.Cells
import RuststreamKinesis.Lib.Runs
import RuststreamKinesis.Stores

/-!
# Rows from earlier versions

A read of `DynamoLeaseStore` may take four requests: the stream's own row, the row under the bare
shard id, the copy of its checkpoint, and the own row once more. Calls and the requests of other
reads fall between them in any order.
-/

namespace RuststreamKinesis

set_option autoImplicit false

open Runs

/-- The request a read makes next, with what it carries to it. -/
inductive ReadPhase where
  | own
  | bare (openedAt : Option Nat)
  | adopt (openedAt : Option Nat) (checkpoint : Checkpoint)
  | again (checkpoint : Checkpoint)
  | done (answer : Answer)
deriving DecidableEq

variable {Owner : Type} [DecidableEq Owner]

namespace DynamoLeaseStore

/-- One request of a read. -/
def request (store : DynamoLeaseStore) (key : LeaseKey) (table : Table Owner) :
    ReadPhase → ReadPhase × Table Owner
  | .own =>
    let own := table key.text
    match checkpointOf own with
    | some checkpoint => (.done (.state ⟨some checkpoint, openedAtOf own⟩), table)
    | none =>
      if store.foreign key then (.done (.state ⟨none, openedAtOf own⟩), table)
      else (.bare (openedAtOf own), table)
  | .bare openedAt =>
    match checkpointOf (table key.shard) with
    | none => (.done (.state ⟨none, openedAt⟩), table)
    | some checkpoint =>
      match store.legacyStream with
      | none => (.done (.failed (store.unattributed key)), table)
      | some _ => (.adopt openedAt checkpoint, table)
  | .adopt openedAt checkpoint =>
    let (wrote, table) := adopt table key checkpoint
    if wrote then (.done (.state ⟨some checkpoint, openedAt⟩), table)
    else (.again checkpoint, table)
  | .again checkpoint =>
    let own := table key.text
    (.done (.state ⟨(checkpointOf own).or (some checkpoint), openedAtOf own⟩), table)
  | .done answer => (.done answer, table)

/-- The requests of a read one after the other, with nothing between them. -/
def requests (store : DynamoLeaseStore) (key : LeaseKey) : Nat → ReadPhase × Table Owner →
    ReadPhase × Table Owner
  | 0, at' => at'
  | n + 1, at' => store.requests key n (store.request key at'.2 at'.1)

omit [DecidableEq Owner] in
theorem read_requests (store : DynamoLeaseStore) (key : LeaseKey) (table : Table Owner) :
    store.requests key 4 (.own, table) =
      (.done (store.read table key).1, (store.read table key).2) := by
  cases hown : checkpointOf (table key.text) with
  | some checkpoint => simp [requests, request, read, hown]
  | none =>
    cases hforeign : store.foreign key with
    | true => simp [requests, request, read, hown, hforeign]
    | false =>
      cases hbare : checkpointOf (table key.shard) with
      | none => simp [requests, request, read, hown, hforeign, hbare]
      | some checkpoint =>
        cases hlegacy : store.legacyStream with
        | none => simp [requests, request, read, hown, hforeign, hbare, hlegacy]
        | some _ =>
          cases hwrote : (adopt table key checkpoint).1 <;>
            simp [requests, request, read, hown, hforeign, hbare, hlegacy, hwrote]

end DynamoLeaseStore

/-- A read in progress. `own` and `bare` are bookkeeping of the model: the checkpoints that its
first two requests found. -/
structure ReadCall where
  store : DynamoLeaseStore
  key : LeaseKey
  phase : ReadPhase := .own
  own : Option (Option Checkpoint) := none
  bare : Option (Option Checkpoint) := none
deriving DecidableEq

/-- A table, and the reads made on it so far. -/
structure Requests (Owner : Type) where
  table : Table Owner
  reads : List ReadCall := []

inductive Request (Owner : Type) where
  | call (store : DynamoLeaseStore) (key : LeaseKey) (c : Call Owner)
  | begin (store : DynamoLeaseStore) (key : LeaseKey)
  | next (id : Nat)
deriving DecidableEq

namespace ReadCall

/-- The read's next request over the table. -/
def next (r : ReadCall) (table : Table Owner) : ReadCall × Table Owner :=
  let (phase, table') := r.store.request r.key table r.phase
  let own := if r.phase = .own then some (DynamoLeaseStore.checkpointOf (table r.key.text))
    else r.own
  let bare := match r.phase with
    | .bare _ => some (DynamoLeaseStore.checkpointOf (table r.key.shard))
    | _ => r.bare
  ({ r with phase := phase, own := own, bare := bare }, table')

def done (r : ReadCall) : Bool :=
  match r.phase with
  | .done _ => true
  | _ => false

end ReadCall

namespace Requests

def step (s : Requests Owner) : Request Owner → Option (Requests Owner)
  | .call store key c =>
    if c = .read then none else some { s with table := (store.call s.table key c).2 }
  | .begin store key => some { s with reads := s.reads ++ [{ store := store, key := key }] }
  | .next id =>
    match s.reads[id]? with
    | some r =>
      if r.done then none
      else some { table := (r.next s.table).2, reads := s.reads.set id (r.next s.table).1 }
    | none => none

/-- Any requests, in any order. -/
def Reaches (s t : Requests Owner) : Prop := Run step (fun _ _ => True) s t

end Requests

namespace DynamoLeaseStore

variable {store : DynamoLeaseStore} {table : Table Owner} {key : LeaseKey} {c : Checkpoint}

omit [DecidableEq Owner] in
theorem checkpoint_getD {item : Option (LeaseItem Owner)} :
    (item.getD {}).checkpoint = checkpointOf item := by
  cases item <;> rfl

omit [DecidableEq Owner] in
theorem adopt_done (h : checkpointOf (table key.text) = none) :
    adopt table key c = (true, Function.update table key.text
      (some ({ (table key.text).getD {} with checkpoint := some c }.count))) := by
  apply if_pos
  simp [checkpoint_getD, h]

omit [DecidableEq Owner] in
theorem adopt_refused (h : checkpointOf (table key.text) ≠ none) :
    adopt table key c = (false, table) := by
  apply if_neg
  simpa [checkpoint_getD] using h

omit [DecidableEq Owner] in
theorem updateItem_checkpoint {at' k : String} {condition : LeaseItem Owner → Bool}
    {update : LeaseItem Owner → LeaseItem Owner}
    (hu : ∀ item, (update item).checkpoint = item.checkpoint) :
    checkpointOf ((table.updateItem at' condition update).2 k) = checkpointOf (table k) := by
  simp only [Table.updateItem]
  split
  · by_cases hk : k = at'
    · subst hk
      simp only [Function.update_self]
      exact (hu _).trans checkpoint_getD
    · simp only [Function.update_of_ne hk]
  · rfl

theorem call_checkpoint (store : DynamoLeaseStore) (table : Table Owner) (key : LeaseKey)
    (k : String) {call : Call Owner} (hread : call ≠ .read) :
    checkpointOf ((store.call table key call).2 k) = checkpointOf (table k) ∨
      ∃ owner value, call = .checkpoint owner value ∧ k = key.text ∧
        ((table k).getD {}).leaseOwner = some owner ∧
        checkpointOf ((store.call table key call).2 k) = some value := by
  cases call with
  | read => exact absurd rfl hread
  | acquire | renew | recordOpenedAt | release =>
    left
    simp only [DynamoLeaseStore.call, acquire, renew, recordOpenedAt, release, Prod.map_snd, id_eq]
    exact updateItem_checkpoint fun _ => rfl
  | checkpoint owner value =>
    simp only [DynamoLeaseStore.call, saveCheckpoint, Table.updateItem, Prod.map_snd, id_eq]
    split
    · rename_i howned
      by_cases hk : k = key.text
      · subst hk
        refine .inr ⟨owner, value, rfl, rfl, beq_iff_eq.mp howned, ?_⟩
        simp only [Function.update_self]
        rfl
      · left
        simp only [Function.update_of_ne hk]
    · exact .inl rfl

omit [DecidableEq Owner] in
theorem request_table (store : DynamoLeaseStore) (key : LeaseKey) (table : Table Owner)
    (phase : ReadPhase) : (store.request key table phase).2 = table ∨
    ∃ openedAt c, phase = .adopt openedAt c ∧ checkpointOf (table key.text) = none ∧
      (store.request key table phase).2 = (adopt table key c).2 ∧
      (store.request key table phase).1 = .done (.state ⟨some c, openedAt⟩) := by
  cases phase with
  | own =>
    left
    simp only [request]
    split
    · rfl
    · split <;> rfl
  | bare =>
    left
    simp only [request]
    split
    · rfl
    · split <;> rfl
  | adopt openedAt c =>
    cases h : checkpointOf (table key.text) with
    | none => exact .inr ⟨openedAt, c, rfl, rfl, by simp [request, adopt_done h]⟩
    | some _ => exact .inl (by simp [request, adopt_refused (c := c) (by rw [h]; simp)])
  | again | done => exact .inl rfl

omit [DecidableEq Owner] in
theorem adopt_checkpoint {k : String} (h : checkpointOf (table key.text) = none) :
    checkpointOf ((adopt table key c).2 k) =
      if k = key.text then some c else checkpointOf (table k) := by
  rw [adopt_done h]
  split
  · rename_i hk
    subst hk
    simp only [Function.update_self]
    rfl
  · rename_i hk
    simp only [Function.update_of_ne hk]

omit [DecidableEq Owner] in
theorem request_checkpoint {phase : ReadPhase} {k : String} (h : checkpointOf (table k) = some c) :
    checkpointOf ((store.request key table phase).2 k) = some c := by
  rcases request_table store key table phase with hr | ⟨_, c', _, hnone, hr, _⟩
  · rw [hr, h]
  · rw [hr, adopt_checkpoint hnone, if_neg, h]
    rintro rfl
    cases hnone.symm.trans h

end DynamoLeaseStore

namespace Requests

open DynamoLeaseStore

variable {s s' s₀ s₁ s₂ : Requests Owner} {a : Request Owner} {id : Nat} {r : ReadCall}

theorem step_checkpoint {k : String} {c : Checkpoint} (h : s.step a = some s')
    (hc : checkpointOf (s.table k) = some c) :
    checkpointOf (s'.table k) = some c ∨ ∃ store key owner value,
      a = .call store key (.checkpoint owner value) ∧ k = key.text ∧
        ((s.table k).getD {}).leaseOwner = some owner ∧ checkpointOf (s'.table k) = some value := by
  cases a with
  | call store key call =>
    simp only [step] at h
    split at h
    · cases h
    · rename_i hread
      obtain rfl := Option.some.inj h
      rcases call_checkpoint store s.table key k hread with
        hkept | ⟨owner, value, rfl, hk, hown, hnew⟩
      · exact .inl (hkept.trans hc)
      · exact .inr ⟨store, key, owner, value, rfl, hk, hown, hnew⟩
  | begin store key =>
    obtain rfl := Option.some.inj h
    exact .inl hc
  | next id =>
    simp only [step] at h
    split at h
    · split at h
      · cases h
      · obtain rfl := Option.some.inj h
        exact .inl (request_checkpoint hc)
    · cases h

theorem step_isSome {k : String} (h : s.step a = some s')
    (hc : (checkpointOf (s.table k)).isSome = true) :
    (checkpointOf (s'.table k)).isSome = true := by
  obtain ⟨c, hc⟩ := Option.isSome_iff_exists.mp hc
  rcases step_checkpoint h hc with hc | ⟨_, _, _, _, _, _, _, hc⟩
  · simp [hc]
  · simp [hc]

/-- What the row of the key holds, as a read answers it. -/
def held (s : Requests Owner) (key : LeaseKey) : LeaseState :=
  ⟨checkpointOf (s.table key.text), openedAtOf (s.table key.text)⟩

/-- How a read that began before `s₁` has come to its phase. -/
inductive Traced (s₁ s : Requests Owner) (id : Nat) (r : ReadCall) : Prop where
  | own (hp : r.phase = .own) (hown : r.own = none) (hbare : r.bare = none)
  | bare {o : Option Nat} (hp : r.phase = .bare o)
      (hforeign : r.store.foreign r.key = false) (hown : r.own = some none) (hbare : r.bare = none)
  | adopt {o : Option Nat} {c : Checkpoint} (hp : r.phase = .adopt o c)
      (hlegacy : r.store.legacyStream = some r.key.stream)
      (hbare : ∃ b, Reaches s₁ b ∧ Reaches b s ∧ checkpointOf (b.table r.key.shard) = some c)
  | again {c : Checkpoint} (hp : r.phase = .again c)
      (hlegacy : r.store.legacyStream = some r.key.stream)
      (hown : (checkpointOf (s.table r.key.text)).isSome = true)
  | answered {m : Requests Owner} (hp : r.phase = .done (.state (m.held r.key)))
      (hm : Reaches s₁ m) (hs : Reaches m s) (hfound : r.bare = none ∨ r.bare = some none ∨
        r.store.legacyStream = some r.key.stream)
  | unread {o : Option Nat} (hp : r.phase = .done (.state ⟨none, o⟩))
      (hforeign : r.store.foreign r.key = false) (hbare : r.bare = some none)
  | adopted {o : Option Nat} {c : Checkpoint} {m n : Requests Owner}
      (hp : r.phase = .done (.state ⟨some c, o⟩))
      (hlegacy : r.store.legacyStream = some r.key.stream)
      (hbare : ∃ b, Reaches s₁ b ∧ Reaches b m ∧ checkpointOf (b.table r.key.shard) = some c)
      (hnone : checkpointOf (m.table r.key.text) = none) (hstep : m.step (.next id) = some n)
      (hsome : checkpointOf (n.table r.key.text) = some c) (hs : Reaches n s)
  | failed (hp : r.phase = .done (.failed (r.store.unattributed r.key)))
      (hlegacy : r.store.legacyStream = none) (hown : r.own = some none)
      (hbare : ∃ c, r.bare = some (some c))

theorem Reaches.tail (h : Reaches s₁ s) (hstep : s.step a = some s') : Reaches s₁ s' :=
  Run.tail h trivial hstep

theorem Reaches.refl (s : Requests Owner) : Reaches s s := Run.refl s

theorem Traced.kept (h : Traced s₁ s id r) (hstep : s.step a = some s') : Traced s₁ s' id r := by
  cases h with
  | own hp hown hbare => exact .own hp hown hbare
  | bare hp hforeign hown hbare => exact .bare hp hforeign hown hbare
  | adopt hp hlegacy hbare =>
    obtain ⟨b, hb, hbs, hc⟩ := hbare
    exact .adopt hp hlegacy ⟨b, hb, hbs.tail hstep, hc⟩
  | again hp hlegacy hown => exact .again hp hlegacy (step_isSome hstep hown)
  | answered hp hm hs hfound => exact .answered hp hm (hs.tail hstep) hfound
  | unread hp hforeign hbare => exact .unread hp hforeign hbare
  | adopted hp hlegacy hbare hnone hm hsome hs =>
    exact .adopted hp hlegacy hbare hnone hm hsome (hs.tail hstep)
  | failed hp hlegacy hown hbare => exact .failed hp hlegacy hown hbare

omit [DecidableEq Owner] in
theorem legacy_of_foreign {store : DynamoLeaseStore} {key : LeaseKey} {stream : String}
    (hforeign : store.foreign key = false) (hlegacy : store.legacyStream = some stream) :
    store.legacyStream = some key.stream := by
  simp only [foreign, hlegacy, Option.any_some, bne_eq_false_iff_eq] at hforeign
  rw [hlegacy, hforeign]

theorem Traced.next (h : Traced s₁ s id r) (hrun : Reaches s₁ s) (hr : s.reads[id]? = some r)
    (hstep : s.step (.next id) = some s') : Traced s₁ s' id (r.next s.table).1 := by
  have hs' := hrun.tail hstep
  have htable : s'.table = (r.store.request r.key s.table r.phase).2 := by
    simp only [step, hr] at hstep
    split at hstep
    · cases hstep
    · exact (congrArg Requests.table (Option.some.inj hstep)).symm
  cases h with
  | own hp hown hbare =>
    cases hc : checkpointOf (s.table r.key.text) with
    | some c =>
      refine .answered (m := s) ?_ hrun ((Reaches.refl s).tail hstep) (.inl ?_)
      · simp [ReadCall.next, request, hp, hc, held]
      · simp [ReadCall.next, hp, hbare]
    | none =>
      cases hforeign : r.store.foreign r.key with
      | true =>
        refine .answered (m := s) ?_ hrun ((Reaches.refl s).tail hstep) (.inl ?_)
        · simp [ReadCall.next, request, hp, hc, hforeign, held]
        · simp [ReadCall.next, hp, hbare]
      | false =>
        refine .bare (o := openedAtOf (s.table r.key.text)) ?_ hforeign ?_ ?_
        · simp [ReadCall.next, request, hp, hc, hforeign]
        · simp [ReadCall.next, hp, hc]
        · simp [ReadCall.next, hp, hbare]
  | @bare openedAt hp hforeign hown hbare =>
    cases hc : checkpointOf (s.table r.key.shard) with
    | none =>
      refine .unread (o := openedAt) ?_ hforeign ?_
      · simp [ReadCall.next, request, hp, hc]
      · simp [ReadCall.next, hp, hc]
    | some c =>
      cases hl : r.store.legacyStream with
      | none =>
        refine .failed ?_ hl ?_ ⟨c, ?_⟩
        · simp [ReadCall.next, request, hp, hc, hl]
        · simp [ReadCall.next, hp, hown]
        · simp [ReadCall.next, hp, hc]
      | some stream =>
        refine .adopt (o := openedAt) (c := c) ?_ (legacy_of_foreign hforeign hl)
          ⟨s, hrun, (Reaches.refl s).tail hstep, hc⟩
        simp [ReadCall.next, request, hp, hc, hl]
  | @adopt openedAt c hp hlegacy hbare =>
    cases hc : checkpointOf (s.table r.key.text) with
    | none =>
      refine .adopted (o := openedAt) (c := c) (m := s) (n := s') ?_ hlegacy hbare hc hstep
        ?_ (.refl s')
      · simp [ReadCall.next, request, hp, adopt_done hc]
      · rw [htable, hp]
        simp only [request, adopt_done hc, if_true]
        rw [show (r.next s.table).1.key = r.key from rfl, Function.update_self]
        rfl
    | some c' =>
      have hne : checkpointOf (s.table r.key.text) ≠ none := by
        rw [hc]
        simp
      refine .again (c := c) ?_ hlegacy ?_
      · simp [ReadCall.next, request, hp, adopt_refused hne]
      · rw [htable, hp]
        simp only [request, adopt_refused hne, Bool.false_eq_true, if_false]
        exact Option.isSome_iff_exists.mpr ⟨c', hc⟩
  | @again c hp hlegacy hown =>
    obtain ⟨c', hc⟩ := Option.isSome_iff_exists.mp hown
    refine .answered (m := s) ?_ hrun ((Reaches.refl s).tail hstep) (.inr (.inr hlegacy))
    simp [ReadCall.next, request, hp, hc, held]
  | answered hp | unread hp | adopted hp | failed hp =>
    simp [step, hr, ReadCall.done, hp] at hstep

variable {store : DynamoLeaseStore} {key : LeaseKey}

/-- The read is one of this store and key, and is traced. -/
def Followed (s₁ s : Requests Owner) (id : Nat) (store : DynamoLeaseStore) (key : LeaseKey) :
    Prop :=
  ∃ r, s.reads[id]? = some r ∧ r.store = store ∧ r.key = key ∧ Traced s₁ s id r

theorem Followed.step (h : Followed s₁ s id store key) (hrun : Reaches s₁ s)
    (hstep : s.step a = some s') : Followed s₁ s' id store key := by
  obtain ⟨r, hr, hstore, hkey, htraced⟩ := h
  have hkept := htraced.kept hstep
  cases a with
  | call other k c =>
    refine ⟨r, ?_, hstore, hkey, hkept⟩
    simp only [Requests.step] at hstep
    split at hstep
    · cases hstep
    · obtain rfl := Option.some.inj hstep
      exact hr
  | begin other k =>
    refine ⟨r, ?_, hstore, hkey, hkept⟩
    obtain rfl := Option.some.inj hstep
    exact Cells.get_push_old hr
  | next i =>
    by_cases hi : i = id
    · subst hi
      refine ⟨(r.next s.table).1, ?_, hstore, hkey, htraced.next hrun hr hstep⟩
      simp only [Requests.step, hr] at hstep
      split at hstep
      · cases hstep
      · obtain rfl := Option.some.inj hstep
        exact Cells.get_set_self hr
    · refine ⟨r, ?_, hstore, hkey, hkept⟩
      simp only [Requests.step] at hstep
      split at hstep
      · split at hstep
        · cases hstep
        · obtain rfl := Option.some.inj hstep
          exact (Cells.get_set_ne (Ne.symm hi)).trans hr
      · cases hstep

omit [DecidableEq Owner] in
theorem foreign_of_legacy {store : DynamoLeaseStore} {key : LeaseKey}
    (h : store.legacyStream = some key.stream) : store.foreign key = false := by
  simp [foreign, h]

theorem Traced.foreign {answer : Answer} (h : Traced s₁ s id r)
    (hforeign : r.store.foreign r.key = true) (hp : r.phase = .done answer) :
    ∃ m, Reaches s₁ m ∧ Reaches m s ∧ answer = .state (m.held r.key) := by
  cases h with
  | own h | bare h | adopt h | again h => cases h.symm.trans hp
  | @answered m h hm hs =>
    cases h.symm.trans hp
    exact ⟨m, hm, hs, rfl⟩
  | unread _ h => cases h.symm.trans hforeign
  | adopted _ hlegacy => cases (foreign_of_legacy hlegacy).symm.trans hforeign
  | failed _ hlegacy =>
    simp only [DynamoLeaseStore.foreign, hlegacy, Option.any_none] at hforeign
    cases hforeign

theorem Traced.unattributed {answer : Answer} (h : Traced s₁ s id r)
    (hlegacy : r.store.legacyStream = none) (hp : r.phase = .done answer) :
    (∃ e, answer = .failed e) ↔ r.own = some none ∧ ∃ c, r.bare = some (some c) := by
  cases h with
  | own h | bare h | adopt h | again h => cases h.symm.trans hp
  | answered h _ _ hfound =>
    cases h.symm.trans hp
    rcases hfound with hb | hb | hl
    · simp [hb]
    · simp [hb]
    · cases hl.symm.trans hlegacy
  | unread h _ hb =>
    cases h.symm.trans hp
    simp [hb]
  | adopted _ hl => cases hl.symm.trans hlegacy
  | failed h _ hown hbare =>
    cases h.symm.trans hp
    exact iff_of_true ⟨_, rfl⟩ ⟨hown, hbare⟩

theorem Traced.table (h : Traced s₁ s id r) (hr : s.reads[id]? = some r)
    (hstep : s.step (.next id) = some s')
    (hother : r.store.legacyStream ≠ some r.key.stream) : s'.table = s.table := by
  have htable : s'.table = (r.store.request r.key s.table r.phase).2 := by
    simp only [Requests.step, hr] at hstep
    split at hstep
    · cases hstep
    · exact (congrArg Requests.table (Option.some.inj hstep)).symm
  rw [htable]
  rcases request_table r.store r.key s.table r.phase with hsame | ⟨openedAt, c, hp, _⟩
  · exact hsame
  · cases h with
    | adopt _ hlegacy => exact absurd hlegacy hother
    | own h | bare h | again h | answered h | unread h | adopted h | failed h =>
      cases h.symm.trans hp

end Requests

open DynamoLeaseStore

/-- A table of one bare row, which a store that names `orders` has begun to read. -/
def upgrading : Requests Nat where
  table := fun k => if k = "0" then some { checkpoint := some (.sequence 5) } else none
  reads := [{ store := ⟨"leases", some "orders"⟩, key := ⟨"orders", "0"⟩ }]

end RuststreamKinesis
