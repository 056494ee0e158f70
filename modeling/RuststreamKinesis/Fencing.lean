import RuststreamKinesis.Lib.Runs
import RuststreamKinesis.Stores

/-!
# Fencing

A row has one owner at a time: it goes to another one by a release, or once the last expiry
granted on it has come. Progress is written by the owner only. Both stores keep to this, a row of
`DynamoLeaseStore` being the item under `stream:shard`.
-/

namespace RuststreamKinesis

set_option autoImplicit false

open Runs

variable {Owner : Type} [DecidableEq Owner]

/-- Who makes a call that is conditional on holding the lease. -/
def Call.holder : Call Owner → Option Owner
  | .renew owner _ _ | .checkpoint owner _ | .recordOpenedAt owner _ | .release owner => some owner
  | .acquire _ _ _ | .read => none

/-- The expiry the call grants when it is answered with the lease. -/
def Call.grant : Call Owner → Option (Owner × Nat)
  | .acquire owner now ttl | .renew owner now ttl => some (owner, now + ttl)
  | _ => none

structure Event (Owner : Type) where
  key : LeaseKey
  call : Call Owner
  answer : Answer
deriving DecidableEq

/-- The last expiry granted to the owner on the row; the latest event comes first. -/
def granted (key : LeaseKey) (owner : Owner) : List (Event Owner) → Option Nat
  | [] => none
  | e :: events =>
    match e.call.grant with
    | some (o, expiry) =>
      if e.key = key ∧ o = owner ∧ e.answer = .held true then some expiry
      else granted key owner events
    | none => granted key owner events

/-- What a call may do to the row it names; `expiry` is the last one granted to an owner. -/
structure Fenced (expiry : Owner → Option Nat) (c : Call Owner) (row : MemoryLease Owner)
    (answer : Answer) (row' : MemoryLease Owner) : Prop where
  kept : ∀ a, row.owner = some a → row'.owner = some a ∨ c = .release a ∨
    ∃ b now ttl e, b ≠ a ∧ c = .acquire b now ttl ∧ expiry a = some e ∧ e ≤ now
  refused : ∀ a, c.holder = some a → row.owner ≠ some a →
    row' = row ∧ (c ≠ .release a → answer = .held false)
  checkpoint : row'.checkpoint = row.checkpoint ∨
    ∃ a value, c = .checkpoint a value ∧ row.owner = some a
  openedAt : row'.openedAt = row.openedAt ∨
    ∃ a sequence, c = .recordOpenedAt a sequence ∧ row.owner = some a

/-- The owner of the row holds it until the last expiry granted to it. -/
def Granted (expiry : Owner → Option Nat) (row : MemoryLease Owner) : Prop :=
  ∀ a, row.owner = some a → ∃ e, row.expires = some e ∧ expiry a = some e

/-- How a row moves: as the memory store has it, or by not going to another owner. -/
inductive Leased (row : MemoryLease Owner) (c : Call Owner) :
    Answer → MemoryLease Owner → Prop where
  | called : Leased row c (row.call c).1 (row.call c).2
  | notTaken {b : Owner} {now ttl : Nat} (hc : c = .acquire b now ttl) :
    Leased row c (.held false) row

theorem Leased.of_call {row row' : MemoryLease Owner} {c : Call Owner} {answer : Answer}
    (h : row.call c = (answer, row')) : Leased row c answer row' := by
  have hcalled : Leased row c (row.call c).1 (row.call c).2 := .called
  rw [h] at hcalled
  exact hcalled

namespace MemoryLease

variable {row : MemoryLease Owner} {owner : Owner} {now ttl : Nat}

theorem acquire_free (h : row.held owner now = false) : row.call (.acquire owner now ttl) =
    (.held true, { row with owner := some owner, expires := some (now + ttl) }) := by
  simp [call, acquire, h]

theorem acquire_held (h : row.held owner now = true) :
    row.call (.acquire owner now ttl) = (.held false, row) := by
  simp [call, acquire, h]

theorem expired {a : Owner} {e : Nat} (h : row.held owner now = false) (ha : row.owner = some a)
    (he : row.expires = some e) (hne : owner ≠ a) : e ≤ now := by
  simp only [held, ha, he, Option.any_some, Bool.and_eq_false_iff, decide_eq_false_iff_not] at h
  rcases h with h | h
  · exact absurd (Ne.symm hne) h
  · omega

theorem call_refused {c : Call Owner} (hc : c.holder = some owner) (hne : row.owner ≠ some owner) :
    (row.call c).2 = row ∧ (c ≠ .release owner → (row.call c).1 = .held false) := by
  cases c with
  | acquire | read => cases hc
  | renew | checkpoint | recordOpenedAt | release =>
    obtain rfl := Option.some.inj hc
    simp [call, renew, saveCheckpoint, recordOpenedAt, release, hne]

end MemoryLease

/-- A row whose owner holds it as granted is fenced. -/
theorem Leased.fenced {expiry : Owner → Option Nat} {c : Call Owner} {row row' : MemoryLease Owner}
    {answer : Answer} (h : Leased row c answer row') (hg : Granted expiry row) :
    Fenced expiry c row answer row' := by
  cases h with
  | notTaken hc =>
    subst hc
    exact ⟨fun _ ha => .inl ha, by rintro _ ⟨⟩, .inl rfl, .inl rfl⟩
  | called =>
    refine ⟨?_, fun a hc hne => MemoryLease.call_refused hc hne, ?_, ?_⟩
    · intro a ha
      cases c with
      | acquire b now ttl =>
        cases hheld : row.held b now with
        | true =>
          rw [MemoryLease.acquire_held hheld]
          exact .inl ha
        | false =>
          rw [MemoryLease.acquire_free hheld]
          by_cases hb : b = a
          · exact .inl (congrArg some hb)
          · obtain ⟨e, he, hexp⟩ := hg a ha
            exact .inr (.inr ⟨b, now, ttl, e, hb, rfl, hexp, MemoryLease.expired hheld ha he hb⟩)
      | renew | checkpoint | recordOpenedAt =>
        left
        simp only [MemoryLease.call, MemoryLease.renew, MemoryLease.saveCheckpoint,
          MemoryLease.recordOpenedAt]
        split <;> exact ha
      | read => exact .inl ha
      | release b =>
        by_cases hb : b = a
        · exact .inr (.inl (hb ▸ rfl))
        · left
          have hne : row.owner ≠ some b := by
            rw [ha]
            exact fun he => hb (Option.some.inj he).symm
          rw [(MemoryLease.call_refused (c := .release b) rfl hne).1]
          exact ha
    · cases c with
      | acquire b now ttl =>
        left
        simp only [MemoryLease.call, MemoryLease.acquire]
        split <;> rfl
      | checkpoint a value =>
        by_cases ha : row.owner = some a
        · exact .inr ⟨a, value, rfl, ha⟩
        · exact .inl (by rw [(MemoryLease.call_refused (c := .checkpoint a value) rfl ha).1])
      | renew | recordOpenedAt | release =>
        left
        simp only [MemoryLease.call, MemoryLease.renew, MemoryLease.recordOpenedAt,
          MemoryLease.release]
        split <;> rfl
      | read => exact .inl rfl
    · cases c with
      | acquire b now ttl =>
        left
        simp only [MemoryLease.call, MemoryLease.acquire]
        split <;> rfl
      | recordOpenedAt a sequence =>
        by_cases ha : row.owner = some a
        · exact .inr ⟨a, sequence, rfl, ha⟩
        · exact .inl (by rw [(MemoryLease.call_refused (c := .recordOpenedAt a sequence) rfl ha).1])
      | renew | checkpoint | release =>
        left
        simp only [MemoryLease.call, MemoryLease.renew, MemoryLease.saveCheckpoint,
          MemoryLease.release]
        split <;> rfl
      | read => exact .inl rfl

theorem granted_refused {key k : LeaseKey} {c : Call Owner} {answer : Answer}
    {events : List (Event Owner)} {a : Owner} (h : answer ≠ .held true ∨ c.grant = none ∨ key ≠ k) :
    granted k a (⟨key, c, answer⟩ :: events) = granted k a events := by
  cases hg : c.grant with
  | none => simp [granted, hg]
  | some g =>
    simp only [granted, hg]
    apply if_neg
    rintro ⟨hk, _, ha⟩
    rcases h with h | h | h
    · exact h ha
    · cases hg.symm.trans h
    · exact h hk

theorem granted_now {key : LeaseKey} {c : Call Owner} {events : List (Event Owner)} {a : Owner}
    {e : Nat} (h : c.grant = some (a, e)) :
    granted key a (⟨key, c, .held true⟩ :: events) = some e := by
  simp [granted, h]

/-- The expiry of the row is the last one granted. -/
theorem Leased.granted {key : LeaseKey} {c : Call Owner} {row row' : MemoryLease Owner}
    {answer : Answer} {events : List (Event Owner)} (h : Leased row c answer row')
    (hg : Granted (fun a => granted key a events) row) :
    Granted (fun a => RuststreamKinesis.granted key a (⟨key, c, answer⟩ :: events)) row' := by
  have same : ∀ {answer : Answer}, answer ≠ .held true ∨ c.grant = none →
      Granted (fun a => RuststreamKinesis.granted key a (⟨key, c, answer⟩ :: events)) row := by
    intro answer hor a ha
    obtain ⟨e, he, hexp⟩ := hg a ha
    exact ⟨e, he, (granted_refused (hor.imp_right .inl)).trans hexp⟩
  cases h with
  | notTaken => exact same (.inl (by simp))
  | called =>
    cases c with
    | acquire b now ttl =>
      cases hheld : row.held b now with
      | true =>
        rw [MemoryLease.acquire_held hheld]
        exact same (.inl (by simp))
      | false =>
        rw [MemoryLease.acquire_free hheld]
        intro a ha
        obtain rfl := Option.some.inj ha
        exact ⟨now + ttl, rfl, granted_now rfl⟩
    | renew b now ttl =>
      by_cases hb : row.owner = some b
      · have hcall : row.call (.renew b now ttl) =
            (.held true, { row with expires := some (now + ttl) }) := by
          simp [MemoryLease.call, MemoryLease.renew, hb]
        rw [hcall]
        intro a ha
        obtain rfl := Option.some.inj (hb.symm.trans ha)
        exact ⟨now + ttl, rfl, granted_now rfl⟩
      · obtain ⟨hrow, hanswer⟩ := MemoryLease.call_refused (c := .renew b now ttl) rfl hb
        rw [hrow, hanswer (by simp)]
        exact same (.inl (by simp))
    | checkpoint b value =>
      intro a ha
      have hold : row.owner = some a ∧
          (row.call (.checkpoint b value)).2.expires = row.expires := by
        simp only [MemoryLease.call, MemoryLease.saveCheckpoint] at ha ⊢
        split at ha <;> exact ⟨ha, by split <;> rfl⟩
      obtain ⟨e, he, hexp⟩ := same (.inr rfl) a hold.1
      exact ⟨e, hold.2.trans he, hexp⟩
    | recordOpenedAt b sequence =>
      intro a ha
      have hold : row.owner = some a ∧
          (row.call (.recordOpenedAt b sequence)).2.expires = row.expires := by
        simp only [MemoryLease.call, MemoryLease.recordOpenedAt] at ha ⊢
        split at ha <;> exact ⟨ha, by split <;> rfl⟩
      obtain ⟨e, he, hexp⟩ := same (.inr rfl) a hold.1
      exact ⟨e, hold.2.trans he, hexp⟩
    | read => exact same (.inr rfl)
    | release b =>
      by_cases hb : row.owner = some b
      · intro a ha
        simp [MemoryLease.call, MemoryLease.release, hb] at ha
      · rw [(MemoryLease.call_refused (c := .release b) rfl hb).1]
        exact same (.inr rfl)

/-- A store with the calls made on it so far, the latest first. -/
structure Ledger (σ Owner : Type) where
  store : σ
  history : List (Event Owner) := []

def Ledger.step {σ : Type} (call : σ → LeaseKey → Call Owner → Answer × σ) (l : Ledger σ Owner)
    (act : LeaseKey × Call Owner) : Option (Ledger σ Owner) :=
  let (answer, store) := call l.store act.1 act.2
  some { store := store, history := ⟨act.1, act.2, answer⟩ :: l.history }

section Ledger
variable {σ : Type} {call : σ → LeaseKey → Call Owner → Answer × σ}
variable {row : σ → LeaseKey → MemoryLease Owner} {keys : LeaseKey → Prop}
variable {ok : σ → LeaseKey × Call Owner → Prop}

/-- The calls of a store move the row of their key, and no other one of `keys`. -/
structure Leases (call : σ → LeaseKey → Call Owner → Answer × σ)
    (row : σ → LeaseKey → MemoryLease Owner) (keys : LeaseKey → Prop)
    (ok : σ → LeaseKey × Call Owner → Prop) : Prop where
  own : ∀ s key c, ok s (key, c) →
    Leased (row s key) c (call s key c).1 (row (call s key c).2 key)
  other : ∀ s key c k, ok s (key, c) → keys k → k ≠ key → row (call s key c).2 k = row s k

/-- Over a whole run, the owner of each row holds it until the last expiry granted to it. -/
theorem Leases.granted (h : Leases call row keys ok) {s : σ}
    (hblank : ∀ k, (row s k).owner = none) {l : Ledger σ Owner}
    (hrun : Run (Ledger.step call) (fun l act => ok l.store act) { store := s } l) :
    ∀ k, keys k → Granted (fun a => RuststreamKinesis.granted k a l.history) (row l.store k) := by
  refine hrun.invariant (I := fun l => ∀ k, keys k →
    Granted (fun a => RuststreamKinesis.granted k a l.history) (row l.store k)) ?_ ?_
  · rintro l ⟨key, c⟩ l' hl hok hstep k hk
    obtain rfl := Option.some.inj hstep
    by_cases hkey : k = key
    · subst hkey
      exact (h.own l.store k c hok).granted (hl k hk)
    · simp only [h.other l.store key c k hok hk hkey]
      intro a ha
      obtain ⟨e, he, hexp⟩ := hl k hk a ha
      exact ⟨e, he, (granted_refused (.inr (.inr (Ne.symm hkey)))).trans hexp⟩
  · intro k _ a ha
    cases (hblank k).symm.trans ha

theorem Leases.fenced (h : Leases call row keys ok) {s : σ}
    (hblank : ∀ k, (row s k).owner = none) {l : Ledger σ Owner}
    (hrun : Run (Ledger.step call) (fun l act => ok l.store act) { store := s } l) {key : LeaseKey}
    {c : Call Owner} (hkey : keys key) (hok : ok l.store (key, c)) :
    Fenced (fun a => RuststreamKinesis.granted key a l.history) c (row l.store key)
      (call l.store key c).1 (row (call l.store key c).2 key) :=
  (h.own l.store key c hok).fenced (h.granted hblank hrun key hkey)

end Ledger

theorem MemoryLeaseStore.leases_call :
    Leases MemoryLeaseStore.call MemoryLeaseStore.row (fun _ => True)
      (fun (_ : MemoryLeaseStore Owner) _ => True) where
  own s key c _ := by
    simp only [MemoryLeaseStore.call, MemoryLeaseStore.withLease, MemoryLeaseStore.row,
      Function.update_self, Option.getD_some]
    exact .called
  other s key c k _ _ hne := by
    simp only [MemoryLeaseStore.call, MemoryLeaseStore.withLease, MemoryLeaseStore.row,
      Function.update_of_ne hne]

/-- The stream's name holds no colon. -/
def LeaseKey.Plain (key : LeaseKey) : Prop := ':' ∉ key.stream.toList

instance (key : LeaseKey) : Decidable key.Plain := inferInstanceAs (Decidable (_ ∉ _))

theorem separator_inj {α : Type} {x : α} {l l' r r' : List α} (hl : x ∉ l) (hl' : x ∉ l')
    (h : l ++ x :: r = l' ++ x :: r') : l = l' ∧ r = r' := by
  induction l generalizing l' with
  | nil =>
    cases l' with
    | nil => exact ⟨rfl, (List.cons.inj h).2⟩
    | cons a l' =>
      obtain rfl := (List.cons.inj h).1
      exact absurd List.mem_cons_self hl'
  | cons a l ih =>
    cases l' with
    | nil =>
      obtain rfl := (List.cons.inj h).1
      exact absurd List.mem_cons_self hl
    | cons b l' =>
      obtain ⟨rfl, htail⟩ := List.cons.inj h
      obtain ⟨rfl, hr⟩ := ih (fun hm => hl (List.mem_cons_of_mem a hm))
        (fun hm => hl' (List.mem_cons_of_mem a hm)) htail
      exact ⟨rfl, hr⟩

/-- The key written for a shard names its stream and shard. -/
theorem LeaseKey.text_inj {key key' : LeaseKey} (hk : key.Plain) (hk' : key'.Plain)
    (h : key.text = key'.text) : key = key' := by
  have hchars := congrArg String.toList h
  simp only [LeaseKey.text, String.toList_append, List.append_assoc] at hchars
  obtain ⟨hstream, hshard⟩ := separator_inj hk hk' hchars
  cases key
  cases key'
  exact congrArg₂ LeaseKey.mk (String.toList_inj.mp hstream) (String.toList_inj.mp hshard)

namespace Table

omit [DecidableEq Owner] in
theorem updateItem_done {table : Table Owner} {key : String} {condition : LeaseItem Owner → Bool}
    {update : LeaseItem Owner → LeaseItem Owner} (h : condition ((table key).getD {}) = true) :
    table.updateItem key condition update =
      (true, Function.update table key (some (update ((table key).getD {})))) := if_pos h

omit [DecidableEq Owner] in
theorem updateItem_refused {table : Table Owner} {key : String} {condition : LeaseItem Owner → Bool}
    {update : LeaseItem Owner → LeaseItem Owner} (h : condition ((table key).getD {}) = false) :
    table.updateItem key condition update = (false, table) := if_neg (by simp [h])

omit [DecidableEq Owner] in
theorem updateItem_other {table : Table Owner} {key k : String} {condition : LeaseItem Owner → Bool}
    {update : LeaseItem Owner → LeaseItem Owner} (hne : k ≠ key) :
    (table.updateItem key condition update).2 k = table k := by
  simp only [updateItem]
  split
  · exact Function.update_of_ne hne _ _
  · rfl

end Table

namespace DynamoLeaseStore

variable {store : DynamoLeaseStore} {table : Table Owner} {key : LeaseKey} {c : Call Owner}

def row (table : Table Owner) (key : LeaseKey) : MemoryLease Owner :=
  ((table key.text).getD {}).row

/-- A clock reading and a time to live that fit, and no row under the bare id of the shard. -/
structure Usable (table : Table Owner) (act : LeaseKey × Call Owner) : Prop where
  plain : act.1.Plain
  representable : ∀ a e, act.2.grant = some (a, e) → e < 2 ^ 64
  bare : act.2 = .read → table act.1.shard = none

theorem expiry_eq {now ttl : Nat} (h : now + ttl < 2 ^ 64) : expiry now ttl = now + ttl := by
  simp only [expiry]
  omega

omit [DecidableEq Owner] in
theorem row_checkpoint : (row table key).checkpoint = checkpointOf (table key.text) := by
  cases h : table key.text <;> simp [row, h, checkpointOf, LeaseItem.row]

omit [DecidableEq Owner] in
theorem row_openedAt : (row table key).openedAt = openedAtOf (table key.text) := by
  cases h : table key.text <;> simp [row, h, openedAtOf, LeaseItem.row]

theorem held_of_free {item : LeaseItem Owner} {owner : Owner} {now : Nat}
    (h : item.free owner now = true) : item.row.held owner now = false := by
  simp only [LeaseItem.free, Bool.or_eq_true, beq_iff_eq, Option.isNone_iff_eq_none,
    Option.any_eq_true, decide_eq_true_eq] at h
  rcases h with (h | h) | ⟨e, he, hlt⟩
  · simp [MemoryLease.held, LeaseItem.row, h]
  · simp [MemoryLease.held, LeaseItem.row, h]
  · have hn : ¬ now < e := by omega
    cases ho : item.leaseOwner <;> simp [MemoryLease.held, LeaseItem.row, ho, he, hn]

omit [DecidableEq Owner] in
@[simp] theorem row_update {item : LeaseItem Owner} :
    row (Function.update table key.text (some item)) key = item.row := by
  simp [row]

theorem owned_iff {owner : Owner} : LeaseItem.owned owner ((table key.text).getD {}) = true ↔
    (row table key).owner = some owner := beq_iff_eq

omit [DecidableEq Owner] in
theorem read_own (hbare : table key.shard = none) :
    store.read table key =
      (.state ⟨(row table key).checkpoint, (row table key).openedAt⟩, table) := by
  rw [row_checkpoint, row_openedAt]
  simp only [read]
  split
  · rename_i hc
    rw [hc]
  · rename_i hc
    rw [hc, hbare]
    split <;> rfl

theorem updateItem_owned {owner : Owner} {update : LeaseItem Owner → LeaseItem Owner} :
    table.updateItem key.text (LeaseItem.owned owner) update =
      if (row table key).owner = some owner then
        (true, Function.update table key.text (some (update ((table key.text).getD {}))))
      else (false, table) := by
  split
  · rename_i ho
    exact Table.updateItem_done (owned_iff.mpr ho)
  · rename_i ho
    exact Table.updateItem_refused (by simpa using mt owned_iff.mp ho)

theorem call_row (hok : Usable table (key, c)) (hc : ∀ a now ttl, c ≠ .acquire a now ttl) :
    ((store.call table key c).1, row (store.call table key c).2 key) = (row table key).call c := by
  cases c with
  | acquire a now ttl => exact absurd rfl (hc a now ttl)
  | renew owner now ttl =>
    simp only [call, renew, updateItem_owned, MemoryLease.call, MemoryLease.renew]
    split <;> simp [LeaseItem.count, LeaseItem.row, row, expiry_eq (hok.representable _ _ rfl)]
  | checkpoint owner value =>
    simp only [call, saveCheckpoint, updateItem_owned, MemoryLease.call, MemoryLease.saveCheckpoint]
    split <;> simp [LeaseItem.count, LeaseItem.row, row]
  | recordOpenedAt owner sequence =>
    simp only [call, recordOpenedAt, updateItem_owned, MemoryLease.call, MemoryLease.recordOpenedAt]
    split <;> simp [LeaseItem.count, LeaseItem.row, row]
  | read => simp only [call, read_own (hok.bare rfl), MemoryLease.call]
  | release owner =>
    simp only [call, release, updateItem_owned, MemoryLease.call, MemoryLease.release]
    split <;> simp [LeaseItem.count, LeaseItem.row, row]

theorem acquire_row (store : DynamoLeaseStore) {owner : Owner} {now ttl : Nat}
    (hok : Usable table (key, .acquire owner now ttl)) :
    if LeaseItem.free owner now ((table key.text).getD {}) then
      ((store.call table key (.acquire owner now ttl)).1,
        row (store.call table key (.acquire owner now ttl)).2 key) =
          (row table key).call (.acquire owner now ttl)
    else store.call table key (.acquire owner now ttl) = (.held false, table) := by
  split
  · rename_i hfree
    have hheld : (row table key).held owner now = false := held_of_free hfree
    rw [MemoryLease.acquire_free hheld]
    simp [call, acquire, Table.updateItem_done hfree, LeaseItem.count, LeaseItem.row, row,
      expiry_eq (hok.representable _ _ rfl)]
  · rename_i hfree
    simp [call, acquire, Table.updateItem_refused (Bool.eq_false_iff.mpr hfree)]

theorem call_other {k : String} (hok : Usable table (key, c)) (hne : k ≠ key.text) :
    (store.call table key c).2 k = table k := by
  cases c with
  | read => simp only [call, read_own (hok.bare rfl)]
  | acquire | renew | checkpoint | recordOpenedAt | release =>
    simp only [call, acquire, renew, saveCheckpoint, recordOpenedAt, release, Prod.map_snd, id_eq]
    exact Table.updateItem_other hne

theorem leases_call :
    Leases store.call row LeaseKey.Plain (Usable : Table Owner → LeaseKey × Call Owner → Prop) where
  own table key c hok := by
    by_cases hc : ∃ a now ttl, c = .acquire a now ttl
    · obtain ⟨a, now, ttl, rfl⟩ := hc
      have hrow := acquire_row store hok
      split at hrow
      · exact .of_call hrow.symm
      · rw [hrow]
        exact .notTaken rfl
    · exact .of_call (call_row hok fun a now ttl he => hc ⟨a, now, ttl, he⟩).symm
  other table key c k hok hk hne := by
    have htext : k.text ≠ key.text := fun he => hne (LeaseKey.text_inj hk hok.plain he)
    simp only [row, call_other hok htext]

end DynamoLeaseStore

/-- Both lease stores fence: over every run of calls, whoever makes them. -/
theorem lease_fencing :
    (∀ l : Ledger (MemoryLeaseStore Owner) Owner,
      Run (Ledger.step MemoryLeaseStore.call) (fun _ _ => True) { store := {} } l →
      ∀ key c, Fenced (fun a => granted key a l.history) c (l.store.row key)
          (l.store.call key c).1 ((l.store.call key c).2.row key) ∧
        ∀ k, k ≠ key → (l.store.call key c).2.leases k = l.store.leases k) ∧
    ∀ (store : DynamoLeaseStore) (l : Ledger (Table Owner) Owner),
      Run (Ledger.step store.call) (fun l act => DynamoLeaseStore.Usable l.store act)
        { store := fun _ => none } l →
      ∀ key c, DynamoLeaseStore.Usable l.store (key, c) →
        Fenced (fun a => granted key a l.history) c (DynamoLeaseStore.row l.store key)
          (store.call l.store key c).1 (DynamoLeaseStore.row (store.call l.store key c).2 key) ∧
        ∀ k, k.Plain → k ≠ key → (store.call l.store key c).2 k.text = l.store k.text := by
  constructor
  · intro l hrun key c
    refine ⟨MemoryLeaseStore.leases_call.fenced (fun _ => rfl) hrun trivial trivial, ?_⟩
    intro k hne
    exact Function.update_of_ne hne _ _
  · intro store l hrun key c hok
    refine ⟨DynamoLeaseStore.leases_call.fenced (fun _ => rfl) hrun hok.plain hok, ?_⟩
    intro k hk hne
    exact DynamoLeaseStore.call_other hok fun he => hne (LeaseKey.text_inj hk hok.plain he)

/-- An owner took the lease for ten milliseconds, and another one asks for it afterwards. -/
theorem lease_fencing_expired :
    (∃ l : Ledger (MemoryLeaseStore Nat) Nat,
      (l.store.row ⟨"orders", "0"⟩).owner = some 1 ∧
        Fenced (fun a => granted ⟨"orders", "0"⟩ a l.history) (.acquire 2 10 10)
          (l.store.row ⟨"orders", "0"⟩) (l.store.call ⟨"orders", "0"⟩ (.acquire 2 10 10)).1
          ((l.store.call ⟨"orders", "0"⟩ (.acquire 2 10 10)).2.row ⟨"orders", "0"⟩)) ∧
    ∃ l : Ledger (Table Nat) Nat,
      (DynamoLeaseStore.row l.store ⟨"orders", "0"⟩).owner = some 1 ∧
        Fenced (fun a => granted ⟨"orders", "0"⟩ a l.history) (.acquire 2 11 10)
          (DynamoLeaseStore.row l.store ⟨"orders", "0"⟩)
          (DynamoLeaseStore.call ⟨"leases", none⟩ l.store ⟨"orders", "0"⟩ (.acquire 2 11 10)).1
          (DynamoLeaseStore.row (DynamoLeaseStore.call ⟨"leases", none⟩ l.store ⟨"orders", "0"⟩
            (.acquire 2 11 10)).2 ⟨"orders", "0"⟩) := by
  have husable : ∀ (table : Table Nat) (owner now : Nat), now ≤ 11 →
      DynamoLeaseStore.Usable table (⟨"orders", "0"⟩, .acquire owner now 10) := by
    intro table owner now hnow
    have hplain : LeaseKey.Plain ⟨"orders", "0"⟩ := by decide
    refine ⟨hplain, ?_, nofun⟩
    intro a e h
    obtain ⟨_, rfl⟩ := Prod.mk.inj (Option.some.inj h)
    omega
  constructor
  · exact ⟨_, rfl, (lease_fencing.1 _
      (.single (a := (⟨"orders", "0"⟩, .acquire 1 0 10)) trivial rfl) _ _).1⟩
  · exact ⟨_, rfl, (lease_fencing.2 ⟨"leases", none⟩ _
      (.single (a := (⟨"orders", "0"⟩, .acquire 1 0 10)) (husable _ 1 0 (by omega)) rfl) _ _
      (husable _ 2 11 (by omega))).1⟩

end RuststreamKinesis
