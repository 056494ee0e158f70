import RuststreamKinesis.Fencing

/-!
# The two stores side by side

The stores answer a sequence of calls alike as long as no lease is asked for at the very instant
another owner's lease on it expires, and no read comes upon progress under a bare shard id.
-/

namespace RuststreamKinesis

set_option autoImplicit false

open Runs

variable {Owner : Type} [DecidableEq Owner]

/-- The answers of a store to a sequence of calls. -/
def answers {σ : Type} (call : σ → LeaseKey → Call Owner → Answer × σ) :
    σ → List (LeaseKey × Call Owner) → List Answer
  | _, [] => []
  | s, (key, c) :: calls => (call s key c).1 :: answers call (call s key c).2 calls

/-- A clock reading and a time to live that fit. -/
def Call.Representable (c : Call Owner) : Prop := ∀ a e, c.grant = some (a, e) → e < 2 ^ 64

namespace DynamoLeaseStore

variable {store : DynamoLeaseStore} {table : Table Owner} {key : LeaseKey} {c : Call Owner}
variable {mem : MemoryLeaseStore Owner}

/-- The table after a call. -/
def after (store : DynamoLeaseStore) (table : Table Owner) (act : LeaseKey × Call Owner) :
    Option (Table Owner) := some (store.call table act.1 act.2).2

/-- The lease is not asked for at the instant another owner's one expires, and a bare row with
progress is not come upon. -/
def steady (store : DynamoLeaseStore) (table : Table Owner) : LeaseKey × Call Owner → Bool
  | (key, .acquire owner now _) =>
    !((row table key).owner.any (· ≠ owner) && (row table key).expires == some now)
  | (key, .read) => (row table key).checkpoint.isSome || store.foreign key ||
    (checkpointOf (table key.shard)).isNone
  | _ => true

/-- The table's rows are those of the memory store, and an owned one has its expiry. -/
structure Matches (mem : MemoryLeaseStore Owner) (table : Table Owner) : Prop where
  row : ∀ k, k.Plain → DynamoLeaseStore.row table k = mem.row k
  expires : ∀ k, (mem.row k).owner.isSome = true → (mem.row k).expires.isSome = true

/-- Away from the instant of expiry both stores see the same leases as free. -/
theorem free_iff {owner : Owner} {now : Nat} (ttl : Nat)
    (he : (row table key).owner.isSome = true → (row table key).expires.isSome = true) :
    LeaseItem.free owner now ((table key.text).getD {}) = !(row table key).held owner now ↔
      store.steady table (key, .acquire owner now ttl) = true := by
  simp only [steady, row, LeaseItem.row, LeaseItem.free, MemoryLease.held] at he ⊢
  cases ho : ((table key.text).getD {}).leaseOwner with
  | none => simp
  | some b =>
    by_cases hb : b = owner
    · simp [hb]
    · obtain ⟨e, hexp⟩ := Option.isSome_iff_exists.mp (he (by simp [ho]))
      simp only [hexp, Option.isNone_some, Option.some.injEq, hb, Option.any_some, Bool.false_or,
        Bool.not_eq_true', ne_eq, decide_not, decide_false, Bool.not_false, Bool.true_and,
        beq_eq_decide]
      rw [Bool.eq_iff_iff]
      simp only [decide_eq_true_eq, Bool.not_eq_true', decide_eq_false_iff_not]
      omega

omit [DecidableEq Owner] in
theorem Matches.blank : Matches ({} : MemoryLeaseStore Owner) (fun _ => none) where
  row _ _ := rfl
  expires _ h := by cases h

theorem read_steady (h : store.steady table (key, (.read : Call Owner)) = true) :
    store.read table key =
      (.state ⟨(row table key).checkpoint, (row table key).openedAt⟩, table) := by
  rw [row_checkpoint, row_openedAt]
  simp only [steady, row_checkpoint] at h
  simp only [read]
  split
  · rename_i hc
    rw [hc]
  · rename_i hc
    rw [hc]
    split
    · rfl
    · rename_i hforeign
      simp only [hc, hforeign, Option.isSome_none, Bool.or_self, Bool.false_or,
        Option.isNone_iff_eq_none] at h
      rw [h]

theorem read_unsteady (h : store.steady table (key, (.read : Call Owner)) = false) :
    (store.read table key).1 ≠
      .state ⟨(row table key).checkpoint, (row table key).openedAt⟩ := by
  simp only [steady, row_checkpoint, Bool.or_eq_false_iff, Option.isSome_eq_false_iff,
    Option.isNone_iff_eq_none, Option.isNone_eq_false_iff] at h
  obtain ⟨⟨hown, hforeign⟩, hbare⟩ := h
  obtain ⟨checkpoint, hbare⟩ := Option.isSome_iff_exists.mp hbare
  rw [row_checkpoint, row_openedAt]
  simp only [read, hown, hforeign, hbare]
  cases store.legacyStream with
  | none => simp
  | some _ =>
    have hnone : ((table key.text).getD {}).checkpoint = none := by
      cases hitem : table key.text with
      | none => rfl
      | some item => simpa [checkpointOf, hitem] using hown
    simp [adopt, Table.updateItem_done, hnone]

theorem acquire_answer {owner : Owner} {now ttl : Nat} :
    (store.call table key (.acquire owner now ttl)).1 =
      .held (LeaseItem.free owner now ((table key.text).getD {})) := by
  simp only [call, acquire, Table.updateItem]
  split
  · rename_i h
    simp [h]
  · rename_i h
    simp [Bool.eq_false_iff.mpr h]

theorem call_steady (hk : key.Plain) (hr : c.Representable)
    (he : (row table key).owner.isSome = true → (row table key).expires.isSome = true)
    (hs : store.steady table (key, c) = true) :
    ((store.call table key c).1, row (store.call table key c).2 key) = (row table key).call c := by
  have usable : c ≠ .read → Usable table (key, c) := fun hc => ⟨hk, hr, fun h => absurd h hc⟩
  cases c with
  | acquire owner now ttl =>
    have hfree := (free_iff ttl he).mpr hs
    have hrow := acquire_row store (usable (by simp))
    cases hheld : (row table key).held owner now with
    | true =>
      rw [hheld] at hfree
      simp only [hfree, Bool.not_true, Bool.false_eq_true, if_false] at hrow
      rw [hrow, MemoryLease.acquire_held hheld]
    | false =>
      rw [hheld] at hfree
      simpa only [hfree, Bool.not_false, if_true] using hrow
  | read => simp only [call, read_steady hs, MemoryLease.call]
  | renew | checkpoint | recordOpenedAt | release => exact call_row (usable (by simp)) (by simp)

theorem steady_other {k : String} (hk : key.Plain) (hr : c.Representable)
    (hs : store.steady table (key, c) = true) (hne : k ≠ key.text) :
    (store.call table key c).2 k = table k := by
  cases c with
  | read => simp only [call, read_steady hs]
  | acquire | renew | checkpoint | recordOpenedAt | release =>
    exact call_other ⟨hk, hr, by simp⟩ hne

/-- A call is answered alike exactly when it is steady. -/
theorem answer_iff (hm : Matches mem table) (hk : key.Plain) (hr : c.Representable) :
    (mem.call key c).1 = (store.call table key c).1 ↔ store.steady table (key, c) = true := by
  have hrow := hm.row key hk
  have hmem : (mem.call key c).1 = ((row table key).call c).1 := by
    rw [hrow]
    rfl
  have he : (row table key).owner.isSome = true → (row table key).expires.isSome = true := by
    rw [hrow]
    exact hm.expires key
  rw [hmem]
  constructor
  · intro h
    cases c with
    | acquire owner now ttl =>
      apply (free_iff ttl he).mp
      rw [acquire_answer] at h
      cases hheld : (row table key).held owner now with
      | true =>
        rw [MemoryLease.acquire_held hheld] at h
        exact (Answer.held.inj h).symm
      | false =>
        rw [MemoryLease.acquire_free hheld] at h
        exact (Answer.held.inj h).symm
    | read =>
      by_contra hs
      exact read_unsteady (Bool.eq_false_iff.mpr hs) h.symm
    | renew | checkpoint | recordOpenedAt | release => rfl
  · intro hs
    exact (congrArg Prod.fst (call_steady hk hr he hs)).symm

end DynamoLeaseStore

theorem MemoryLease.call_expires {row : MemoryLease Owner} {c : Call Owner}
    (h : row.owner.isSome = true → row.expires.isSome = true) :
    (row.call c).2.owner.isSome = true → (row.call c).2.expires.isSome = true := by
  cases c with
  | acquire | renew =>
    simp only [MemoryLease.call, MemoryLease.acquire, MemoryLease.renew]
    split
    · simp_all
    · simp_all
  | checkpoint | recordOpenedAt | release =>
    simp only [MemoryLease.call, MemoryLease.saveCheckpoint, MemoryLease.recordOpenedAt,
      MemoryLease.release]
    split
    · simp_all
    · simp_all
  | read => exact h

namespace DynamoLeaseStore

variable {store : DynamoLeaseStore} {table : Table Owner} {key : LeaseKey} {c : Call Owner}
variable {mem : MemoryLeaseStore Owner}

theorem Matches.call (hm : Matches mem table) (hk : key.Plain) (hr : c.Representable)
    (hs : store.steady table (key, c) = true) :
    Matches (mem.call key c).2 (store.call table key c).2 := by
  have hrow := hm.row key hk
  have hown : (mem.call key c).2.row key = ((mem.row key).call c).2 := by
    simp [MemoryLeaseStore.call, MemoryLeaseStore.withLease, MemoryLeaseStore.row]
  have hother : ∀ k, k ≠ key → (mem.call key c).2.row k = mem.row k := by
    intro k hne
    simp [MemoryLeaseStore.call, MemoryLeaseStore.withLease, MemoryLeaseStore.row, hne]
  refine ⟨?_, ?_⟩
  · intro k hkk
    by_cases hkey : k = key
    · subst hkey
      have hsteady := congrArg Prod.snd (call_steady hk hr (by rw [hrow]; exact hm.expires k) hs)
      rw [hown, ← hrow]
      exact hsteady
    · have htext : k.text ≠ key.text := fun he => hkey (LeaseKey.text_inj hkk hk he)
      rw [hother k hkey, ← hm.row k hkk]
      simp only [DynamoLeaseStore.row, steady_other hk hr hs htext]
  · intro k
    by_cases hkey : k = key
    · subst hkey
      rw [hown]
      exact MemoryLease.call_expires (hm.expires k)
    · rw [hother k hkey]
      exact hm.expires k

theorem Matches.answers_iff (hm : Matches mem table) (calls : List (LeaseKey × Call Owner))
    (hcalls : ∀ act ∈ calls, act.1.Plain ∧ act.2.Representable) :
    answers MemoryLeaseStore.call mem calls = answers store.call table calls ↔
      (check store.after store.steady table calls).isSome = true := by
  induction calls generalizing mem table with
  | nil => simp [answers, check]
  | cons act calls ih =>
    obtain ⟨key, c⟩ := act
    obtain ⟨hk, hr⟩ := hcalls (key, c) List.mem_cons_self
    have hrest : ∀ act ∈ calls, act.1.Plain ∧ act.2.Representable :=
      fun act hact => hcalls act (List.mem_cons_of_mem _ hact)
    simp only [answers, check, List.cons.injEq, answer_iff hm hk hr]
    cases hs : store.steady table (key, c) with
    | false => simp
    | true =>
      simp only [true_and, if_true, after, Option.bind_some]
      exact ih (hm.call hk hr hs) hrest

end DynamoLeaseStore

/-- The two stores answer the calls alike exactly when every call is steady. -/
theorem stores_agree_iff (store : DynamoLeaseStore) (calls : List (LeaseKey × Call Owner))
    (hcalls : ∀ act ∈ calls, act.1.Plain ∧ act.2.Representable) :
    answers MemoryLeaseStore.call {} calls = answers store.call (fun _ => none) calls ↔
      (check store.after store.steady (fun _ => none) calls).isSome = true :=
  DynamoLeaseStore.Matches.blank.answers_iff calls hcalls

/-- A second owner asks for the lease at the instant the first one's expires. -/
def askingAtExpiry : List (LeaseKey × Call Nat) :=
  [(⟨"orders", "0"⟩, .acquire 1 0 10), (⟨"orders", "0"⟩, .acquire 2 10 10)]

theorem stores_disagree : answers MemoryLeaseStore.call {} askingAtExpiry ≠
    answers (DynamoLeaseStore.call ⟨"leases", none⟩) (fun _ => none) askingAtExpiry := by
  decide

/-- The second owner asks a millisecond later. -/
theorem stores_agree_later :
    answers MemoryLeaseStore.call {}
        [(⟨"orders", "0"⟩, .acquire 1 0 10), (⟨"orders", "0"⟩, .acquire 2 11 10)] =
      answers (DynamoLeaseStore.call ⟨"leases", none⟩) (fun _ => none)
        [(⟨"orders", "0"⟩, .acquire 1 0 10), (⟨"orders", "0"⟩, .acquire 2 11 10)] := by
  apply (stores_agree_iff ⟨"leases", none⟩ _ ?_).mpr
  · decide
  · have hplain : LeaseKey.Plain ⟨"orders", "0"⟩ := by decide
    intro act hact
    rcases List.mem_cons.mp hact with rfl | hact
    · refine ⟨hplain, ?_⟩
      rintro a e ⟨⟩
      decide
    · obtain rfl := List.mem_singleton.mp hact
      refine ⟨hplain, ?_⟩
      rintro a e ⟨⟩
      decide

end RuststreamKinesis
