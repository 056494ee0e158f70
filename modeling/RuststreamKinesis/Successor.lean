import RuststreamKinesis.System

/-!
# A subscription after another of its broker

The subscriptions of one broker share its owner id, so the lease row does not tell the reader that
one of them left behind from the reader of the next.
-/

namespace RuststreamKinesis

set_option autoImplicit false

open Runs

variable {Owner : Type} [DecidableEq Owner]

namespace Subscription

variable {u u' : Subscription} {owner : Owner} {shard : Shard} {lease lease' : MemoryLease Owner}
variable {r : Reader} {a : SubAct}

/-- What becomes of the owner of a row. -/
inductive Owned (owner : Owner) (lease lease' : MemoryLease Owner) (a : SubAct) : Prop where
  | kept (ha : a = .reader .release → lease.owner ≠ some owner) (h : lease'.owner = lease.owner)
  | taken {lineage : Lineage} {now : Nat} (ha : a = .acquire lineage now)
      (hheld : lease.held owner now = false) (h : lease'.owner = some owner)
  | released (ha : a = .reader .release) (hown : lease.owner = some owner)
      (h : lease'.owner = none)

theorem Step.owned (h : Step u owner shard lease a lease' u') : Owned owner lease lease' a := by
  cases h with
  | acquired _ hheld => exact .taken rfl hheld rfl
  | reader hr h =>
    cases h with
    | release =>
      by_cases hown : lease.owner = some owner
      · refine .released rfl hown ?_
        simp [MemoryLease.release, hown]
      · refine .kept (fun _ => hown) ?_
        simp [MemoryLease.release, hown]
    | _ => exact .kept nofun rfl
  | _ => exact .kept nofun rfl

/-- No reader of the subscription runs. -/
def Resting (u : Subscription) : Prop := u.reader.all Reader.exited = true

theorem ReaderStep.running {act : ReaderAct} (h : ReaderStep u owner shard lease r act lease' u') :
    r.exited = false := by
  cases h with
  | crash h => exact h
  | _ => simp only [Reader.exited, *]

theorem Resting.step (hu : Resting u) (h : Step u owner shard lease a lease' u')
    (ha : ∀ lineage now, a ≠ .acquire lineage now) : Resting u' := by
  cases h with
  | acquired => exact absurd rfl (ha _ _)
  | reader hr h =>
    simp only [Resting, hr, Option.all_some] at hu
    cases hu.symm.trans h.running
  | sent _ _ hr _ hrun =>
    simp only [Resting, hr, Option.all_some] at hu
    cases hu.symm.trans hrun
  | forgot => rfl
  | _ => exact hu

end Subscription

namespace System

variable {owner : Nat → Owner} {s s' s₀ s₁ : System Owner} {x y : Nat} {act : Act}

/-- The lease of `y` ends: its reader releases it, or another owner acquires it at or after its
expiry. -/
def ends (owner : Nat → Owner) (y : Nat) (s : System Owner) : Act → Bool
  | .sub z (.reader .release) => z == y
  | .sub z (.acquire _ now) => owner z ≠ owner y && s.lease.expires.all (· ≤ now)
  | _ => false

/-- No reader of another subscription of the owner releases the row. -/
def yields (owner : Nat → Owner) (y : Nat) : Act → Bool
  | .sub x (.reader .release) => x == y || owner x ≠ owner y
  | _ => true

/-- A run from `s₁` that has not come to the end of the lease. -/
def during (owner : Nat → Owner) (y : Nat) (s₁ : System Owner) (acts : List Act) :
    Option (System Owner) :=
  check (step owner) (fun s act => !s.ends owner y act) s₁ acts

/-- The row stays the owner's until the lease ends. -/
def Keeps (owner : Nat → Owner) (y : Nat) (s₁ : System Owner) (acts : List Act) : Prop :=
  ∀ n s, s₁.during owner y (acts.take n) = some s → s.lease.owner = some (owner y)

/-- Before the lease ends only a reader left behind by the owner takes the row from it. -/
theorem step_yields (hown : s.lease.owner = some (owner y)) (hends : s.ends owner y act = false)
    (h : s.step owner act = some s') :
    s'.lease.owner = some (owner y) ↔ yields owner y act = true := by
  cases act with
  | tick | append | close =>
    refine iff_of_true ?_ rfl
    cases step_cases h
    exact hown
  | sub x a =>
    cases (sub_cases h).owned with
    | kept ha hkept =>
      refine iff_of_true (hkept.trans hown) ?_
      by_cases hrel : a = .reader .release
      · subst hrel
        have hne : owner x ≠ owner y := fun he => ha rfl (he ▸ hown)
        simp [yields, hne]
      · unfold yields
        split
        · rename_i he
          cases he
          exact absurd rfl hrel
        · rfl
    | taken ha hheld htaken =>
      subst ha
      refine iff_of_true ?_ rfl
      by_cases he : owner x = owner y
      · rw [htaken, he]
      · simp only [ends, he, ne_eq, not_false_eq_true, decide_true, Bool.true_and] at hends
        simp only [MemoryLease.held, hown, Option.any_some, Ne.symm he, ne_eq, not_false_eq_true,
          decide_true, Bool.true_and] at hheld
        cases hexp : s.lease.expires with
        | none => simp [hexp] at hends
        | some e =>
          simp only [hexp, Option.all_some, Option.any_some, decide_eq_false_iff_not] at hends hheld
          omega
    | released ha hx hnone =>
      subst ha
      obtain he := Option.some.inj (hx.symm.trans hown)
      refine iff_of_false (by simp [hnone]) ?_
      simp only [ends] at hends
      simp [yields, hends, he]

theorem yields_of_ends (h : s.ends owner y act = true) : yields owner y act = true := by
  unfold ends at h
  split at h
  · simp [yields, h]
  · rfl
  · cases h

theorem released_of_not_yields (h : ¬ yields owner y act = true) :
    ∃ x, act = .sub x (.reader .release) ∧ x ≠ y ∧ owner x = owner y := by
  unfold yields at h
  split at h
  · rename_i x
    simp only [Bool.or_eq_true, beq_iff_eq, decide_eq_true_eq, not_or, not_not] at h
    exact ⟨x, rfl, h⟩
  · exact absurd rfl h

/-- The row is kept as long as no step takes it from the owner. -/
theorem keeps_iff {acts : List Act} (hown : s₁.lease.owner = some (owner y)) :
    Keeps owner y s₁ acts ↔ ∀ n s act s', s₁.during owner y (acts.take n) = some s →
      acts[n]? = some act → s.step owner act = some s' → yields owner y act = true := by
  constructor
  · intro hkeeps n s act s' hs hact hstep
    cases hends : s.ends owner y act with
    | true => exact yields_of_ends hends
    | false =>
      refine (step_yields (hkeeps n s hs) hends hstep).mp (hkeeps (n + 1) s' ?_)
      rw [List.take_add_one, hact]
      exact check_snoc_of hs (by simpa using hends) hstep
  · intro hyields n
    induction n with
    | zero =>
      intro s hs
      obtain rfl : s₁ = s := Option.some.inj hs
      exact hown
    | succ n ih =>
      intro s' hs
      rw [List.take_add_one] at hs
      cases hact : acts[n]? with
      | none =>
        rw [hact, Option.toList_none, List.append_nil] at hs
        exact ih s' hs
      | some act =>
        rw [hact, Option.toList_some] at hs
        obtain ⟨s, hs, hends, hstep⟩ := check_snoc hs
        have hends : s.ends owner y act = false := by simpa using hends
        exact (step_yields (ih s hs) hends hstep).mpr (hyields n s act s' hs hact hstep)

/-- A subscription that rests and whose coordinator is done has no reader to release the row. -/
theorem during_resting {acts : List Act} (hx : (s₁.subs x).Resting)
    (hacts : ∀ lineage now, .sub x (.acquire lineage now) ∉ acts)
    (h : s₁.during owner y acts = some s) : (s.subs x).Resting := by
  refine check_keeps (I := fun s => (s.subs x).Resting) ?_ h hx
  intro s a t ha hs hstep
  rcases (step_cases hstep).at x with he | ⟨b, rfl, hb⟩
  · rw [he]
    exact hs
  · refine hs.step hb ?_
    rintro lineage now rfl
    exact hacts lineage now ha

/-- From the acquire on the row stays the new subscription's exactly as long as no reader left
behind by its owner releases it; none does where all of them rest at the acquire and none of their
coordinators acquires afterwards. -/
theorem successor_keeps_lease {lineage : Lineage} {now : Nat}
    (hacquire : s₀.step owner (.sub y (.acquire lineage now)) = some s₁)
    (htaken : (s₁.subs y).reader.isSome = true) (acts : List Act) :
    (Keeps owner y s₁ acts ↔ ∀ n s act s', s₁.during owner y (acts.take n) = some s →
      acts[n]? = some act → s.step owner act = some s' → yields owner y act = true) ∧
    ((∀ x, x ≠ y → owner x = owner y → (s₁.subs x).Resting ∧
      ∀ lineage now, .sub x (.acquire lineage now) ∉ acts) → Keeps owner y s₁ acts) := by
  have hown : s₁.lease.owner = some (owner y) := by
    generalize hu : s₁.subs y = u at htaken
    generalize hl : s₁.lease = lease
    have hstep := sub_cases hacquire
    rw [hu, hl] at hstep
    cases hstep with
    | acquired => rfl
    | notAcquired hnone => simp [hnone] at htaken
  refine ⟨keeps_iff hown, ?_⟩
  intro hrest
  rw [keeps_iff hown]
  intro n s act s' hs hact hstep
  by_contra hyields
  obtain ⟨x, rfl, hx, he⟩ := released_of_not_yields hyields
  have hresting := during_resting (hrest x hx he).1
    (fun lineage now hmem => (hrest x hx he).2 lineage now (List.mem_of_mem_take hmem)) hs
  cases sub_cases hstep with
  | reader hr h =>
    simp only [Subscription.Resting, hr, Option.all_some] at hresting
    cases hresting.symm.trans h.running

/-- A subscription is dropped and the next one acquires the shard; the first one's reader then
comes to the head of its loop. -/
theorem successor_loses_lease : ∃ s₀ s₁ : System Nat,
    exec (step fun _ => 0) (init {}) (opening 0 .opens 0 ++ [.sub 0 .leave]) = some s₀ ∧
      (s₀.subs 0).closed = true ∧ s₀.subs 1 = {} ∧
      s₀.step (fun _ => 0) (.sub 1 (.acquire .opens 1)) = some s₁ ∧
      (s₁.subs 1).reader.isSome = true ∧
      ¬ Keeps (fun _ => 0) 1 s₁ [.sub 0 (.reader .checkClosed), .sub 0 (.reader .release)] := by
  refine ⟨_, _, rfl, rfl, rfl, rfl, rfl, ?_⟩
  intro hkeeps
  cases hkeeps 2 _ rfl

/-- The first subscription's reader has released the shard before the next one acquires it. -/
theorem successor_keeps_lease_released : ∃ s₀ s₁ : System Nat,
    exec (step fun _ => 0) (init {}) (opening 0 .opens 0 ++ [.sub 0 .leave,
      .sub 0 (.reader .checkClosed), .sub 0 (.reader .release)]) = some s₀ ∧
      s₀.step (fun _ => 0) (.sub 1 (.acquire .opens 1)) = some s₁ ∧
      Keeps (fun _ => 0) 1 s₁ [.sub 1 (.reader (.readRow true))] := by
  obtain ⟨s₀, s₁, h₀, h₁, htaken, hrest⟩ : ∃ s₀ s₁ : System Nat,
      exec (step fun _ => 0) (init {}) (opening 0 .opens 0 ++ [.sub 0 .leave,
        .sub 0 (.reader .checkClosed), .sub 0 (.reader .release)]) = some s₀ ∧
        s₀.step (fun _ => 0) (.sub 1 (.acquire .opens 1)) = some s₁ ∧
        (s₁.subs 1).reader.isSome = true ∧ ∀ x, x ≠ 1 → (s₁.subs x).Resting := by
    refine ⟨_, _, rfl, rfl, rfl, ?_⟩
    intro x hx
    match x with
    | 0 => rfl
    | 1 => exact absurd rfl hx
    | x + 2 => rfl
  refine ⟨s₀, s₁, h₀, h₁, (successor_keeps_lease h₁ htaken _).2 ?_⟩
  intro x hx _
  exact ⟨hrest x hx, by simp⟩

end System

end RuststreamKinesis
