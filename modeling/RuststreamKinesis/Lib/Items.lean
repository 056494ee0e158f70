import Mathlib.Data.List.Basic

/-!
# Items in front of one another

A reader `p` takes one item off the front of a list, or nothing. `Taken p l as rest` says that
reading one item after another takes the items `as` and stops in front of `rest`.
-/

namespace Items

set_option autoImplicit false

universe u v
variable {α : Type u} {β : Type v}

/-- The items read until the reader finds none, and what it leaves. -/
inductive Taken (p : List β → Option (α × List β)) : List β → List α → List β → Prop where
  | stop {l : List β} : p l = none → Taken p l [] l
  | next {l rest tail : List β} {a : α} {as : List α} : p l = some (a, rest) →
      Taken p rest as tail → Taken p l (a :: as) tail

/-- Each item that is read takes something off the list. -/
def Consumes (p : List β → Option (α × List β)) : Prop :=
  ∀ l a rest, p l = some (a, rest) → rest.length < l.length

/-- The reader takes what the writer puts in front. -/
def Reads (p : List β → Option (α × List β)) (put : α → List β) (ok : α → Prop) : Prop :=
  ∀ a rest, ok a → p (put a ++ rest) = some (a, rest)

/-- The reader takes nothing but what the writer puts in front. -/
def ReadsOnly (p : List β → Option (α × List β)) (put : α → List β) (ok : α → Prop) : Prop :=
  ∀ l a rest, p l = some (a, rest) → l = put a ++ rest ∧ ok a

variable {p : List β → Option (α × List β)} {put : α → List β} {ok : α → Prop}
variable {l rest : List β} {as bs : List α}

theorem Taken.unique (h : Taken p l as rest) {rest' : List β} (h' : Taken p l bs rest') :
    as = bs ∧ rest = rest' := by
  induction h generalizing bs rest' with
  | stop hnone =>
    cases h' with
    | stop => exact ⟨rfl, rfl⟩
    | next hsome => cases hnone.symm.trans hsome
  | next hsome _ ih =>
    cases h' with
    | stop hnone => cases hnone.symm.trans hsome
    | next hsome' h' =>
      obtain ⟨rfl, rfl⟩ := Prod.mk.inj (Option.some.inj (hsome.symm.trans hsome'))
      obtain ⟨rfl, rfl⟩ := ih h'
      exact ⟨rfl, rfl⟩

/-- A reader that consumes comes to an end. -/
theorem Consumes.items (hp : Consumes p) (l : List β) : ∃ as rest, Taken p l as rest := by
  generalize hn : l.length = n
  induction n using Nat.strongRecOn generalizing l with
  | ind n ih =>
    cases h : p l with
    | none => exact ⟨[], l, .stop h⟩
    | some x =>
      obtain ⟨a, rest⟩ := x
      have hlt := hp l a rest h
      obtain ⟨as, tail, hrest⟩ := ih rest.length (by omega) rest rfl
      exact ⟨a :: as, tail, .next h hrest⟩

/-- What was written one after the other is read one after the other. -/
theorem Reads.items (hp : Reads p put ok) (has : ∀ a ∈ as, ok a) (hrest : p rest = none) :
    Taken p (as.flatMap put ++ rest) as rest := by
  induction as with
  | nil => exact .stop hrest
  | cons a as ih =>
    have hhead := hp a (as.flatMap put ++ rest) (has a List.mem_cons_self)
    rw [← List.append_assoc] at hhead
    exact .next hhead (ih fun b hb => has b (List.mem_cons_of_mem _ hb))

/-- What is read one after the other was written one after the other. -/
theorem ReadsOnly.items (hp : ReadsOnly p put ok) (h : Taken p l as rest) :
    l = as.flatMap put ++ rest ∧ ∀ a ∈ as, ok a := by
  induction h with
  | stop hnone => exact ⟨rfl, fun a ha => absurd ha List.not_mem_nil⟩
  | @next l rest tail a as hsome _ ih =>
    obtain ⟨rfl, hok⟩ := hp l a rest hsome
    obtain ⟨hrest, has⟩ := ih
    constructor
    · rw [hrest, List.flatMap_cons, List.append_assoc]
    · exact List.forall_mem_cons.mpr ⟨hok, has⟩

end Items
