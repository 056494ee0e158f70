import Mathlib.Data.List.Basic

/-!
# The partition point of a list, by halving

`slice::partition_point`: the search halves a window until one element is left. On a list whose
elements that satisfy `p` stand before the others it finds the first of the others; on another
list what it finds says nothing.
-/

namespace Partition

set_option autoImplicit false

universe u
variable {α : Type u} {p : α → Bool} {xs : List α} {base size n : Nat}

/-- Whether the element at the index satisfies `p`. -/
def holdsAt (p : α → Bool) (xs : List α) (i : Nat) : Bool := xs[i]?.any p

/-- The loop of the search over the window of `size` elements from `base` on. -/
def search (p : α → Bool) (xs : List α) (base size : Nat) : Nat :=
  if size ≤ 1 then if holdsAt p xs base then base + 1 else base
  else search p xs (if holdsAt p xs (base + size / 2) then base + size / 2 else base)
    (size - size / 2)
termination_by size
decreasing_by omega

def partitionPoint (p : α → Bool) (xs : List α) : Nat :=
  if xs.length = 0 then 0 else search p xs 0 xs.length

/-- `n` parts the list: `p` holds before it and fails from it on. -/
structure Parts (p : α → Bool) (xs : List α) (n : Nat) : Prop where
  le : n ≤ xs.length
  before : ∀ i < n, holdsAt p xs i = true
  since : ∀ i, n ≤ i → holdsAt p xs i = false

theorem Parts.unique {m : Nat} (h : Parts p xs n) (h' : Parts p xs m) : n = m := by
  have hle : ¬ n < m := by
    intro hlt
    have := h'.before n hlt
    rw [h.since n (Nat.le_refl n)] at this
    cases this
  have hge : ¬ m < n := by
    intro hlt
    have := h.before m hlt
    rw [h'.since m (Nat.le_refl m)] at this
    cases this
  omega

/-- An element that satisfies `p` has none before it that does not. -/
def Monotone (p : α → Bool) (xs : List α) : Prop :=
  ∀ i j, i ≤ j → holdsAt p xs j = true → holdsAt p xs i = true

theorem search_parts (hp : Monotone p xs) (hsize : 0 < size) (hle : base + size ≤ xs.length)
    (hbefore : ∀ i < base, holdsAt p xs i = true)
    (hsince : ∀ i, base + size ≤ i → holdsAt p xs i = false) :
    Parts p xs (search p xs base size) := by
  fun_induction search p xs base size with
  | case1 base size hone hbase =>
    refine ⟨by omega, ?_, fun i hi => hsince i (by omega)⟩
    intro i hi
    exact hp i base (by omega) hbase
  | case2 base size hone hbase =>
    refine ⟨by omega, hbefore, ?_⟩
    intro i hi
    by_contra hne
    exact hbase (hp base i hi (by simpa using hne))
  | case3 base size hone ih =>
    apply ih (by omega)
    · split_ifs <;> omega
    · intro i hi
      split_ifs at hi with hmid
      · exact hp i (base + size / 2) (by omega) hmid
      · exact hbefore i hi
    · intro i hi
      split_ifs at hi with hmid
      · exact hsince i (by omega)
      · by_contra hne
        exact hmid (hp (base + size / 2) i (by omega) (by simpa using hne))

theorem partitionPoint_parts (hp : Monotone p xs) : Parts p xs (partitionPoint p xs) := by
  unfold partitionPoint
  split_ifs with hnil
  · obtain rfl := List.length_eq_zero_iff.mp hnil
    exact ⟨Nat.le_refl _, nofun, fun i _ => rfl⟩
  · apply search_parts hp (by omega) (by omega) (fun i hi => absurd hi (by omega))
    intro i hi
    simp [holdsAt, List.getElem?_eq_none (by omega : xs.length ≤ i)]

theorem search_le (hsize : 0 < size) (hle : base + size ≤ xs.length) :
    search p xs base size ≤ xs.length := by
  fun_induction search p xs base size with
  | case1 base size hone hbase => omega
  | case2 base size hone hbase => omega
  | case3 base size hone ih =>
    apply ih (by omega)
    split_ifs <;> omega

/-- Whatever the list, the search stays in it. -/
theorem partitionPoint_le (p : α → Bool) (xs : List α) : partitionPoint p xs ≤ xs.length := by
  unfold partitionPoint
  split_ifs with hnil
  · omega
  · exact search_le (by omega) (by omega)

end Partition
