import Mathlib.Algebra.BigOperators.Group.List.Basic

/-!
# Lists as memories

A list used as a memory: a cell is allocated at the end and written in place.
-/

namespace Cells

set_option autoImplicit false

universe u v
variable {α : Type u} {l : List α} {i j : Nat} {v x : α}

theorem get_set (h : (l.set i v)[j]? = some x) : (j = i ∧ x = v) ∨ (j ≠ i ∧ l[j]? = some x) := by
  rw [List.getElem?_set] at h
  split at h
  · rename_i he
    split at h
    · exact .inl ⟨he.symm, (Option.some.inj h).symm⟩
    · cases h
  · rename_i hne
    exact .inr ⟨fun he => hne he.symm, h⟩

theorem get_set_self {old : α} (h : l[i]? = some old) : (l.set i v)[i]? = some v := by
  rw [List.getElem?_set_self (List.getElem?_eq_some_iff.mp h).1]

theorem get_set_ne (h : j ≠ i) : (l.set i v)[j]? = l[j]? :=
  List.getElem?_set_ne (Ne.symm h)

theorem get_push (h : (l ++ [v])[j]? = some x) : l[j]? = some x ∨ (j = l.length ∧ x = v) := by
  rw [List.getElem?_append] at h
  split at h
  · exact .inl h
  · rename_i hge
    rw [List.getElem?_singleton] at h
    split at h
    · exact .inr ⟨by omega, (Option.some.inj h).symm⟩
    · cases h

theorem get_push_old (h : l[j]? = some x) : (l ++ [v])[j]? = some x := by
  rw [List.getElem?_append_left (List.getElem?_eq_some_iff.mp h).1, h]

theorem get_lt (h : l[j]? = some x) : j < l.length := (List.getElem?_eq_some_iff.mp h).1

theorem mem_push (h : x ∈ l ++ [v]) : x ∈ l ∨ x = v :=
  (List.mem_append.mp h).imp_right List.mem_singleton.mp

theorem mem_set (h : x ∈ l.set i v) : x = v ∨ x ∈ l := (List.mem_or_eq_of_mem_set h).symm

/-- What is read off the cells changes with one of them as that one does. -/
theorem filterMap_set {β : Type v} {f : α → Option β} (h : l[i]? = some x) :
    ((l.set i v).filterMap f ++ (f x).toList).Perm (l.filterMap f ++ (f v).toList) := by
  induction l generalizing i with
  | nil => cases h
  | cons a l ih =>
    cases i with
    | zero =>
      obtain rfl : a = x := by simpa using h
      have hcons : ∀ b, (b :: l).filterMap f = (f b).toList ++ l.filterMap f := by
        intro b
        rw [List.filterMap_cons]
        cases f b <;> rfl
      rw [List.set_cons_zero, hcons, hcons, List.append_assoc, List.append_assoc]
      refine List.perm_append_comm.trans ?_
      refine (List.perm_append_comm.append_right (f v).toList).trans ?_
      rw [List.append_assoc]
    | succ i =>
      have hrest := ih (i := i) (by simpa using h)
      rw [List.set_cons_succ, List.filterMap_cons, List.filterMap_cons]
      cases f a with
      | none => exact hrest
      | some b => exact hrest.cons b

section Sums
variable {M : Type v} [AddCommMonoid M] {f : α → M}

theorem sum_set (h : l[i]? = some x) :
    ((l.set i v).map f).sum + f x = (l.map f).sum + f v := by
  induction l generalizing i with
  | nil => cases h
  | cons a l ih =>
    cases i with
    | zero =>
      obtain rfl : a = x := by simpa using h
      simp only [List.set_cons_zero, List.map_cons, List.sum_cons]
      ac_rfl
    | succ i =>
      have hrest := ih (i := i) (by simpa using h)
      simp only [List.set_cons_succ, List.map_cons, List.sum_cons]
      rw [add_assoc, hrest, ← add_assoc]

theorem sum_eraseIdx (h : l[i]? = some x) :
    ((l.eraseIdx i).map f).sum + f x = (l.map f).sum := by
  induction l generalizing i with
  | nil => cases h
  | cons a l ih =>
    cases i with
    | zero =>
      obtain rfl : a = x := by simpa using h
      simp only [List.eraseIdx_cons_zero, List.map_cons, List.sum_cons]
      ac_rfl
    | succ i =>
      have hrest := ih (i := i) (by simpa using h)
      simp only [List.eraseIdx_cons_succ, List.map_cons, List.sum_cons]
      rw [add_assoc, hrest]

end Sums

end Cells
