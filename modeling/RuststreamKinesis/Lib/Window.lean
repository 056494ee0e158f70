import Mathlib.Order.Cover
import Mathlib.Data.List.Basic

/-!
# Windows of outstanding positions

A consumer of an append-only log hands positions out in arrival order and settles them in any
order. `Through Done b p xs` says that every position from `b` up to `p` is done or still among
the outstanding `xs`; `Stacked Done b xs` says so of each outstanding position with respect to
those that arrived before it. Positions may arrive twice and out of order, as they do when a
consumer reads again from an earlier place.
-/

namespace Window

set_option autoImplicit false

universe u
variable {α : Type u}

/-- The window from `b` to `p`, `p` excluded: every position in it is done or outstanding. -/
def Through [Preorder α] (Done : α → Prop) (b p : α) (xs : List α) : Prop :=
  b ≤ p ∧ ∀ n, b ≤ n → n < p → Done n ∨ n ∈ xs

/-- The window up to an outstanding position: each position in it is done or arrived earlier. -/
def Stacked [Preorder α] (Done : α → Prop) (b : α) (xs : List α) : Prop :=
  ∀ l m r, xs = l ++ m :: r → Through Done b m l

/-- The window from `b` to `c`, `c` included: every position in it is done. -/
def DoneTo [Preorder α] (Done : α → Prop) (b c : α) : Prop :=
  b ≤ c ∧ ∀ n, b ≤ n → n ≤ c → Done n

section Preorder
variable [Preorder α] {Done Done' : α → Prop} {b p c : α} {xs ys : List α}

theorem Through.mono (h : Through Done b p xs) (hd : ∀ n, Done n → Done' n)
    (hx : ∀ n ∈ xs, Done' n ∨ n ∈ ys) : Through Done' b p ys := by
  refine ⟨h.1, ?_⟩
  intro n hb hp
  rcases h.2 n hb hp with hn | hn
  · exact .inl (hd n hn)
  · exact hx n hn

theorem Through.empty : Through Done b b xs :=
  ⟨le_rfl, fun _ hb hp => absurd (hb.trans_lt hp) (lt_irrefl _)⟩

theorem Stacked.mono (h : Stacked Done b xs) (hd : ∀ n, Done n → Done' n) :
    Stacked Done' b xs := fun l m r hx => (h l m r hx).mono hd fun _ hn => .inr hn

theorem Stacked.nil : Stacked Done b ([] : List α) := fun l m r hx => by simp at hx

theorem DoneTo.mono (h : DoneTo Done b c) (hd : ∀ n, Done n → Done' n) : DoneTo Done' b c :=
  ⟨h.1, fun n hb hc => hd n (h.2 n hb hc)⟩

end Preorder

section LinearOrder
variable [LinearOrder α] {Done : α → Prop} {b p q c : α} {xs ys : List α}

/-- The oldest outstanding position has nothing undone before it. -/
theorem Stacked.head {x : α} (h : Stacked Done b (x :: xs)) (hx : Done x) : DoneTo Done b x := by
  obtain ⟨hbx, hthrough⟩ := h [] x xs rfl
  refine ⟨hbx, ?_⟩
  intro n hb hn
  rcases hn.lt_or_eq with hlt | rfl
  · rcases hthrough n hb hlt with hd | hm
    · exact hd
    · simp at hm
  · exact hx

/-- Once it is done the oldest outstanding position may be dropped. -/
theorem Stacked.drop {x : α} (h : Stacked Done b (x :: xs)) (hx : Done x) : Stacked Done b xs := by
  intro l m r hl
  refine (h (x :: l) m r (by simp [hl])).mono (fun _ => id) ?_
  intro n hn
  rcases List.mem_cons.mp hn with rfl | hn
  · exact .inl hx
  · exact .inr hn

theorem Through.next (h : Through Done b p xs) (hpq : p ⋖ q) (hp : Done p ∨ p ∈ xs) :
    Through Done b q xs := by
  refine ⟨h.1.trans hpq.le, ?_⟩
  intro n hb hn
  rcases (hpq.le_of_lt hn).lt_or_eq with hlt | rfl
  · exact h.2 n hb hlt
  · exact hp

/-- What lies before the position after `c` is done if what lies up to `c` is. -/
theorem DoneTo.through (h : DoneTo Done b c) (hcp : c ⋖ p) : Through Done b p xs :=
  ⟨h.1.trans hcp.le, fun n hb hn => .inl (h.2 n hb (hcp.le_of_lt hn))⟩

theorem Stacked.push (h : Stacked Done b xs) (hp : Through Done b p xs) :
    Stacked Done b (xs ++ [p]) := by
  intro l m r hl
  rcases List.eq_nil_or_concat r with rfl | ⟨r, q, rfl⟩
  · obtain ⟨rfl, he⟩ := List.append_inj' hl rfl
    obtain rfl : p = m := List.head_eq_of_cons_eq he
    exact hp
  · have hl' : xs ++ [p] = (l ++ m :: r) ++ [q] := by simpa using hl
    exact h l m r (List.append_inj' hl' rfl).1

end LinearOrder

end Window
