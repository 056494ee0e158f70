import Mathlib.Order.ConditionallyCompleteLattice.Basic
import Mathlib.Order.Lattice.Nat

/-!
# The longest prefix of a range inside a set

`front s d` is the length of the longest prefix of `0, …, d - 1` whose members all satisfy `s`:
the watermark over items that are finished in any order.
-/

namespace Front

set_option autoImplicit false

variable {s t : Nat → Prop} {d p q : Nat}

/-- The lengths of the prefixes of `0, …, d - 1` inside `s`. -/
def prefixes (s : Nat → Prop) (d : Nat) : Set Nat := {p | p ≤ d ∧ ∀ i < p, s i}

noncomputable def front (s : Nat → Prop) (d : Nat) : Nat := sSup (prefixes s d)

theorem bddAbove_prefixes : BddAbove (prefixes s d) := ⟨d, fun _ h => h.1⟩

theorem zero_mem_prefixes : 0 ∈ prefixes s d := ⟨Nat.zero_le d, fun i h => absurd h (by omega)⟩

theorem front_isGreatest (s : Nat → Prop) (d : Nat) : IsGreatest (prefixes s d) (front s d) := by
  constructor
  · exact Nat.sSup_mem ⟨0, zero_mem_prefixes⟩ bddAbove_prefixes
  · intro p hp
    exact le_csSup bddAbove_prefixes hp

theorem front_le : front s d ≤ d := (front_isGreatest s d).1.1

theorem of_lt_front {i : Nat} (h : i < front s d) : s i := (front_isGreatest s d).1.2 i h

/-- A prefix that stops at the end or before a non-member is the longest. -/
theorem front_eq (hp : p ∈ prefixes s d) (hstop : p < d → ¬ s p) : front s d = p := by
  apply Nat.le_antisymm
  · by_contra hlt
    have hpd : p < d := by
      have := front_le (s := s) (d := d)
      omega
    exact hstop hpd (of_lt_front (d := d) (by omega))
  · exact (front_isGreatest s d).2 hp

theorem front_mono (hst : ∀ i, s i → t i) : front s d ≤ front t d := by
  apply (front_isGreatest t d).2
  exact ⟨front_le, fun i hi => hst i (of_lt_front hi)⟩

theorem front_eq_end_iff : front s d = d ↔ ∀ i < d, s i := by
  constructor
  · intro h i hi
    exact of_lt_front (d := d) (by omega)
  · intro h
    exact front_eq ⟨Nat.le_refl d, h⟩ fun hlt => absurd hlt (by omega)

end Front
