import Mathlib.Algebra.Order.BigOperators.Group.List

/-!
# Numbers as four bytes, most significant first
-/

namespace Bytes

set_option autoImplicit false

/-- The four low bytes of a number. -/
def be32 (n : Nat) : List UInt8 :=
  [(n / 2 ^ 24).toUInt8, (n / 2 ^ 16).toUInt8, (n / 2 ^ 8).toUInt8, n.toUInt8]

/-- The number four bytes stand for. -/
def ofBe32 (a b c d : UInt8) : Nat :=
  a.toNat * 2 ^ 24 + b.toNat * 2 ^ 16 + c.toNat * 2 ^ 8 + d.toNat

theorem length_be32 (n : Nat) : (be32 n).length = 4 := rfl

theorem ofBe32_be32 {n : Nat} (h : n < 2 ^ 32) : ofBe32 (n / 2 ^ 24).toUInt8
    (n / 2 ^ 16).toUInt8 (n / 2 ^ 8).toUInt8 n.toUInt8 = n := by
  simp only [ofBe32, Nat.toUInt8, UInt8.toNat_ofNat']
  omega

theorem ofBe32_lt (a b c d : UInt8) : ofBe32 a b c d < 2 ^ 32 := by
  have := a.toNat_lt
  have := b.toNat_lt
  have := c.toNat_lt
  have := d.toNat_lt
  simp only [ofBe32]
  omega

theorem be32_ofBe32 (a b c d : UInt8) : be32 (ofBe32 a b c d) = [a, b, c, d] := by
  have := a.toNat_lt
  have := b.toNat_lt
  have := c.toNat_lt
  have := d.toNat_lt
  simp only [be32, ofBe32, List.cons.injEq, and_true, ← UInt8.toNat_inj, Nat.toUInt8,
    UInt8.toNat_ofNat']
  omega

end Bytes
