import Mathlib.Data.Char
import Mathlib.Data.List.Lex
import Mathlib.Tactic.Ring

/-!
# Decimal numerals of a fixed width

`pad width n` is `n` in decimal, filled up with zeros to `width` digits. Among the digit strings
of one width the value decides: equal values are equal strings, and the lexicographic order is the
order of the values.
-/

namespace Decimal

set_option autoImplicit false

/-- The value of a string of decimal digits. -/
def value (digits : List Char) : Nat := Nat.ofDigitChars 10 digits 0

/-- Every character is a decimal digit. -/
def Digits (digits : List Char) : Prop := ∀ c ∈ digits, c.isDigit = true

def pad (width n : Nat) : List Char :=
  let digits := Nat.toDigits 10 n
  List.replicate (width - digits.length) '0' ++ digits

variable {a b digits : List Char} {c d : Char} {width n : Nat}

theorem Digits.head (h : Digits (c :: digits)) : c.isDigit = true := h c List.mem_cons_self

theorem Digits.tail (h : Digits (c :: digits)) : Digits digits :=
  fun d hd => h d (List.mem_cons_of_mem c hd)

theorem value_cons :
    value (c :: digits) = 10 ^ digits.length * (c.toNat - '0'.toNat) + value digits := by
  rw [value, Nat.ofDigitChars_cons, Nat.ofDigitChars_eq_ofDigitChars_zero, Nat.mul_zero,
    Nat.zero_add]
  rfl

theorem digit_bounds (h : c.isDigit = true) : '0'.toNat ≤ c.toNat ∧ c.toNat - '0'.toNat < 10 := by
  simp only [Char.isDigit, Bool.and_eq_true, decide_eq_true_eq, ge_iff_le] at h
  obtain ⟨hlow, hhigh⟩ := h
  have hlow' : 48 ≤ c.toNat := hlow
  have hhigh' : c.toNat ≤ 57 := hhigh
  change 48 ≤ c.toNat ∧ c.toNat - 48 < 10
  omega

theorem value_lt (h : Digits digits) : value digits < 10 ^ digits.length := by
  induction digits with
  | nil => exact Nat.one_pos
  | cons c digits ih =>
    have hrest := ih h.tail
    have hdigit := (digit_bounds h.head).2
    rw [value_cons, List.length_cons, Nat.pow_succ]
    calc
      10 ^ digits.length * (c.toNat - '0'.toNat) + value digits
          < 10 ^ digits.length * (c.toNat - '0'.toNat) + 10 ^ digits.length := by omega
      _ = 10 ^ digits.length * (c.toNat - '0'.toNat + 1) := by ring
      _ ≤ 10 ^ digits.length * 10 := Nat.mul_le_mul_left _ hdigit

/-- Of two numerals of one width the one with the smaller first digit has the smaller value. -/
theorem value_lt_of_head (hlen : a.length = b.length) (ha : Digits (c :: a))
    (hb : Digits (d :: b)) (hlt : c < d) : value (c :: a) < value (d :: b) := by
  have hrest := value_lt ha.tail
  have hc := (digit_bounds ha.head).1
  have hd := (digit_bounds hb.head).1
  have hcd : c.toNat < d.toNat := hlt
  rw [value_cons, value_cons, hlen]
  rw [hlen] at hrest
  calc
    10 ^ b.length * (c.toNat - '0'.toNat) + value a
        < 10 ^ b.length * (c.toNat - '0'.toNat) + 10 ^ b.length := by omega
    _ = 10 ^ b.length * (c.toNat - '0'.toNat + 1) := by ring
    _ ≤ 10 ^ b.length * (d.toNat - '0'.toNat) := Nat.mul_le_mul_left _ (by omega)
    _ ≤ 10 ^ b.length * (d.toNat - '0'.toNat) + value b := Nat.le_add_right _ _

theorem value_lt_of_lt (hlen : a.length = b.length) (ha : Digits a) (hb : Digits b)
    (hlt : a < b) : value a < value b := by
  induction a generalizing b with
  | nil =>
    obtain rfl := List.length_eq_zero_iff.mp hlen.symm
    exact absurd hlt (List.lt_irrefl _)
  | cons c a ih =>
    cases b with
    | nil => cases hlen
    | cons d b =>
      have hlen' : a.length = b.length := Nat.succ.inj hlen
      rcases List.cons_lt_cons_iff.mp hlt with hcd | ⟨rfl, hrest⟩
      · exact value_lt_of_head hlen' ha hb hcd
      · have := ih hlen' ha.tail hb.tail hrest
        rw [value_cons, value_cons, hlen']
        omega

theorem lt_iff_value_lt (hlen : a.length = b.length) (ha : Digits a) (hb : Digits b) :
    a < b ↔ value a < value b := by
  constructor
  · exact value_lt_of_lt hlen ha hb
  · intro hlt
    rcases lt_trichotomy a b with h | rfl | h
    · exact h
    · exact absurd hlt (Nat.lt_irrefl _)
    · exact absurd (value_lt_of_lt hlen.symm hb ha h) (Nat.not_lt.mpr hlt.le)

theorem eq_of_value_eq (hlen : a.length = b.length) (ha : Digits a) (hb : Digits b)
    (h : value a = value b) : a = b := by
  rcases lt_trichotomy a b with hlt | heq | hlt
  · exact absurd h (value_lt_of_lt hlen ha hb hlt).ne
  · exact heq
  · exact absurd h (value_lt_of_lt hlen.symm hb ha hlt).ne'

theorem value_pad : value (pad width n) = n := by
  rw [value, pad, Nat.ofDigitChars_append, Nat.ofDigitChars_replicate_zero, Nat.mul_zero,
    Nat.ofDigitChars_ten_toDigits]

theorem digits_pad : Digits (pad width n) := by
  intro c hc
  rcases List.mem_append.mp hc with hc | hc
  · rw [List.eq_of_mem_replicate hc]
    rfl
  · exact Nat.isDigit_of_mem_toDigits (by decide) (by decide) hc

theorem length_pad (hwidth : 0 < width) (h : n < 10 ^ width) : (pad width n).length = width := by
  have := (Nat.length_toDigits_le_iff (b := 10) (by decide) hwidth).mpr h
  simp only [pad, List.length_append, List.length_replicate]
  omega

/-- The numeral of a value is the only one of its width. -/
theorem eq_pad_iff (hlen : digits.length = width) (hwidth : 0 < width) (hdigits : Digits digits)
    (h : n < 10 ^ width) : digits = pad width n ↔ value digits = n := by
  constructor
  · rintro rfl
    exact value_pad
  · intro heq
    apply eq_of_value_eq _ hdigits digits_pad
    · rw [heq, value_pad]
    · rw [hlen, length_pad hwidth h]

theorem pad_lt_pad_iff {m : Nat} (hwidth : 0 < width) (hm : m < 10 ^ width)
    (hn : n < 10 ^ width) : pad width m < pad width n ↔ m < n := by
  have hlen : (pad width m).length = (pad width n).length := by
    rw [length_pad hwidth hm, length_pad hwidth hn]
  rw [lt_iff_value_lt hlen digits_pad digits_pad, value_pad, value_pad]

end Decimal
