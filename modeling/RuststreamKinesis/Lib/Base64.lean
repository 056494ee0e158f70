import Mathlib.Data.List.Basic
import Mathlib.Tactic.Common

/-!
# Standard base64

Three bytes are written as four symbols, a last one or two with padding. Of the texts that name
the same bytes only the one `encode` writes is read: the bits behind the last byte are zero and
the padding is complete.
-/

namespace Base64

set_option autoImplicit false

def pad : UInt8 := 0x3D

/-- The symbol of a number below 64. -/
def symbol (n : Nat) : UInt8 :=
  if n < 26 then (n + 0x41).toUInt8
  else if n < 52 then (n + 0x47).toUInt8
  else if n < 62 then (n - 4).toUInt8
  else if n = 62 then 0x2B
  else 0x2F

/-- The number a byte is the symbol of. -/
def index (b : UInt8) : Option Nat :=
  if 0x41 ≤ b.toNat ∧ b.toNat ≤ 0x5A then some (b.toNat - 0x41)
  else if 0x61 ≤ b.toNat ∧ b.toNat ≤ 0x7A then some (b.toNat - 0x47)
  else if 0x30 ≤ b.toNat ∧ b.toNat ≤ 0x39 then some (b.toNat + 4)
  else if b = 0x2B then some 62
  else if b = 0x2F then some 63
  else none

/-! The four groups of six bits in three bytes, and the bytes they make up -/

def group₁ (a : UInt8) : Nat := a.toNat / 4
def group₂ (a b : UInt8) : Nat := a.toNat % 4 * 16 + b.toNat / 16
def group₃ (b c : UInt8) : Nat := b.toNat % 16 * 4 + c.toNat / 64
def group₄ (c : UInt8) : Nat := c.toNat % 64

def byte₁ (w x : Nat) : UInt8 := (w * 4 + x / 16).toUInt8
def byte₂ (x y : Nat) : UInt8 := (x % 16 * 16 + y / 4).toUInt8
def byte₃ (y z : Nat) : UInt8 := (y % 4 * 64 + z).toUInt8

def encode : List UInt8 → List UInt8
  | [] => []
  | [a] => [symbol (group₁ a), symbol (group₂ a 0), pad, pad]
  | [a, b] => [symbol (group₁ a), symbol (group₂ a b), symbol (group₃ b 0), pad]
  | a :: b :: c :: rest =>
    symbol (group₁ a) :: symbol (group₂ a b) :: symbol (group₃ b c) :: symbol (group₄ c) ::
      encode rest

def decode : List UInt8 → Option (List UInt8)
  | [] => some []
  | a :: b :: c :: d :: rest =>
    match index a, index b with
    | some w, some x =>
      if c = pad then
        if d = pad ∧ rest = [] ∧ x % 16 = 0 then some [byte₁ w x] else none
      else
        match index c with
        | none => none
        | some y =>
          if d = pad then
            if rest = [] ∧ y % 4 = 0 then some [byte₁ w x, byte₂ x y] else none
          else
            match index d with
            | none => none
            | some z => (decode rest).map fun bytes => byte₁ w x :: byte₂ x y :: byte₃ y z :: bytes
    | _, _ => none
  | _ => none

variable {a b c : UInt8} {n w x y z : Nat}

theorem index_symbol (h : n < 64) : index (symbol n) = some n := by
  have hall : ∀ n : Fin 64, index (symbol n) = some n.1 := by decide
  exact hall ⟨n, h⟩

theorem symbol_ne_pad (h : n < 64) : symbol n ≠ pad := by
  have hall : ∀ n : Fin 64, symbol n ≠ pad := by decide
  exact hall ⟨n, h⟩

theorem symbol_lt (h : n < 64) : symbol n < 0x80 := by
  have hall : ∀ n : Fin 64, symbol n < 0x80 := by decide
  exact hall ⟨n, h⟩

theorem toUInt8_of_eq (h : n = b.toNat) : n.toUInt8 = b := by
  rw [h]
  exact UInt8.ofNat_toNat

theorem index_eq_some (h : index b = some n) : n < 64 ∧ symbol n = b := by
  have hb := b.toNat_lt
  simp only [index] at h
  split_ifs at h with hupper hlower hdigit hplus hslash <;> obtain rfl := Option.some.inj h
  · rw [symbol, if_pos (by omega)]
    exact ⟨by omega, toUInt8_of_eq (by omega)⟩
  · rw [symbol, if_neg (by omega), if_pos (by omega)]
    exact ⟨by omega, toUInt8_of_eq (by omega)⟩
  · rw [symbol, if_neg (by omega), if_neg (by omega), if_pos (by omega)]
    exact ⟨by omega, toUInt8_of_eq (by omega)⟩
  · rw [hplus]
    exact ⟨by omega, rfl⟩
  · rw [hslash]
    exact ⟨by omega, rfl⟩

theorem group₁_lt : group₁ a < 64 := by
  have := a.toNat_lt
  simp only [group₁]
  omega

theorem group₂_lt : group₂ a b < 64 := by
  have := b.toNat_lt
  simp only [group₂]
  omega

theorem group₃_lt : group₃ b c < 64 := by
  have := c.toNat_lt
  simp only [group₃]
  omega

theorem group₄_lt : group₄ c < 64 := by
  simp only [group₄]
  omega

theorem byte₁_group : byte₁ (group₁ a) (group₂ a b) = a := by
  have := b.toNat_lt
  exact toUInt8_of_eq (by simp only [group₁, group₂]; omega)

theorem byte₂_group : byte₂ (group₂ a b) (group₃ b c) = b := by
  have := b.toNat_lt
  have := c.toNat_lt
  exact toUInt8_of_eq (by simp only [group₂, group₃]; omega)

theorem byte₃_group : byte₃ (group₃ b c) (group₄ c) = c := by
  have := c.toNat_lt
  exact toUInt8_of_eq (by simp only [group₃, group₄]; omega)

theorem group₁_byte (hw : w < 64) (hx : x < 64) : group₁ (byte₁ w x) = w := by
  simp only [group₁, byte₁, Nat.toUInt8, UInt8.toNat_ofNat']
  omega

theorem group₂_byte (hx : x < 64) (hy : y < 64) :
    group₂ (byte₁ w x) (byte₂ x y) = x := by
  simp only [group₂, byte₁, byte₂, Nat.toUInt8, UInt8.toNat_ofNat']
  omega

theorem group₃_byte (hy : y < 64) (hz : z < 64) :
    group₃ (byte₂ x y) (byte₃ y z) = y := by
  simp only [group₃, byte₂, byte₃, Nat.toUInt8, UInt8.toNat_ofNat']
  omega

theorem group₄_byte (hz : z < 64) : group₄ (byte₃ y z) = z := by
  simp only [group₄, byte₃, Nat.toUInt8, UInt8.toNat_ofNat']
  omega

theorem group₂_last (hx : x < 64) (h : x % 16 = 0) : group₂ (byte₁ w x) 0 = x := by
  simp only [group₂, byte₁, Nat.toUInt8, UInt8.toNat_ofNat', UInt8.toNat_zero]
  omega

theorem group₃_last (hy : y < 64) (h : y % 4 = 0) : group₃ (byte₂ x y) 0 = y := by
  simp only [group₃, byte₂, Nat.toUInt8, UInt8.toNat_ofNat', UInt8.toNat_zero]
  omega

theorem group₂_zero_mod : group₂ a 0 % 16 = 0 := by
  simp only [group₂, UInt8.toNat_zero]
  omega

theorem group₃_zero_mod : group₃ b 0 % 4 = 0 := by
  simp only [group₃, UInt8.toNat_zero]
  omega

theorem decode_encode (bytes : List UInt8) : decode (encode bytes) = some bytes := by
  fun_induction encode bytes with
  | case1 => rfl
  | case2 a =>
    simp [decode, index_symbol group₁_lt, index_symbol group₂_lt, group₂_zero_mod, byte₁_group]
  | case3 a b =>
    simp [decode, index_symbol group₁_lt, index_symbol group₂_lt, index_symbol group₃_lt,
      symbol_ne_pad group₃_lt, group₃_zero_mod, byte₁_group, byte₂_group]
  | case4 a b c rest ih =>
    simp [decode, index_symbol group₁_lt, index_symbol group₂_lt, index_symbol group₃_lt,
      index_symbol group₄_lt, symbol_ne_pad group₃_lt, symbol_ne_pad group₄_lt, ih, byte₁_group,
      byte₂_group, byte₃_group]

theorem encode_of_decode {text bytes : List UInt8} (h : decode text = some bytes) :
    encode bytes = text := by
  fun_induction decode text generalizing bytes with
  | case1 =>
    obtain rfl := Option.some.inj h
    rfl
  | case2 a b d rest w x hx hw hend =>
    obtain ⟨rfl, rfl, hzero⟩ := hend
    obtain rfl := Option.some.inj h
    obtain ⟨wlt, rfl⟩ := index_eq_some hw
    obtain ⟨xlt, rfl⟩ := index_eq_some hx
    rw [encode, group₁_byte wlt xlt, group₂_last xlt hzero]
  | case5 a b c rest w x hx hw _ y hy hend =>
    obtain ⟨rfl, hzero⟩ := hend
    obtain rfl := Option.some.inj h
    obtain ⟨wlt, rfl⟩ := index_eq_some hw
    obtain ⟨xlt, rfl⟩ := index_eq_some hx
    obtain ⟨ylt, rfl⟩ := index_eq_some hy
    rw [encode, group₁_byte wlt xlt, group₂_byte xlt ylt, group₃_last ylt hzero]
  | case8 a b c d rest w x hx hw _ y hy _ z hz ih =>
    obtain ⟨more, hmore, rfl⟩ := Option.map_eq_some_iff.mp h
    obtain ⟨wlt, rfl⟩ := index_eq_some hw
    obtain ⟨xlt, rfl⟩ := index_eq_some hx
    obtain ⟨ylt, rfl⟩ := index_eq_some hy
    obtain ⟨zlt, rfl⟩ := index_eq_some hz
    rw [encode, group₁_byte wlt xlt, group₂_byte xlt ylt, group₃_byte ylt zlt, group₄_byte zlt,
      ih hmore]
  | _ => cases h

/-- A text is read as the bytes that it is the base64 of. -/
theorem decode_eq_some_iff {text bytes : List UInt8} :
    decode text = some bytes ↔ encode bytes = text :=
  ⟨encode_of_decode, fun h => h ▸ decode_encode bytes⟩

theorem encode_lt (bytes : List UInt8) : ∀ b ∈ encode bytes, b < 0x80 := by
  have hpad : pad < 0x80 := by decide
  fun_induction encode bytes with
  | case1 => simp
  | case2 a => simp [symbol_lt group₁_lt, symbol_lt group₂_lt, hpad]
  | case3 a b => simp [symbol_lt group₁_lt, symbol_lt group₂_lt, symbol_lt group₃_lt, hpad]
  | case4 a b c rest ih =>
    simpa [symbol_lt group₁_lt, symbol_lt group₂_lt, symbol_lt group₃_lt, symbol_lt group₄_lt]
      using ih

end Base64
