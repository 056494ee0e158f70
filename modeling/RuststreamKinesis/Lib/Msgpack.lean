import Mathlib.Algebra.BigOperators.Group.List.Basic
import Mathlib.Algebra.Order.Ring.Nat
import Mathlib.Data.List.Basic
import Mathlib.Tactic.Ring

/-!
# MessagePack

A document is an item: a head, which says how many bytes or items it holds, and these behind it.
Strings, byte strings, arrays and maps are written with the shortest head there is.
-/

namespace Msgpack

set_option autoImplicit false

/-- The low bytes of a number, as many as are asked for, most significant first. -/
def be : Nat → Nat → List UInt8
  | 0, _ => []
  | k + 1, n => (n / 256 ^ k).toUInt8 :: be k n

/-- Takes a number of so many bytes off the front. -/
def readBe : Nat → List UInt8 → Option (Nat × List UInt8)
  | 0, bytes => some (0, bytes)
  | _ + 1, [] => none
  | k + 1, b :: bytes => (readBe k bytes).map fun (n, rest) => (b.toNat * 256 ^ k + n, rest)

theorem readBe_be (k n : Nat) (rest : List UInt8) :
    readBe k (be k n ++ rest) = some (n % 256 ^ k, rest) := by
  induction k with
  | zero => simp [be, readBe, Nat.mod_one]
  | succ k ih =>
    have hbyte : (n / 256 ^ k).toUInt8.toNat = n / 256 ^ k % 256 := UInt8.toNat_ofNat'
    have hmod : n % 256 ^ (k + 1) = n / 256 ^ k % 256 * 256 ^ k + n % 256 ^ k := by
      rw [Nat.pow_succ, Nat.mod_mul]
      ring
    rw [be, List.cons_append, readBe, ih, Option.map_some, hbyte, hmod]

theorem readBe_length {k n : Nat} {bytes rest : List UInt8} (h : readBe k bytes = some (n, rest)) :
    rest.length ≤ bytes.length := by
  induction k generalizing n bytes with
  | zero =>
    obtain ⟨-, rfl⟩ := Prod.mk.inj (Option.some.inj h)
    exact Nat.le_refl _
  | succ k ih =>
    cases bytes with
    | nil => cases h
    | cons b bytes =>
      obtain ⟨⟨m, after⟩, hread, heq⟩ := Option.map_eq_some_iff.mp h
      obtain ⟨-, rfl⟩ := Prod.mk.inj heq
      exact Nat.le_succ_of_le (ih hread)

/-- What an item is and how much it holds; any other one holds bytes. -/
inductive Head where
  | str (length : Nat)
  | bin (length : Nat)
  | array (count : Nat)
  | map (count : Nat)
  | other (length : Nat)
deriving DecidableEq, Repr

namespace Head

/-- The bytes behind the head. -/
def bytes : Head → Nat
  | .str length | .bin length | .other length => length
  | .array _ | .map _ => 0

/-- The items behind the head. -/
def items : Head → Nat
  | .str _ | .bin _ | .other _ => 0
  | .array count => count
  | .map count => 2 * count

end Head

/-- What a first byte announces: how many bytes of a number come next, and the head they make. -/
def form (first : UInt8) : Option (Nat × (Nat → Head)) :=
  if first < 0x80 ∨ 0xE0 ≤ first then some (0, .other)
  else if first < 0x90 then some (0, fun _ => .map (first.toNat - 0x80))
  else if first < 0xA0 then some (0, fun _ => .array (first.toNat - 0x90))
  else if first < 0xC0 then some (0, fun _ => .str (first.toNat - 0xA0))
  else
    match first with
    | 0xC1 => none
    | 0xC4 => some (1, .bin)
    | 0xC5 => some (2, .bin)
    | 0xC6 => some (4, .bin)
    -- An extension holds its type beside its bytes.
    | 0xC7 => some (1, fun n => .other (n + 1))
    | 0xC8 => some (2, fun n => .other (n + 1))
    | 0xC9 => some (4, fun n => .other (n + 1))
    | 0xCC | 0xD0 => some (0, fun _ => .other 1)
    | 0xCD | 0xD1 | 0xD4 => some (0, fun _ => .other 2)
    | 0xD5 => some (0, fun _ => .other 3)
    | 0xCA | 0xCE | 0xD2 => some (0, fun _ => .other 4)
    | 0xD6 => some (0, fun _ => .other 5)
    | 0xCB | 0xCF | 0xD3 => some (0, fun _ => .other 8)
    | 0xD7 => some (0, fun _ => .other 9)
    | 0xD8 => some (0, fun _ => .other 17)
    | 0xD9 => some (1, .str)
    | 0xDA => some (2, .str)
    | 0xDB => some (4, .str)
    | 0xDC => some (2, .array)
    | 0xDD => some (4, .array)
    | 0xDE => some (2, .map)
    | 0xDF => some (4, .map)
    | _ => some (0, .other)

/-- Takes a head off the front. -/
def readHead : List UInt8 → Option (Head × List UInt8)
  | [] => none
  | first :: bytes =>
    match form first with
    | none => none
    | some (k, head) => (readBe k bytes).map fun (n, rest) => (head n, rest)

theorem readHead_length {head : Head} {bytes rest : List UInt8}
    (h : readHead bytes = some (head, rest)) : rest.length < bytes.length := by
  cases bytes with
  | nil => cases h
  | cons first bytes =>
    rw [readHead] at h
    split at h
    · cases h
    · obtain ⟨⟨n, after⟩, hread, heq⟩ := Option.map_eq_some_iff.mp h
      obtain ⟨-, rfl⟩ := Prod.mk.inj heq
      exact Nat.lt_succ_of_le (readBe_length hread)

theorem readHead_form {first : UInt8} {k n : Nat} {head : Nat → Head}
    (hform : form first = some (k, head)) (hn : n < 256 ^ k) (rest : List UInt8) :
    readHead (first :: be k n ++ rest) = some (head n, rest) := by
  rw [List.cons_append, readHead, hform]
  simp only [readBe_be, Option.map_some, Nat.mod_eq_of_lt hn]

def strHead (n : Nat) : List UInt8 :=
  if n < 32 then [(0xA0 + n).toUInt8]
  else if n < 2 ^ 8 then 0xD9 :: be 1 n
  else if n < 2 ^ 16 then 0xDA :: be 2 n
  else 0xDB :: be 4 n

def binHead (n : Nat) : List UInt8 :=
  if n < 2 ^ 8 then 0xC4 :: be 1 n
  else if n < 2 ^ 16 then 0xC5 :: be 2 n
  else 0xC6 :: be 4 n

def arrayHead (n : Nat) : List UInt8 :=
  if n < 16 then [(0x90 + n).toUInt8]
  else if n < 2 ^ 16 then 0xDC :: be 2 n
  else 0xDD :: be 4 n

def mapHead (n : Nat) : List UInt8 :=
  if n < 16 then [(0x80 + n).toUInt8]
  else if n < 2 ^ 16 then 0xDE :: be 2 n
  else 0xDF :: be 4 n

theorem toNat_toUInt8 {n : Nat} (h : n < 256) : n.toUInt8.toNat = n := by
  rw [Nat.toUInt8, UInt8.toNat_ofNat', Nat.mod_eq_of_lt h]

theorem readHead_str {n : Nat} (h : n < 2 ^ 32) (rest : List UInt8) :
    readHead (strHead n ++ rest) = some (.str n, rest) := by
  unfold strHead
  split_ifs with hfix hone htwo
  · have hbyte := toNat_toUInt8 (n := 0xA0 + n) (by omega)
    have hform : form (0xA0 + n).toUInt8 = some (0, fun _ => .str n) := by
      simp only [form, UInt8.lt_iff_toNat_lt, UInt8.le_iff_toNat_le, hbyte, UInt8.reduceToNat]
      rw [if_neg (by omega), if_neg (by omega), if_neg (by omega), if_pos (by omega)]
      simp
    exact readHead_form (n := 0) hform (by decide) rest
  · exact readHead_form (by rfl) hone rest
  · exact readHead_form (by rfl) htwo rest
  · exact readHead_form (by rfl) h rest

theorem readHead_bin {n : Nat} (h : n < 2 ^ 32) (rest : List UInt8) :
    readHead (binHead n ++ rest) = some (.bin n, rest) := by
  unfold binHead
  split_ifs with hone htwo
  · exact readHead_form (by rfl) hone rest
  · exact readHead_form (by rfl) htwo rest
  · exact readHead_form (by rfl) h rest

theorem readHead_array {n : Nat} (h : n < 2 ^ 32) (rest : List UInt8) :
    readHead (arrayHead n ++ rest) = some (.array n, rest) := by
  unfold arrayHead
  split_ifs with hfix htwo
  · have hbyte := toNat_toUInt8 (n := 0x90 + n) (by omega)
    have hform : form (0x90 + n).toUInt8 = some (0, fun _ => .array n) := by
      simp only [form, UInt8.lt_iff_toNat_lt, UInt8.le_iff_toNat_le, hbyte, UInt8.reduceToNat]
      rw [if_neg (by omega), if_neg (by omega), if_pos (by omega)]
      simp
    exact readHead_form (n := 0) hform (by decide) rest
  · exact readHead_form (by rfl) htwo rest
  · exact readHead_form (by rfl) h rest

theorem readHead_map {n : Nat} (h : n < 2 ^ 32) (rest : List UInt8) :
    readHead (mapHead n ++ rest) = some (.map n, rest) := by
  unfold mapHead
  split_ifs with hfix htwo
  · have hbyte := toNat_toUInt8 (n := 0x80 + n) (by omega)
    have hform : form (0x80 + n).toUInt8 = some (0, fun _ => .map n) := by
      simp only [form, UInt8.lt_iff_toNat_lt, UInt8.le_iff_toNat_le, hbyte, UInt8.reduceToNat]
      rw [if_neg (by omega), if_pos (by omega)]
      simp
    exact readHead_form (n := 0) hform (by decide) rest
  · exact readHead_form (by rfl) htwo rest
  · exact readHead_form (by rfl) h rest

/-- What is left behind so many items. -/
def skip (n : Nat) (bytes : List UInt8) : Option (List UInt8) :=
  match n with
  | 0 => some bytes
  | n + 1 =>
    match _h : readHead bytes with
    | none => none
    | some (head, rest) =>
      if head.bytes ≤ rest.length then skip (head.items + n) (rest.drop head.bytes) else none
termination_by bytes.length
decreasing_by
  have hlt := readHead_length _h
  rw [List.length_drop]
  omega

theorem skip_zero (bytes : List UInt8) : skip 0 bytes = some bytes := by
  rw [skip]

theorem skip_head {n : Nat} {head : Head} {bytes content rest : List UInt8}
    (h : readHead bytes = some (head, content ++ rest)) (hcontent : content.length = head.bytes) :
    skip (n + 1) bytes = skip (head.items + n) rest := by
  rw [skip]
  split
  · rename_i hnone
    cases hnone.symm.trans h
  · rename_i head' rest' hsome
    obtain ⟨rfl, rfl⟩ := Prod.mk.inj (Option.some.inj (hsome.symm.trans h))
    rw [← hcontent, if_pos (by simp), List.drop_left]

/-- The bytes are those of one item. -/
def IsItem (bytes : List UInt8) : Prop :=
  ∀ n rest, skip (n + 1) (bytes ++ rest) = skip n rest

/-- There is a byte at the front of what is an item. -/
theorem IsItem.ne_nil {item : List UInt8} (h : IsItem item) : item ≠ [] := by
  rintro rfl
  have hone := h 0 []
  rw [List.append_nil, skip_zero, skip] at hone
  cases hone

theorem skip_items {items : List (List UInt8)} (h : ∀ item ∈ items, IsItem item) (n : Nat)
    (rest : List UInt8) : skip (items.length + n) (items.flatten ++ rest) = skip n rest := by
  induction items with
  | nil => simp
  | cons item items ih =>
    have hitem := h item List.mem_cons_self
    have hitems := ih fun other hmem => h other (List.mem_cons_of_mem _ hmem)
    rw [List.length_cons, List.flatten_cons, List.append_assoc, Nat.add_right_comm, hitem, hitems]

/-- So many items off the front, each as its bytes. -/
def items : Nat → List UInt8 → Option (List (List UInt8) × List UInt8)
  | 0, bytes => some ([], bytes)
  | n + 1, bytes =>
    match skip 1 bytes with
    | none => none
    | some rest =>
      (items n rest).map fun (found, after) =>
        (bytes.take (bytes.length - rest.length) :: found, after)

theorem items_flatten {found : List (List UInt8)} (h : ∀ item ∈ found, IsItem item)
    (rest : List UInt8) : items found.length (found.flatten ++ rest) = some (found, rest) := by
  induction found with
  | nil => rfl
  | cons item found ih =>
    have hitem := h item List.mem_cons_self 0 (found.flatten ++ rest)
    have hitems := ih fun other hmem => h other (List.mem_cons_of_mem _ hmem)
    rw [skip_zero] at hitem
    rw [List.length_cons, List.flatten_cons, List.append_assoc, items, hitem]
    simp only [hitems, Option.map_some]
    simp

/-! What is written, and what it is read as; a reader leaves what follows the item alone -/

def writeStr (bytes : List UInt8) : List UInt8 := strHead bytes.length ++ bytes

def writeBin (bytes : List UInt8) : List UInt8 := binHead bytes.length ++ bytes

/-- An array of items. -/
def writeArray (found : List (List UInt8)) : List UInt8 := arrayHead found.length ++ found.flatten

/-- A map of items. -/
def writeMap (members : List (List UInt8 × List UInt8)) : List UInt8 :=
  mapHead members.length ++ members.flatMap fun member => member.1 ++ member.2

def readStr (bytes : List UInt8) : Option (List UInt8) :=
  match readHead bytes with
  | some (.str n, rest) => if n ≤ rest.length then some (rest.take n) else none
  | _ => none

def readBin (bytes : List UInt8) : Option (List UInt8) :=
  match readHead bytes with
  | some (.bin n, rest) => if n ≤ rest.length then some (rest.take n) else none
  | _ => none

/-- A list two by two. -/
def pairs {α : Type} : List α → List (α × α)
  | a :: b :: rest => (a, b) :: pairs rest
  | _ => []

def readArray (bytes : List UInt8) : Option (List (List UInt8)) :=
  match readHead bytes with
  | some (.array n, rest) => (items n rest).map Prod.fst
  | _ => none

def readMap (bytes : List UInt8) : Option (List (List UInt8 × List UInt8)) :=
  match readHead bytes with
  | some (.map n, rest) => (items (2 * n) rest).map fun (found, _) => pairs found
  | _ => none

/-- A number that is written as one without a sign. -/
def readUnsigned : List UInt8 → Option Nat
  | 0xCC :: bytes => (readBe 1 bytes).map Prod.fst
  | 0xCD :: bytes => (readBe 2 bytes).map Prod.fst
  | 0xCE :: bytes => (readBe 4 bytes).map Prod.fst
  | 0xCF :: bytes => (readBe 8 bytes).map Prod.fst
  | first :: _ => if first < 0x80 then some first.toNat else none
  | [] => none

/-- A number of so many bytes that is written with a sign, unless it is below zero. -/
def readPositive (k : Nat) (bytes : List UInt8) : Option Nat :=
  match readBe k bytes with
  | some (n, _) => if 2 * n < 256 ^ k then some n else none
  | none => none

/-- A number that is not below zero, however it is written. -/
def readNatural : List UInt8 → Option Nat
  | 0xD0 :: bytes => readPositive 1 bytes
  | 0xD1 :: bytes => readPositive 2 bytes
  | 0xD2 :: bytes => readPositive 4 bytes
  | 0xD3 :: bytes => readPositive 8 bytes
  | bytes => readUnsigned bytes

theorem readStr_writeStr {bytes : List UInt8} (h : bytes.length < 2 ^ 32) :
    readStr (writeStr bytes) = some bytes := by
  simp only [readStr, writeStr, readHead_str h, Nat.le_refl, if_true, List.take_length]

theorem readBin_writeBin {bytes : List UInt8} (h : bytes.length < 2 ^ 32) :
    readBin (writeBin bytes) = some bytes := by
  simp only [readBin, writeBin, readHead_bin h, Nat.le_refl, if_true, List.take_length]

/-- Bytes behind a head that holds as many, and no items, are one item with it. -/
theorem isItem_of_head {head : Head} {front content : List UInt8}
    (hread : ∀ rest, readHead (front ++ rest) = some (head, rest))
    (hcontent : content.length = head.bytes) (hitems : head.items = 0) :
    IsItem (front ++ content) := by
  intro n rest
  have hfront := hread (content ++ rest)
  rw [← List.append_assoc] at hfront
  rw [skip_head hfront hcontent, hitems, Nat.zero_add]

theorem isItem_writeStr {bytes : List UInt8} (h : bytes.length < 2 ^ 32) :
    IsItem (writeStr bytes) :=
  isItem_of_head (readHead_str h) rfl rfl

theorem isItem_writeBin {bytes : List UInt8} (h : bytes.length < 2 ^ 32) :
    IsItem (writeBin bytes) :=
  isItem_of_head (readHead_bin h) rfl rfl

section Arrays

variable {found : List (List UInt8)}

theorem readArray_writeArray (h : ∀ item ∈ found, IsItem item) (hlen : found.length < 2 ^ 32) :
    readArray (writeArray found) = some found := by
  have hitems := items_flatten h []
  rw [List.append_nil] at hitems
  simp only [readArray, writeArray, readHead_array hlen, hitems, Option.map_some]

theorem length_item {item : List UInt8} (h : item ∈ found) :
    item.length ≤ (writeArray found).length := by
  rw [writeArray, List.length_append]
  exact Nat.le_add_left_of_le (List.sublist_flatten_of_mem h).length_le

/-- An array is no shorter than the items it is written of are many. -/
theorem length_items (h : ∀ item ∈ found, item ≠ []) :
    found.length ≤ (writeArray found).length := by
  have hall : (found.map List.length).length ≤ (found.map List.length).sum := by
    apply List.length_le_sum_of_one_le _
    intro n hn
    obtain ⟨item, hitem, rfl⟩ := List.mem_map.mp hn
    exact List.length_pos_of_ne_nil (h item hitem)
  rw [List.length_map] at hall
  rw [writeArray, List.length_append, List.length_flatten]
  exact Nat.le_add_left_of_le hall

end Arrays

section Maps

variable {members : List (List UInt8 × List UInt8)}

/-- The items of a map, keys and values in turn. -/
def inTurn (members : List (List UInt8 × List UInt8)) : List (List UInt8) :=
  members.flatMap fun member => [member.1, member.2]

theorem length_inTurn : (inTurn members).length = 2 * members.length := by
  induction members with
  | nil => rfl
  | cons member members ih =>
    rw [inTurn, List.flatMap_cons, List.length_append, ← inTurn, ih, List.length_cons]
    simp only [List.length_cons, List.length_nil]
    omega

theorem flatten_inTurn :
    (inTurn members).flatten = members.flatMap fun member => member.1 ++ member.2 := by
  induction members with
  | nil => rfl
  | cons member members ih =>
    rw [inTurn, List.flatMap_cons, List.flatten_append, ← inTurn, ih, List.flatMap_cons]
    simp

theorem pairs_inTurn : pairs (inTurn members) = members := by
  induction members with
  | nil => rfl
  | cons member members ih =>
    rw [inTurn, List.flatMap_cons, ← inTurn]
    simp [pairs, ih]

theorem isItem_inTurn (h : ∀ member ∈ members, IsItem member.1 ∧ IsItem member.2) :
    ∀ item ∈ inTurn members, IsItem item := by
  intro item hitem
  obtain ⟨member, hmem, hitem⟩ := List.mem_flatMap.mp hitem
  rcases List.mem_cons.mp hitem with rfl | hitem
  · exact (h member hmem).1
  · obtain rfl := List.mem_singleton.mp hitem
    exact (h member hmem).2

theorem isItem_writeMap (h : ∀ member ∈ members, IsItem member.1 ∧ IsItem member.2)
    (hlen : members.length < 2 ^ 32) : IsItem (writeMap members) := by
  intro n rest
  have hread := readHead_map hlen ([] ++ ((inTurn members).flatten ++ rest))
  have hhead := skip_head (n := n) hread rfl
  have hskip := skip_items (isItem_inTurn h) n rest
  rw [length_inTurn] at hskip
  rw [writeMap, List.append_assoc, ← flatten_inTurn]
  exact hhead.trans hskip

theorem readMap_writeMap (h : ∀ member ∈ members, IsItem member.1 ∧ IsItem member.2)
    (hlen : members.length < 2 ^ 32) : readMap (writeMap members) = some members := by
  have hitems := items_flatten (isItem_inTurn h) []
  rw [length_inTurn, flatten_inTurn, List.append_nil] at hitems
  simp only [readMap, writeMap, readHead_map hlen, hitems, Option.map_some, pairs_inTurn]

/-- A map is no shorter than what it is written of. -/
theorem length_members (h : ∀ member ∈ members, member.1 ≠ []) :
    members.length ≤ (writeMap members).length := by
  have hall : members.length ≤ (members.flatMap fun member => member.1 ++ member.2).length := by
    induction members with
    | nil => exact Nat.le_refl _
    | cons member members ih =>
      have hpos := List.length_pos_of_ne_nil (h member List.mem_cons_self)
      have hrest := ih fun other hmem => h other (List.mem_cons_of_mem _ hmem)
      rw [List.flatMap_cons, List.length_append, List.length_append, List.length_cons]
      omega
  rw [writeMap, List.length_append]
  omega

theorem length_member {member : List UInt8 × List UInt8} (h : member ∈ members) :
    member.1.length + member.2.length ≤ (writeMap members).length := by
  have hsub : (member.1 ++ member.2).Sublist
      (members.flatMap fun member => member.1 ++ member.2) := by
    rw [List.flatMap_def]
    exact List.sublist_flatten_of_mem (List.mem_map_of_mem h)
  have hlen := hsub.length_le
  rw [List.length_append] at hlen
  rw [writeMap, List.length_append]
  omega

end Maps

theorem length_writeStr (bytes : List UInt8) : bytes.length ≤ (writeStr bytes).length := by
  rw [writeStr, List.length_append]
  exact Nat.le_add_left _ _

theorem length_writeBin (bytes : List UInt8) : bytes.length ≤ (writeBin bytes).length := by
  rw [writeBin, List.length_append]
  exact Nat.le_add_left _ _

end Msgpack
