import Mathlib.Data.Nat.Bitwise
import Mathlib.Data.String.Basic

/-!
# Text and its bytes

The functions of Rust's standard library that the crate reads text with.
-/

namespace RuststreamKinesis

set_option autoImplicit false

/-- `str::as_bytes`. -/
def asBytes (s : String) : List UInt8 := s.toByteArray.data.toList

/-- `str::from_utf8`. -/
def fromUtf8 (bytes : List UInt8) : Option String := String.fromUTF8? ⟨bytes.toArray⟩

@[simp] theorem fromUtf8_asBytes (s : String) : fromUtf8 (asBytes s) = some s := by
  simp only [fromUtf8, asBytes, Array.toArray_toList, String.fromUTF8?]
  exact dif_pos s.isValidUTF8

theorem asBytes_of_fromUtf8 {bytes : List UInt8} {s : String} (h : fromUtf8 bytes = some s) :
    asBytes s = bytes := by
  simp only [fromUtf8, String.fromUTF8?] at h
  split at h
  · obtain rfl := Option.some.inj h
    rfl
  · cases h

theorem isUTF8FirstByte_of_lt {b : UInt8} (h : b < 0x80) : b.IsUTF8FirstByte := by
  left
  apply UInt8.toNat_inj.mp
  have hb : b.toNat.testBit 7 = false := Nat.testBit_lt_two_pow h
  rw [UInt8.toNat_and]
  exact (Nat.and_two_pow b.toNat 7).trans (by rw [hb]; rfl)

theorem isValid_of_clear {s : String} {front back : List UInt8} (h : asBytes s = front ++ back)
    (hback : ∀ b ∈ back.head?, b < 0x80) : String.Pos.Raw.IsValid s ⟨front.length⟩ := by
  have hsize : s.utf8ByteSize = front.length + back.length := by
    have := congrArg List.length h
    simpa [asBytes] using this
  rw [String.Pos.Raw.isValid_iff_isUTF8FirstByte]
  cases back with
  | nil =>
    left
    apply String.Pos.Raw.ext
    simp_all
  | cons b back =>
    right
    have hlt : (⟨front.length⟩ : String.Pos.Raw) < s.rawEndPos := by
      simp [String.Pos.Raw.lt_iff, hsize]
    refine ⟨hlt, ?_⟩
    have hbyte : s.getUTF8Byte ⟨front.length⟩ hlt = b := by
      have hget : (asBytes s)[front.length]? = some b := by simp [h]
      obtain ⟨_, hget⟩ := List.getElem?_eq_some_iff.mp hget
      exact hget
    rw [hbyte]
    exact isUTF8FirstByte_of_lt (hback b rfl)

theorem fromUtf8_eq_some_iff {bytes : List UInt8} {s : String} :
    fromUtf8 bytes = some s ↔ asBytes s = bytes :=
  ⟨asBytes_of_fromUtf8, fun h => h ▸ fromUtf8_asBytes s⟩

/-- A part of a text is text where a short character, or nothing, stands behind each of its
ends. -/
theorem fromUtf8_part {s : String} {front part back : List UInt8}
    (h : asBytes s = front ++ (part ++ back)) (hpart : ∀ b ∈ part.head?, b < 0x80)
    (hne : part ≠ []) (hback : ∀ b ∈ back.head?, b < 0x80) : ∃ t, fromUtf8 part = some t := by
  have hfirst : ∀ b ∈ (part ++ back).head?, b < 0x80 := by
    cases part with
    | nil => exact absurd rfl hne
    | cons b part => exact hpart
  have hstart := isValid_of_clear h hfirst
  rw [← List.append_assoc] at h
  have hstop := isValid_of_clear h hback
  have hvalid := (String.Pos.Raw.isValidUTF8_extract_iff ⟨front.length⟩ ⟨(front ++ part).length⟩
    (by simp [String.Pos.Raw.le_iff]) hstop.le_rawEndPos).mpr (Or.inr ⟨hstart, hstop⟩)
  have hextract : s.toByteArray.extract front.length (front ++ part).length = ⟨part.toArray⟩ := by
    apply ByteArray.ext
    apply Array.toList_inj.mp
    rw [ByteArray.data_extract, Array.toList_extract, List.extract_eq_take_drop]
    change ((asBytes s).drop _).take _ = part
    rw [h, List.append_assoc, List.drop_left]
    simp
  rw [hextract] at hvalid
  exact ⟨_, dif_pos hvalid⟩

theorem utf8EncodeChar_low : ∀ n : Fin 128,
    String.utf8EncodeChar (Char.ofNat n.1) = [UInt8.ofNat n.1] := by decide

/-- Bytes below 0x80 are text. -/
theorem text_of_low {bytes : List UInt8} (h : ∀ b ∈ bytes, b < 0x80) :
    ∃ s, asBytes s = bytes := by
  induction bytes with
  | nil => exact ⟨"", rfl⟩
  | cons b bytes ih =>
    obtain ⟨s, hs⟩ := ih fun c hc => h c (List.mem_cons_of_mem _ hc)
    have hb : b.toNat < 128 := h b List.mem_cons_self
    refine ⟨String.singleton (Char.ofNat b.toNat) ++ s, ?_⟩
    have hlow := utf8EncodeChar_low ⟨b.toNat, hb⟩
    simp only [UInt8.ofNat_toNat] at hlow
    have hsingle : asBytes (String.singleton (Char.ofNat b.toNat)) = [b] := by
      rw [asBytes, String.toByteArray_singleton, List.utf8Encode_singleton, hlow]
      simp
    have happend : asBytes (String.singleton (Char.ofNat b.toNat) ++ s) =
        asBytes (String.singleton (Char.ofNat b.toNat)) ++ asBytes s := by
      simp [asBytes]
    rw [happend, hsingle, hs]
    rfl

/-- `U+FFFD`. -/
def replacementCharacter : Char := Char.ofNat 0xFFFD

def continues (b : UInt8) : Bool := 0x80 ≤ b && b ≤ 0xBF

/-- Whether a byte may stand second in a sequence of three that begins with `first`. -/
def second3 (first b : UInt8) : Bool :=
  if first = 0xE0 then 0xA0 ≤ b && b ≤ 0xBF
  else if first = 0xED then 0x80 ≤ b && b ≤ 0x9F
  else continues b

/-- Whether a byte may stand second in a sequence of four that begins with `first`. -/
def second4 (first b : UInt8) : Bool :=
  if first = 0xF0 then 0x90 ≤ b && b ≤ 0xBF
  else if first = 0xF4 then 0x80 ≤ b && b ≤ 0x8F
  else continues b

/-- How many bytes at the front of a broken text one replacement character stands for. -/
def brokenLength : List UInt8 → Nat
  | first :: b :: rest =>
    if 0xE0 ≤ first ∧ first ≤ 0xEF then if second3 first b then 2 else 1
    else if 0xF0 ≤ first ∧ first ≤ 0xF4 then
      if second4 first b then if (rest.head?).any continues then 3 else 2 else 1
    else 1
  | _ => 1

theorem brokenLength_pos (bytes : List UInt8) : 0 < brokenLength bytes := by
  unfold brokenLength
  split
  · split_ifs <;> omega
  · omega

/-- `String::from_utf8_lossy`. -/
def fromUtf8Lossy (bytes : List UInt8) : List Char :=
  if bytes = [] then []
  else
    match ByteArray.utf8DecodeChar? ⟨bytes.toArray⟩ 0 with
    | some c => c :: fromUtf8Lossy (bytes.drop c.utf8Size)
    | none => replacementCharacter :: fromUtf8Lossy (bytes.drop (brokenLength bytes))
termination_by bytes.length
decreasing_by
  · have hpos := List.length_pos_of_ne_nil ‹_›
    have := c.utf8Size_pos
    rw [List.length_drop]
    omega
  · have hpos := List.length_pos_of_ne_nil ‹_›
    have := brokenLength_pos bytes
    rw [List.length_drop]
    omega

/-- `char::is_whitespace`. -/
def isWhitespace (c : Char) : Bool :=
  (9 ≤ c.toNat && c.toNat ≤ 13) || (0x2000 ≤ c.toNat && c.toNat ≤ 0x200A) ||
    [0x20, 0x85, 0xA0, 0x1680, 0x2028, 0x2029, 0x202F, 0x205F, 0x3000].contains c.toNat

/-- `str::trim`. -/
def trim (s : List Char) : List Char :=
  ((s.dropWhile isWhitespace).reverse.dropWhile isWhitespace).reverse

def dropReturn (line : List Char) : List Char :=
  if line.getLast? = some '\r' then line.dropLast else line

/-- `str::lines`: a line ends in a line feed, with the carriage return before it, or at the end. -/
def lines (s : List Char) : List (List Char) :=
  match _h : s.dropWhile (· != '\n') with
  | [] => if s = [] then [] else [s]
  | _ :: rest => dropReturn (s.takeWhile (· != '\n')) :: lines rest
termination_by s.length
decreasing_by
  have hle := (List.dropWhile_sublist (l := s) (· != '\n')).length_le
  rw [_h, List.length_cons] at hle
  omega

/-- `str::split_once`. -/
def splitOnce (separator : Char) (s : List Char) : Option (List Char × List Char) :=
  match s.dropWhile (· != separator) with
  | [] => none
  | _ :: after => some (s.takeWhile (· != separator), after)

end RuststreamKinesis
