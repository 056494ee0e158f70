import RuststreamKinesis.Lib.Json
import Mathlib.Data.String.Basic

/-!
# Writing JSON without blanks

A text is written byte by byte: the bytes that may stand between quotes as they are, the others
escaped. What was written is read back.
-/

namespace Json

set_option autoImplicit false

def blank : Blank := ⟨[], nofun⟩

/-- The short escape of a byte that has one. -/
def shortEscape (b : UInt8) : Option {b : UInt8 // isEscape b = true} :=
  if b = quote then some ⟨quote, rfl⟩
  else if b = backslash then some ⟨backslash, rfl⟩
  else if b = 0x08 then some ⟨0x62, rfl⟩
  else if b = 0x09 then some ⟨0x74, rfl⟩
  else if b = 0x0A then some ⟨0x6E, rfl⟩
  else if b = 0x0C then some ⟨0x66, rfl⟩
  else if b = 0x0D then some ⟨0x72, rfl⟩
  else none

theorem isHex_digit : ∀ n : Fin 16,
    isHex (if n.1 < 10 then (n.1 + 0x30).toUInt8 else (n.1 + 0x57).toUInt8) = true := by decide

def hexDigit (n : Fin 16) : {b : UInt8 // isHex b = true} :=
  ⟨if n.1 < 10 then (n.1 + 0x30).toUInt8 else (n.1 + 0x57).toUInt8, isHex_digit n⟩

def writeByte (b : UInt8) : Piece :=
  if h : isPlain b = true then .plain ⟨b, h⟩
  else
    match shortEscape b with
    | some e => .escape e
    | none => .unicode (hexDigit 0) (hexDigit 0) (hexDigit (Fin.ofNat 16 (b.toNat / 16)))
        (hexDigit (Fin.ofNat 16 b.toNat))

def writeBytes (bytes : List UInt8) : Str := bytes.map writeByte

def writeText (s : String) : Str := writeBytes s.toByteArray.data.toList

/-- The bytes that a piece stands for on its own. -/
def Piece.alone : Piece → Option (List UInt8)
  | .plain b => some [b.1]
  | .escape b => some [unescape b.1]
  | .unicode a b c d =>
    let n := codeUnit a.1 b.1 c.1 d.1
    if isLead n = true ∨ isTrail n = true then none
    else some (String.utf8EncodeChar (Char.ofNat n))

theorem unescaped_cons {piece : Piece} {c : List UInt8} (h : piece.alone = some c) (ps : Str) :
    unescaped (piece :: ps) = (unescaped ps).map (c ++ ·) := by
  cases piece with
  | plain b =>
    obtain rfl := Option.some.inj h
    rfl
  | escape b =>
    obtain rfl := Option.some.inj h
    rfl
  | unicode w x y z =>
    simp only [Piece.alone] at h
    split_ifs at h with hpair
    obtain rfl := Option.some.inj h
    obtain ⟨hlead, htrail⟩ := not_or.mp hpair
    rw [unescaped.eq_def]
    simp only [hlead, htrail]
    rfl

theorem alone_control : ∀ n : Fin 32,
    (writeByte (UInt8.ofNat n.1)).alone = some [UInt8.ofNat n.1] := by decide

theorem alone_writeByte (b : UInt8) : (writeByte b).alone = some [b] := by
  by_cases hplain : isPlain b = true
  · simp [writeByte, hplain, Piece.alone]
  · by_cases hquote : b = quote
    · subst hquote
      rfl
    by_cases hslash : b = backslash
    · subst hslash
      rfl
    have hlow : b.toNat < 32 := by
      simp only [isPlain, Bool.and_eq_true, bne_iff_ne, decide_eq_true_eq, not_and, not_not]
        at hplain
      by_contra hhigh
      have hle : 0x20 ≤ b := UInt8.le_iff_toNat_le.mpr (by simpa using hhigh)
      exact hslash (hplain ⟨hle, hquote⟩)
    have hall := alone_control ⟨b.toNat, hlow⟩
    rwa [UInt8.ofNat_toNat] at hall

theorem unescaped_writeBytes (bytes : List UInt8) :
    unescaped (writeBytes bytes) = some bytes := by
  induction bytes with
  | nil => rfl
  | cons b bytes ih =>
    have hcons : writeBytes (b :: bytes) = writeByte b :: writeBytes bytes := rfl
    rw [hcons, unescaped_cons (alone_writeByte b), ih]
    rfl

theorem decode_writeBytes (bytes : List UInt8) :
    decode (writeBytes bytes) = String.fromUTF8? ⟨bytes.toArray⟩ := by
  rw [decode, unescaped_writeBytes, Option.bind_some]

theorem decode_writeText (s : String) : decode (writeText s) = some s := by
  rw [writeText, decode_writeBytes, Array.toArray_toList, String.fromUTF8?]
  exact dif_pos s.isValidUTF8

/-! Objects -/

def label (name : String) : Label := ⟨writeText name, blank, blank⟩

def Entries.compact : String × Value → List (String × Value) → Entries .object
  | (name, value), [] => .last blank (label name) value blank
  | (name, value), member :: members =>
    .more blank (label name) value blank (Entries.compact member members)

/-- The object of the members, without blanks. -/
def Value.compact : List (String × Value) → Value
  | [] => .empty .object blank
  | member :: members => .series .object (Entries.compact member members)

/-- A document that is nothing but its value. -/
def Value.alone (value : Value) : Document := ⟨blank, value, blank⟩

@[simp] theorem Value.alone_text (value : Value) : value.alone.text = value.text := by
  simp [Value.alone, Document.text, blank]

theorem Entries.compact_places (member : String × Value) (members : List (String × Value))
    (start : Nat) : ((Entries.compact member members).places start).map
      (fun (entry : Key .object × Place) => (Label.name entry.1, entry.2.value)) =
        (member :: members).map fun (name, value) => (writeText name, value) := by
  induction members generalizing member start with
  | nil => rfl
  | cons next members ih =>
    simp only [Entries.compact, Entries.places, List.map_cons]
    rw [ih]
    rfl

theorem mapM_decode {places : List (Str × Place)} {members : List (String × Value)}
    (h : places.map (fun (name, place) => (name, place.value)) =
      members.map fun (name, value) => (writeText name, value)) :
    ∃ found, (places.mapM fun (name, place) => (decode name).map fun name => (name, place)) =
        some found ∧ found.map (fun (name, place) => (name, place.value)) = members := by
  induction places generalizing members with
  | nil =>
    cases members with
    | nil => exact ⟨[], rfl, rfl⟩
    | cons member members => cases h
  | cons entry places ih =>
    cases members with
    | nil => cases h
    | cons member members =>
      obtain ⟨hhead, htail⟩ := List.cons.inj h
      obtain ⟨hname, hvalue⟩ := Prod.mk.inj hhead
      obtain ⟨found, hfound, hmembers⟩ := ih htail
      have hdecode : decode entry.1 = some member.1 := by
        rw [hname]
        exact decode_writeText member.1
      refine ⟨(member.1, entry.2) :: found, ?_, ?_⟩
      · rw [List.mapM_cons, hfound]
        simp [hdecode]
      · have hmember : (member.1, entry.2.value) = member := by rw [hvalue]
        rw [List.map_cons, hmembers]
        exact congrArg (· :: members) hmember

/-- The members of an object that was written are read under their names. -/
theorem Value.compact_named (members : List (String × Value)) (start : Nat) :
    ∃ found, (Place.mk start (Value.compact members)).named = some found ∧
      found.map (fun (name, place) => (name, place.value)) = members := by
  cases members with
  | nil => exact ⟨[], rfl, rfl⟩
  | cons member members =>
    have hplaces := Entries.compact_places member members (start + 1)
    have hmap : (((Entries.compact member members).places (start + 1)).map
        fun (entry : Key .object × Place) => (Label.name entry.1, entry.2)).map
          (fun (name, place) => (name, place.value)) =
        (member :: members).map fun (name, value) => (writeText name, value) := by
      rw [List.map_map]
      exact hplaces
    exact mapM_decode hmap

end Json
