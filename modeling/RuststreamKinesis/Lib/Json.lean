import Mathlib.Data.List.TakeWhile
import Mathlib.Data.List.Basic
import Mathlib.Data.FinEnum
import Mathlib.Tactic.Common

/-!
# JSON texts

A document is kept as it is written: its blanks, the spelling of its numbers and the escapes of
its strings. Each text is the text of one document at most, and `parse` finds it. What a string
stands for is a separate question: bytes that are no UTF-8 and lone surrogates can be written
between quotes and name no text.
-/

namespace Json

set_option autoImplicit false

/-! Runs of bytes -/

/-- A run of bytes of one class. -/
def Span (p : UInt8 → Bool) : Type := {s : List UInt8 // ∀ b ∈ s, p b = true}

/-- The longest run in front. -/
def span (p : UInt8 → Bool) (s : List UInt8) : Span p × List UInt8 :=
  (⟨s.takeWhile p, fun _ => List.mem_takeWhile_imp⟩, s.dropWhile p)

/-- No run of the class goes on into `s`. -/
def Clear (p : UInt8 → Bool) (s : List UInt8) : Prop := ∀ b ∈ s.head?, p b = false

variable {p : UInt8 → Bool} {s rest : List UInt8} {b : UInt8}

theorem Clear.nil : Clear p [] := by simp [Clear]

theorem clear_cons : Clear p (b :: s) ↔ p b = false := by simp [Clear]

theorem span_text (p : UInt8 → Bool) (s : List UInt8) : (span p s).1.1 ++ (span p s).2 = s :=
  List.takeWhile_append_dropWhile

theorem span_append (run : Span p) (h : Clear p rest) : span p (run.1 ++ rest) = (run, rest) := by
  obtain ⟨s, hs⟩ := run
  have hnone : rest.takeWhile p = [] ∧ rest.dropWhile p = rest := by
    cases rest with
    | nil => exact ⟨rfl, rfl⟩
    | cons b rest =>
      have hb : p b = false := clear_cons.mp h
      constructor
      · rw [List.takeWhile_cons_of_neg (by simp [hb])]
      · rw [List.dropWhile_cons_of_neg (by simp [hb])]
  refine Prod.ext (Subtype.ext ?_) ?_
  · exact (List.takeWhile_append_of_pos hs).trans (by rw [hnone.1, List.append_nil])
  · exact (List.dropWhile_append_of_pos hs).trans hnone.2

def isBlank (b : UInt8) : Bool := b == 0x20 || b == 0x0A || b == 0x0D || b == 0x09

def isDigit (b : UInt8) : Bool := 0x30 ≤ b && b ≤ 0x39

def isHex (b : UInt8) : Bool :=
  isDigit b || (0x41 ≤ b && b ≤ 0x46) || (0x61 ≤ b && b ≤ 0x66)

abbrev Blank := Span isBlank

/-! Numbers and words -/

/-- How much of a number has been read. -/
inductive NumberState where
  | start | minus | zero | whole | point | fraction | mark | markSign | exponent
deriving DecidableEq, Repr

namespace NumberState

def leading (b : UInt8) : Option NumberState :=
  if b = 0x30 then some .zero else if isDigit b then some .whole else none

def exponentMark (b : UInt8) : Option NumberState :=
  if b = 0x65 ∨ b = 0x45 then some .mark else none

def next (state : NumberState) (b : UInt8) : Option NumberState :=
  match state with
  | .start => if b = 0x2D then some .minus else leading b
  | .minus => leading b
  | .zero => if b = 0x2E then some .point else exponentMark b
  | .whole =>
    if isDigit b then some .whole else if b = 0x2E then some .point else exponentMark b
  | .point => if isDigit b then some .fraction else none
  | .fraction => if isDigit b then some .fraction else exponentMark b
  | .mark =>
    if b = 0x2B ∨ b = 0x2D then some .markSign else if isDigit b then some .exponent else none
  | .markSign => if isDigit b then some .exponent else none
  | .exponent => if isDigit b then some .exponent else none

/-- Whether a number may end here. -/
def final (state : NumberState) : Bool :=
  state == .zero || state == .whole || state == .fraction || state == .exponent

end NumberState

def isNumber (s : List UInt8) : Bool :=
  ((s.foldlM NumberState.next .start).map NumberState.final).getD false

def null : List UInt8 := [0x6E, 0x75, 0x6C, 0x6C]

/-- The words that are values: `null`, `true` and `false`. -/
def words : List (List UInt8) :=
  [null, [0x74, 0x72, 0x75, 0x65], [0x66, 0x61, 0x6C, 0x73, 0x65]]

def isScalar (s : List UInt8) : Bool := words.contains s || isNumber s

/-- The bytes that numbers and words are made of. -/
def isScalarByte (b : UInt8) : Bool :=
  isDigit b || (0x61 ≤ b && b ≤ 0x7A) || b == 0x2B || b == 0x2D || b == 0x2E || b == 0x45

theorem NumberState.next_eq_none (state : NumberState) (h : isScalarByte b = false) :
    state.next b = none := by
  have hdigit : isDigit b = false := by simp_all [isScalarByte]
  have hzero : b ≠ 0x30 := by
    rintro rfl
    cases hdigit
  have hmark : b ≠ 0x65 ∧ b ≠ 0x45 ∧ b ≠ 0x2B ∧ b ≠ 0x2D ∧ b ≠ 0x2E := by
    refine ⟨?_, ?_, ?_, ?_, ?_⟩ <;> rintro rfl <;> cases h
  obtain ⟨he, hE, hplus, hminus, hpoint⟩ := hmark
  cases state <;>
    simp [next, leading, exponentMark, hdigit, hzero, he, hE, hplus, hminus, hpoint]

theorem scalarByte_of_foldlM {state after : NumberState}
    (h : s.foldlM NumberState.next state = some after) : ∀ b ∈ s, isScalarByte b = true := by
  induction s generalizing state with
  | nil => simp
  | cons c s ih =>
    rw [List.foldlM_cons] at h
    obtain ⟨middle, hc, hs⟩ := Option.bind_eq_some_iff.mp h
    intro b hb
    rcases List.mem_cons.mp hb with rfl | hb
    · apply Bool.eq_true_of_not_eq_false
      intro hno
      cases hc.symm.trans (state.next_eq_none hno)
    · exact ih hs b hb

theorem scalarByte_of_isScalar (h : isScalar s = true) : ∀ b ∈ s, isScalarByte b = true := by
  rcases Bool.or_eq_true_iff.mp h with hword | hnumber
  · have hwords : ∀ word ∈ words, word.all isScalarByte = true := by decide
    exact List.all_eq_true.mp (hwords s (List.contains_iff_mem.mp hword))
  · simp only [isNumber] at hnumber
    cases hrun : s.foldlM NumberState.next .start with
    | none => simp [hrun] at hnumber
    | some after => exact scalarByte_of_foldlM hrun

theorem ne_nil_of_isScalar (h : isScalar s = true) : s ≠ [] := by
  rintro rfl
  cases h

/-- A number or a word. -/
abbrev Scalar := {s : List UInt8 // isScalar s = true}

def readScalar (s : List UInt8) : Option (Scalar × List UInt8) :=
  let (run, rest) := span isScalarByte s
  if h : isScalar run.1 = true then some (⟨run.1, h⟩, rest) else none

theorem readScalar_text {scalar : Scalar} (h : readScalar s = some (scalar, rest)) :
    s = scalar.1 ++ rest := by
  simp only [readScalar] at h
  split_ifs at h
  obtain ⟨rfl, rfl⟩ := Prod.mk.inj (Option.some.inj h)
  exact (span_text isScalarByte s).symm

theorem readScalar_append (scalar : Scalar) (h : Clear isScalarByte rest) :
    readScalar (scalar.1 ++ rest) = some (scalar, rest) := by
  have hspan := span_append ⟨scalar.1, scalarByte_of_isScalar scalar.2⟩ h
  simp only at hspan
  simp only [readScalar, hspan, scalar.2, dite_true]

/-! Strings -/

def quote : UInt8 := 0x22
def backslash : UInt8 := 0x5C

def isPlain (b : UInt8) : Bool := 0x20 ≤ b && b != quote && b != backslash

/-- The bytes that stand alone behind a backslash. -/
def isEscape (b : UInt8) : Bool :=
  [quote, backslash, 0x2F, 0x62, 0x66, 0x6E, 0x72, 0x74].contains b

/-- A piece of a string. -/
inductive Piece where
  | plain (b : {b : UInt8 // isPlain b = true})
  | escape (b : {b : UInt8 // isEscape b = true})
  | unicode (a b c d : {b : UInt8 // isHex b = true})

def Piece.text : Piece → List UInt8
  | .plain b => [b.1]
  | .escape b => [backslash, b.1]
  | .unicode a b c d => [backslash, 0x75, a.1, b.1, c.1, d.1]

/-- What stands between the quotes of a string. -/
abbrev Str := List Piece

/-- A string and its closing quote. -/
def closed (ps : Str) : List UInt8 := ps.flatMap Piece.text ++ [quote]

/-- The pieces up to the closing quote. -/
def readPieces : List UInt8 → Option (Str × List UInt8)
  | [] => none
  | b :: s =>
    if b = quote then some ([], s)
    else if b = backslash then
      match s with
      | [] => none
      | e :: s =>
        if e = 0x75 then
          match s with
          | h₁ :: h₂ :: h₃ :: h₄ :: s =>
            if h : isHex h₁ = true ∧ isHex h₂ = true ∧ isHex h₃ = true ∧ isHex h₄ = true then
              (readPieces s).map fun (ps, rest) =>
                (.unicode ⟨h₁, h.1⟩ ⟨h₂, h.2.1⟩ ⟨h₃, h.2.2.1⟩ ⟨h₄, h.2.2.2⟩ :: ps, rest)
            else none
          | _ => none
        else if h : isEscape e = true then
          (readPieces s).map fun (ps, rest) => (.escape ⟨e, h⟩ :: ps, rest)
        else none
    else if h : isPlain b = true then
      (readPieces s).map fun (ps, rest) => (.plain ⟨b, h⟩ :: ps, rest)
    else none

theorem readPieces_text {ps : Str} (h : readPieces s = some (ps, rest)) :
    s = closed ps ++ rest := by
  fun_induction readPieces s generalizing ps with
  | case1 => cases h
  | case2 s =>
    obtain ⟨rfl, rfl⟩ := Prod.mk.inj (Option.some.inj h)
    rfl
  | case3 => cases h
  | case4 h₁ h₂ h₃ h₄ s hhex _ ih =>
    obtain ⟨⟨qs, tail⟩, hqs, heq⟩ := Option.map_eq_some_iff.mp h
    obtain ⟨rfl, rfl⟩ := Prod.mk.inj heq
    rw [ih hqs]
    rfl
  | case5 => cases h
  | case6 => cases h
  | case7 e s he hescape _ ih =>
    obtain ⟨⟨qs, tail⟩, hqs, heq⟩ := Option.map_eq_some_iff.mp h
    obtain ⟨rfl, rfl⟩ := Prod.mk.inj heq
    rw [ih hqs]
    rfl
  | case8 => cases h
  | case9 b s hb hslash hplain ih =>
    obtain ⟨⟨qs, tail⟩, hqs, heq⟩ := Option.map_eq_some_iff.mp h
    obtain ⟨rfl, rfl⟩ := Prod.mk.inj heq
    rw [ih hqs]
    rfl
  | case10 => cases h

theorem readPieces_piece (piece : Piece) (s : List UInt8) :
    readPieces (piece.text ++ s) = (readPieces s).map fun (ps, rest) => (piece :: ps, rest) := by
  cases piece with
  | plain b =>
    obtain ⟨b, hb⟩ := b
    have hne : b ≠ quote ∧ b ≠ backslash := by simp_all [isPlain]
    change readPieces (b :: s) = _
    rw [readPieces.eq_def]
    simp [hne.1, hne.2, hb]
  | escape b =>
    obtain ⟨b, hb⟩ := b
    have hne : b ≠ 0x75 := by
      rintro rfl
      cases hb
    have hslash : backslash ≠ quote := by decide
    change readPieces (backslash :: b :: s) = _
    rw [readPieces.eq_def]
    simp [hslash, hne, hb]
  | unicode a b c d =>
    have hslash : backslash ≠ quote := by decide
    change readPieces (backslash :: 0x75 :: a.1 :: b.1 :: c.1 :: d.1 :: s) = _
    rw [readPieces.eq_def]
    simp [hslash, a.2, b.2, c.2, d.2]

theorem readPieces_append (ps : Str) (rest : List UInt8) :
    readPieces (closed ps ++ rest) = some (ps, rest) := by
  induction ps with
  | nil =>
    change readPieces (quote :: rest) = _
    rw [readPieces.eq_def]
    simp
  | cons piece ps ih =>
    have htext : closed (piece :: ps) ++ rest = piece.text ++ (closed ps ++ rest) := by
      simp [closed]
    rw [htext, readPieces_piece, ih]
    rfl

def hexValue (b : UInt8) : Nat :=
  if b ≤ 0x39 then b.toNat - 0x30 else if b ≤ 0x46 then b.toNat - 0x37 else b.toNat - 0x57

/-- The sixteen bits of a unicode escape. -/
def codeUnit (a b c d : UInt8) : Nat :=
  hexValue a * 0x1000 + hexValue b * 0x100 + hexValue c * 0x10 + hexValue d

def isLead (n : Nat) : Bool := 0xD800 ≤ n && n < 0xDC00
def isTrail (n : Nat) : Bool := 0xDC00 ≤ n && n < 0xE000

/-- The byte that a byte behind a backslash stands for. -/
def unescape (b : UInt8) : UInt8 :=
  if b = 0x62 then 0x08 else if b = 0x66 then 0x0C else if b = 0x6E then 0x0A
  else if b = 0x72 then 0x0D else if b = 0x74 then 0x09 else b

/-- The bytes a string stands for, where each of its surrogates is one of a pair. -/
def unescaped : Str → Option (List UInt8)
  | [] => some []
  | .plain b :: ps => (unescaped ps).map (b.1 :: ·)
  | .escape b :: ps => (unescaped ps).map (unescape b.1 :: ·)
  | .unicode a b c d :: ps =>
    let n := codeUnit a.1 b.1 c.1 d.1
    if isLead n then
      match ps with
      | .unicode a b c d :: ps =>
        let m := codeUnit a.1 b.1 c.1 d.1
        if isTrail m then
          (unescaped ps).map
            (String.utf8EncodeChar (Char.ofNat ((n - 0xD800) * 0x400 + (m - 0xDC00) + 0x10000)) ++ ·)
        else none
      | _ => none
    else if isTrail n then none
    else (unescaped ps).map (String.utf8EncodeChar (Char.ofNat n) ++ ·)

/-- The text a string stands for, where it stands for one. -/
def decode (ps : Str) : Option String :=
  (unescaped ps).bind fun bytes => String.fromUTF8? ⟨bytes.toArray⟩

/-! Values -/

def comma : UInt8 := 0x2C
def colon : UInt8 := 0x3A

inductive Kind where
  | array | object
deriving DecidableEq, Repr

def Kind.opens : Kind → UInt8
  | .array => 0x5B
  | .object => 0x7B

def Kind.closes : Kind → UInt8
  | .array => 0x5D
  | .object => 0x7D

/-- A member's name and what stands between it and the value. -/
structure Label where
  name : Str
  gap : Blank
  space : Blank

/-- What an entry has in front of its value. -/
def Key : Kind → Type
  | .array => Unit
  | .object => Label

mutual

inductive Value where
  | scalar (s : Scalar)
  | string (ps : Str)
  | empty (kind : Kind) (gap : Blank)
  | series (kind : Kind) (entries : Entries kind)

/-- One entry or more, each between its blanks. -/
inductive Entries : Kind → Type where
  | last {kind : Kind} (before : Blank) (key : Key kind) (value : Value) (after : Blank) :
      Entries kind
  | more {kind : Kind} (before : Blank) (key : Key kind) (value : Value) (after : Blank)
      (rest : Entries kind) : Entries kind

end

def Key.text : {kind : Kind} → Key kind → List UInt8
  | .array, _ => []
  | .object, label => quote :: closed label.name ++ label.gap.1 ++ colon :: label.space.1

mutual

def Value.text : Value → List UInt8
  | .scalar s => s.1
  | .string ps => quote :: closed ps
  | .empty kind gap => kind.opens :: (gap.1 ++ [kind.closes])
  | .series kind entries => kind.opens :: entries.text

def Entries.text : {kind : Kind} → Entries kind → List UInt8
  | kind, .last before key value after =>
    before.1 ++ (key.text ++ (value.text ++ (after.1 ++ [kind.closes])))
  | _, .more before key value after rest =>
    before.1 ++ (key.text ++ (value.text ++ (after.1 ++ comma :: rest.text)))

end

/-- The text of a value that is a string. -/
def Value.asText : Value → Option String
  | .string ps => decode ps
  | _ => none

mutual

/-- How deep readers nest in reading a value. -/
def Value.depth : Value → Nat
  | .scalar _ => 1
  | .string _ => 1
  | .empty _ _ => 2
  | .series _ entries => entries.depth + 2

def Entries.depth : {kind : Kind} → Entries kind → Nat
  | _, .last _ _ value _ => value.depth + 1
  | _, .more _ _ value _ rest => max value.depth rest.depth + 1

end

def readKey : (kind : Kind) → List UInt8 → Option (Key kind × List UInt8)
  | .array, s => some ((), s)
  | .object, [] => none
  | .object, b :: s =>
    if b = quote then
      match readPieces s with
      | none => none
      | some (name, s) =>
        let (gap, s) := span isBlank s
        match s with
        | [] => none
        | c :: s =>
          if c = colon then
            let (space, s) := span isBlank s
            some (⟨name, gap, space⟩, s)
          else none
    else none

mutual

/-- A value in front, in at most `fuel` nested readers. -/
def readValue : Nat → List UInt8 → Option (Value × List UInt8)
  | 0, _ => none
  | _ + 1, [] => none
  | fuel + 1, b :: s =>
    if b = quote then (readPieces s).map fun (ps, rest) => (.string ps, rest)
    else if b = Kind.array.opens then readSeries fuel .array s
    else if b = Kind.object.opens then readSeries fuel .object s
    else (readScalar (b :: s)).map fun (scalar, rest) => (.scalar scalar, rest)

/-- What stands behind an opening bracket. -/
def readSeries : Nat → Kind → List UInt8 → Option (Value × List UInt8)
  | 0, _, _ => none
  | fuel + 1, kind, s =>
    let (gap, t) := span isBlank s
    if t.head? = some kind.closes then some (.empty kind gap, t.tail)
    else (readEntries fuel kind s).map fun (entries, rest) => (.series kind entries, rest)

def readEntries : Nat → (kind : Kind) → List UInt8 → Option (Entries kind × List UInt8)
  | 0, _, _ => none
  | fuel + 1, kind, s =>
    let (before, s) := span isBlank s
    match readKey kind s with
    | none => none
    | some (key, s) =>
      match readValue fuel s with
      | none => none
      | some (value, s) =>
        let (after, s) := span isBlank s
        match s with
        | [] => none
        | b :: s =>
          if b = kind.closes then some (.last before key value after, s)
          else if b = comma then
            (readEntries fuel kind s).map fun (rest, tail) =>
              (.more before key value after rest, tail)
          else none

end

theorem readKey_text {kind : Kind} {key : Key kind} (h : readKey kind s = some (key, rest)) :
    s = key.text ++ rest := by
  cases kind with
  | array =>
    obtain ⟨-, rfl⟩ := Prod.mk.inj (Option.some.inj h)
    rfl
  | object =>
    cases s with
    | nil => cases h
    | cons b s =>
      simp only [readKey] at h
      split_ifs at h with hquote
      split at h
      · cases h
      · rename_i name after hname
        have hgap := span_text isBlank after
        generalize span isBlank after = gap at h hgap
        obtain ⟨gap, t⟩ := gap
        cases t with
        | nil => cases h
        | cons c t =>
          simp only at h hgap
          split_ifs at h with hcolon
          obtain ⟨rfl, rfl⟩ := Prod.mk.inj (Option.some.inj h)
          rw [readPieces_text hname, ← hgap, hquote, hcolon, ← span_text isBlank t]
          simp [Key.text, span, List.append_assoc]

/-- Whatever the readers take, they took it off the front. -/
theorem read_text (fuel : Nat) :
    (∀ s value rest, readValue fuel s = some (value, rest) → s = value.text ++ rest) ∧
    (∀ kind s value rest, readSeries fuel kind s = some (value, rest) →
      kind.opens :: s = value.text ++ rest) ∧
    (∀ kind s entries rest, readEntries fuel kind s = some (entries, rest) →
      s = entries.text ++ rest) := by
  induction fuel with
  | zero => exact ⟨nofun, nofun, nofun⟩
  | succ fuel ih =>
    obtain ⟨ihValue, ihSeries, ihEntries⟩ := ih
    refine ⟨?_, ?_, ?_⟩
    · intro s value rest h
      cases s with
      | nil => cases h
      | cons b s =>
        simp only [readValue] at h
        split_ifs at h with hquote harray hobject
        · obtain ⟨⟨ps, tail⟩, hps, heq⟩ := Option.map_eq_some_iff.mp h
          obtain ⟨rfl, rfl⟩ := Prod.mk.inj heq
          rw [hquote, readPieces_text hps]
          rfl
        · rw [harray]
          exact ihSeries .array s value rest h
        · rw [hobject]
          exact ihSeries .object s value rest h
        · obtain ⟨⟨scalar, tail⟩, hscalar, heq⟩ := Option.map_eq_some_iff.mp h
          obtain ⟨rfl, rfl⟩ := Prod.mk.inj heq
          exact readScalar_text hscalar
    · intro kind s value rest h
      simp only [readSeries] at h
      split_ifs at h with hclose
      · obtain ⟨rfl, rfl⟩ := Prod.mk.inj (Option.some.inj h)
        have htext := span_text isBlank s
        obtain ⟨t, ht⟩ := List.head?_eq_some_iff.mp hclose
        rw [ht] at htext
        rw [ht]
        conv_lhs => rw [← htext]
        simp [Value.text]
      · obtain ⟨⟨entries, tail⟩, hentries, heq⟩ := Option.map_eq_some_iff.mp h
        obtain ⟨rfl, rfl⟩ := Prod.mk.inj heq
        rw [ihEntries kind s entries tail hentries]
        rfl
    · intro kind s entries rest h
      simp only [readEntries] at h
      have hbefore := span_text isBlank s
      generalize span isBlank s = before at h hbefore
      obtain ⟨before, t⟩ := before
      split at h
      · cases h
      rename_i key afterKey hkey
      split at h
      · cases h
      rename_i value afterValue hvalue
      have hafter := span_text isBlank afterValue
      generalize span isBlank afterValue = after at h hafter
      obtain ⟨after, u⟩ := after
      have hs : s = before.1 ++ (key.text ++ (value.text ++ (after.1 ++ u))) := by
        rw [← hbefore, readKey_text hkey, ihValue _ _ _ hvalue, ← hafter]
      cases u with
      | nil => cases h
      | cons b u =>
        simp only at h
        split_ifs at h with hclose hcomma
        · obtain ⟨rfl, rfl⟩ := Prod.mk.inj (Option.some.inj h)
          rw [hs, hclose]
          simp [Entries.text]
        · obtain ⟨⟨tail, left⟩, htail, heq⟩ := Option.map_eq_some_iff.mp h
          obtain ⟨rfl, rfl⟩ := Prod.mk.inj heq
          rw [hs, hcomma, ihEntries kind u tail left htail]
          simp [Entries.text]

/-! Reading a text back -/

/-- The bytes a value begins with. -/
def isFirst (b : UInt8) : Bool :=
  isScalarByte b || b == quote || b == Kind.array.opens || b == Kind.object.opens

theorem isFirst_spec : ∀ b : UInt8, isFirst b = true → isBlank b = false ∧
    ∀ kind : Kind, b ≠ kind.closes := by
  intro b hb
  refine ⟨?_, ?_⟩
  · apply Bool.eq_false_of_not_eq_true
    intro hblank
    simp only [isBlank, Bool.or_eq_true, beq_iff_eq] at hblank
    rcases hblank with ((rfl | rfl) | rfl) | rfl <;> cases hb
  · rintro kind rfl
    cases kind <;> cases hb

theorem Value.text_first (value : Value) : ∃ b s, value.text = b :: s ∧ isFirst b = true := by
  cases value with
  | scalar s =>
    obtain ⟨s, hs⟩ := s
    cases s with
    | nil => exact absurd rfl (ne_nil_of_isScalar hs)
    | cons b s =>
      have hb := scalarByte_of_isScalar hs b List.mem_cons_self
      exact ⟨b, s, rfl, by simp [isFirst, hb]⟩
  | string ps => exact ⟨_, _, rfl, rfl⟩
  | empty kind gap => exact ⟨_, _, rfl, by cases kind <;> rfl⟩
  | series kind entries => exact ⟨_, _, rfl, by cases kind <;> rfl⟩

theorem Value.text_clear (value : Value) (rest : List UInt8) :
    Clear isBlank (value.text ++ rest) := by
  obtain ⟨b, s, htext, hb⟩ := value.text_first
  rw [htext]
  exact clear_cons.mpr (isFirst_spec b hb).1

theorem Key.text_first {kind : Kind} (key : Key kind) (value : Value) (rest : List UInt8) :
    ∃ b s, key.text ++ (value.text ++ rest) = b :: s ∧ isFirst b = true := by
  cases kind with
  | array =>
    obtain ⟨b, s, htext, hb⟩ := value.text_first
    exact ⟨b, s ++ rest, by rw [htext]; rfl, hb⟩
  | object => exact ⟨_, _, rfl, rfl⟩

theorem readKey_append {kind : Kind} (key : Key kind) (h : Clear isBlank rest) :
    readKey kind (key.text ++ rest) = some (key, rest) := by
  cases kind with
  | array => rfl
  | object =>
    obtain ⟨name, gap, space⟩ := key
    have htext : @Key.text .object ⟨name, gap, space⟩ ++ rest =
        quote :: (closed name ++ (gap.1 ++ (colon :: (space.1 ++ rest)))) := by
      simp [Key.text]
    have hcolon : Clear isBlank (colon :: (space.1 ++ rest)) := clear_cons.mpr rfl
    rw [htext]
    simp [readKey, readPieces_append, span_append _ hcolon, span_append _ h]

theorem readScalar_first {value : Scalar} {b : UInt8} (h : value.1 = b :: s) :
    b ≠ quote ∧ ∀ kind : Kind, b ≠ kind.opens := by
  have hb := scalarByte_of_isScalar value.2 b (by rw [h]; exact List.mem_cons_self)
  refine ⟨?_, ?_⟩
  · rintro rfl
    cases hb
  · rintro kind rfl
    cases kind <;> cases hb

theorem Entries.text_open {kind : Kind} (entries : Entries kind) (rest : List UInt8) :
    (span isBlank (entries.text ++ rest)).2.head? ≠ some kind.closes := by
  have hfront : ∀ (before : Blank) (key : Key kind) (value : Value) (tail : List UInt8),
      (span isBlank (before.1 ++ (key.text ++ (value.text ++ tail)))).2.head? ≠
        some kind.closes := by
    intro before key value tail
    obtain ⟨b, s, htext, hb⟩ := key.text_first value tail
    obtain ⟨hblank, hcloses⟩ := isFirst_spec b hb
    rw [htext, span_append _ (clear_cons.mpr hblank)]
    simpa using hcloses kind
  cases entries with
  | last before key value after => simpa [Entries.text] using hfront before key value _
  | more before key value after more => simpa [Entries.text] using hfront before key value _

/-- A byte that ends an entry: what stands in front of it is no part of the value. -/
def EndsEntry (b : UInt8) : Prop := isBlank b = false ∧ isScalarByte b = false

theorem endsEntry_closes (kind : Kind) : EndsEntry kind.closes := by
  cases kind <;> exact ⟨rfl, rfl⟩

theorem endsEntry_comma : EndsEntry comma := ⟨rfl, rfl⟩

theorem isBlank_not_scalar (h : isBlank b = true) : isScalarByte b = false := by
  simp only [isBlank, Bool.or_eq_true, beq_iff_eq] at h
  rcases h with ((rfl | rfl) | rfl) | rfl <;> rfl

theorem Clear.blank (hp : ∀ c, isBlank c = true → p c = false) (after : Blank)
    (h : Clear p rest) : Clear p (after.1 ++ rest) := by
  obtain ⟨after, hafter⟩ := after
  cases after with
  | nil => exact h
  | cons c after => exact clear_cons.mpr (hp c (hafter c List.mem_cons_self))

theorem EndsEntry.clear (h : EndsEntry b) (after : Blank) (s : List UInt8) :
    Clear isScalarByte (after.1 ++ b :: s) :=
  (clear_cons.mpr h.2).blank (fun _ => isBlank_not_scalar) after

theorem readEntries_entry {kind : Kind} {value : Value} {fuel : Nat} (before : Blank)
    (key : Key kind) (after : Blank) (hb : EndsEntry b)
    (hvalue : readValue fuel (value.text ++ (after.1 ++ b :: s)) =
      some (value, after.1 ++ b :: s)) :
    readEntries (fuel + 1) kind (before.1 ++ (key.text ++ (value.text ++ (after.1 ++ b :: s)))) =
      if b = kind.closes then some (.last before key value after, s)
      else if b = comma then
        (readEntries fuel kind s).map fun (rest, tail) => (.more before key value after rest, tail)
      else none := by
  obtain ⟨c, t, htext, hc⟩ := key.text_first value (after.1 ++ b :: s)
  have hbefore : span isBlank (before.1 ++ (key.text ++ (value.text ++ (after.1 ++ b :: s)))) =
      (before, key.text ++ (value.text ++ (after.1 ++ b :: s))) := by
    rw [htext]
    exact span_append _ (clear_cons.mpr (isFirst_spec c hc).1)
  have hkey := readKey_append key (value.text_clear (after.1 ++ b :: s))
  have hafter : span isBlank (after.1 ++ b :: s) = (after, b :: s) :=
    span_append _ (clear_cons.mpr hb.1)
  simp only [readEntries, hbefore, hkey, hvalue, hafter]

mutual

theorem readValue_append : ∀ (value : Value) (fuel : Nat) (rest : List UInt8),
    value.depth ≤ fuel → Clear isScalarByte rest →
      readValue fuel (value.text ++ rest) = some (value, rest)
  | .scalar s, 0, _, hfuel, _ => by simp [Value.depth] at hfuel
  | .scalar s, fuel + 1, rest, _, hrest => by
    have hread := readScalar_append s hrest
    obtain ⟨b, t, htext, _⟩ := (Value.scalar s).text_first
    obtain ⟨hquote, hopens⟩ := readScalar_first htext
    simp only [Value.text] at htext ⊢
    rw [htext] at hread ⊢
    simp only [List.cons_append] at hread ⊢
    simp [readValue, hquote, hopens, hread]
  | .string ps, 0, _, hfuel, _ => by simp [Value.depth] at hfuel
  | .string ps, fuel + 1, rest, _, _ => by
    simp [Value.text, readValue, readPieces_append]
  | .empty kind gap, 0, _, hfuel, _ => by simp [Value.depth] at hfuel
  | .empty kind gap, 1, _, hfuel, _ => by simp [Value.depth] at hfuel
  | .empty kind gap, fuel + 2, rest, _, _ => by
    have hspan : span isBlank (gap.1 ++ (kind.closes :: rest)) = (gap, kind.closes :: rest) :=
      span_append _ (clear_cons.mpr (by cases kind <;> rfl))
    cases kind <;> simp [Value.text, readValue, readSeries, hspan, Kind.opens, quote]
  | .series kind entries, 0, _, hfuel, _ => by simp [Value.depth] at hfuel
  | .series kind entries, 1, _, hfuel, _ => by simp [Value.depth] at hfuel
  | .series kind entries, fuel + 2, rest, hfuel, _ => by
    have hread := readEntries_append entries fuel rest (by simp [Value.depth] at hfuel; omega)
    have hopen := entries.text_open rest
    cases kind <;>
      simp [Value.text, readValue, readSeries, hread, hopen, Kind.opens, quote]

theorem readEntries_append : ∀ {kind : Kind} (entries : Entries kind) (fuel : Nat)
    (rest : List UInt8), entries.depth ≤ fuel →
      readEntries fuel kind (entries.text ++ rest) = some (entries, rest)
  | _, .last _ _ _ _, 0, _, hfuel => by simp [Entries.depth] at hfuel
  | kind, .last before key value after, fuel + 1, rest, hfuel => by
    have hend := endsEntry_closes kind
    have hvalue := readValue_append value fuel (after.1 ++ kind.closes :: rest)
      (by simp [Entries.depth] at hfuel; omega) (hend.clear after rest)
    simpa [Entries.text] using readEntries_entry before key after hend hvalue
  | _, .more _ _ _ _ _, 0, _, hfuel => by simp [Entries.depth] at hfuel
  | kind, .more before key value after more, fuel + 1, rest, hfuel => by
    have hend := endsEntry_comma
    have hvalue := readValue_append value fuel (after.1 ++ comma :: (more.text ++ rest))
      (by simp [Entries.depth] at hfuel; omega) (hend.clear after _)
    have hmore := readEntries_append more fuel rest (by simp [Entries.depth] at hfuel; omega)
    have hcomma : comma ≠ kind.closes := by cases kind <;> decide
    have hread := readEntries_entry before key after hend hvalue
    rw [if_neg hcomma, if_pos rfl, hmore] at hread
    simpa [Entries.text] using hread

end

mutual

theorem Value.depth_le : ∀ value : Value, value.depth ≤ 2 * value.text.length
  | .scalar s => by
    have := List.length_pos_of_ne_nil (ne_nil_of_isScalar s.2)
    simp only [Value.depth, Value.text]
    omega
  | .string ps => by
    simp only [Value.depth, Value.text, List.length_cons]
    omega
  | .empty kind gap => by
    simp only [Value.depth, Value.text, List.length_cons]
    omega
  | .series kind entries => by
    have := entries.depth_le
    simp only [Value.depth, Value.text, List.length_cons]
    omega

theorem Entries.depth_le : ∀ {kind : Kind} (entries : Entries kind),
    entries.depth ≤ 2 * entries.text.length
  | _, .last before key value after => by
    have := value.depth_le
    simp only [Entries.depth, Entries.text, List.length_append, List.length_cons]
    omega
  | _, .more before key value after more => by
    have := value.depth_le
    have := more.depth_le
    simp only [Entries.depth, Entries.text, List.length_append, List.length_cons]
    omega

end

/-- A value between blanks. -/
structure Document where
  before : Blank
  value : Value
  after : Blank

def Document.text (d : Document) : List UInt8 := d.before.1 ++ (d.value.text ++ d.after.1)

/-- The document a text is the text of. -/
def parse (s : List UInt8) : Option Document :=
  let (before, t) := span isBlank s
  match readValue (2 * t.length) t with
  | none => none
  | some (value, t) =>
    let (after, t) := span isBlank t
    if t = [] then some ⟨before, value, after⟩ else none

theorem parse_text (d : Document) : parse d.text = some d := by
  obtain ⟨before, value, after⟩ := d
  have hafter := Clear.nil.blank (fun _ => isBlank_not_scalar) after
  rw [List.append_nil] at hafter
  have hdepth := value.depth_le
  have hread := readValue_append value (2 * (value.text ++ after.1).length) after.1
    (by rw [List.length_append]; omega) hafter
  have hspan := span_append after Clear.nil
  rw [List.append_nil] at hspan
  simp only [parse, Document.text, span_append _ (value.text_clear after.1), hread, hspan, if_true]

/-- A text is parsed into the document that it is the text of, and into no other. -/
theorem parse_eq_some_iff {d : Document} : parse s = some d ↔ d.text = s := by
  constructor
  · intro h
    have hbefore := span_text isBlank s
    simp only [parse] at h
    generalize span isBlank s = before at h hbefore
    obtain ⟨before, t⟩ := before
    simp only at h hbefore
    split at h
    · cases h
    rename_i value left hvalue
    have hafter := span_text isBlank left
    split_ifs at h with hend
    obtain rfl := Option.some.inj h
    rw [hend, List.append_nil] at hafter
    rw [Document.text, hafter, ← (read_text _).1 t value left hvalue, hbefore]
  · rintro rfl
    exact parse_text d

theorem Document.text_inj {d e : Document} (h : d.text = e.text) : d = e := by
  have hparse := parse_text d
  rw [h, parse_text e] at hparse
  exact (Option.some.inj hparse).symm

/-! Where the parts of a document lie -/

/-- The bytes of characters that are longer than one byte. -/
def isHigh (b : UInt8) : Bool := 0x80 ≤ b

theorem isBlank_not_high (h : isBlank b = true) : isHigh b = false := by
  simp only [isBlank, Bool.or_eq_true, beq_iff_eq] at h
  rcases h with ((rfl | rfl) | rfl) | rfl <;> rfl

theorem isFirst_not_high (h : isFirst b = true) : isHigh b = false := by
  simp only [isFirst, isScalarByte, isDigit, quote, Kind.opens, Bool.or_eq_true, Bool.and_eq_true,
    decide_eq_true_eq, beq_iff_eq, UInt8.le_iff_toNat_le, ← UInt8.toNat_inj, UInt8.reduceToNat]
    at h
  simp only [isHigh, decide_eq_false_iff_not, UInt8.le_iff_toNat_le, UInt8.reduceToNat]
  omega

/-- A value and where in the text it begins. -/
structure Place where
  start : Nat
  value : Value

namespace Place

/-- The value's text begins at `start`, and no byte of a longer character follows it. -/
def Lies (place : Place) (text : List UInt8) : Prop :=
  ∃ front back, text = front ++ (place.value.text ++ back) ∧ front.length = place.start ∧
    Clear isHigh back

theorem Lies.slice {place : Place} {text : List UInt8} (h : place.Lies text) :
    (text.take (place.start + place.value.text.length)).drop place.start = place.value.text := by
  obtain ⟨front, back, rfl, hstart, -⟩ := h
  rw [← hstart, ← List.append_assoc, ← List.length_append, List.take_left, List.drop_left]

theorem Lies.stop_le {place : Place} {text : List UInt8} (h : place.Lies text) :
    place.start + place.value.text.length ≤ text.length := by
  obtain ⟨front, back, rfl, hstart, -⟩ := h
  simp only [List.length_append]
  omega

end Place

def Entries.places : {kind : Kind} → Nat → Entries kind → List (Key kind × Place)
  | _, start, .last before key value _ =>
    [(key, ⟨start + before.1.length + key.text.length, value⟩)]
  | _, start, .more before key value after rest =>
    let here := start + before.1.length + key.text.length
    (key, ⟨here, value⟩) :: rest.places (here + value.text.length + after.1.length + 1)

theorem Entries.lies : ∀ {kind : Kind} (entries : Entries kind) (start : Nat)
    (front back : List UInt8), front.length = start → ∀ e ∈ entries.places start,
      e.2.Lies (front ++ (entries.text ++ back))
  | kind, .last before key value after, start, front, back, hstart, e, he => by
    obtain rfl := List.mem_singleton.mp he
    refine ⟨front ++ (before.1 ++ key.text), after.1 ++ kind.closes :: back, ?_, ?_, ?_⟩
    · simp [Entries.text]
    · simp [hstart, Nat.add_assoc]
    · have hcloses : isHigh kind.closes = false := by cases kind <;> rfl
      exact (clear_cons.mpr hcloses).blank (fun _ => isBlank_not_high) after
  | kind, .more before key value after rest, start, front, back, hstart, e, he => by
    rcases List.mem_cons.mp he with rfl | he
    · refine ⟨front ++ (before.1 ++ key.text), after.1 ++ comma :: (rest.text ++ back), ?_, ?_, ?_⟩
      · simp [Entries.text]
      · simp [hstart, Nat.add_assoc]
      · have hcomma : isHigh comma = false := rfl
        exact (clear_cons.mpr hcomma).blank (fun _ => isBlank_not_high) after
    · have hrest := rest.lies _
        (front ++ (before.1 ++ (key.text ++ (value.text ++ (after.1 ++ [comma]))))) back
        (by simp [← hstart, Nat.add_assoc]) e he
      simpa [Entries.text] using hrest

namespace Place

variable {place : Place} {text : List UInt8}

/-- The elements of an array, each where it lies. -/
def elements (place : Place) : Option (List Place) :=
  match place.value with
  | .empty .array _ => some []
  | .series .array entries => some ((entries.places (place.start + 1)).map Prod.snd)
  | _ => none

/-- The members of an object, each where it lies. -/
def members (place : Place) : Option (List (Str × Place)) :=
  match place.value with
  | .empty .object _ => some []
  | .series .object entries =>
    some ((entries.places (place.start + 1)).map fun (label, value) => (Label.name label, value))
  | _ => none

/-- The members of an object under the names that theirs stand for. -/
def named (place : Place) : Option (List (String × Place)) :=
  place.members.bind fun members =>
    members.mapM fun (name, value) => (decode name).map fun name => (name, value)

theorem Lies.series {kind : Kind} {entries : Entries kind} (h : place.Lies text)
    (hvalue : place.value = .series kind entries) :
    ∀ e ∈ entries.places (place.start + 1), e.2.Lies text := by
  obtain ⟨front, back, rfl, hstart, -⟩ := h
  intro e he
  have hlies := entries.lies (place.start + 1) (front ++ [kind.opens]) back (by simp [hstart]) e he
  simpa [hvalue, Value.text] using hlies

theorem Lies.elements (h : place.Lies text) {places : List Place}
    (hplaces : place.elements = some places) : ∀ e ∈ places, e.Lies text := by
  simp only [Place.elements] at hplaces
  split at hplaces
  · obtain rfl := Option.some.inj hplaces
    simp
  · rename_i entries hvalue
    obtain rfl := Option.some.inj hplaces
    intro e he
    obtain ⟨entry, hentry, rfl⟩ := List.mem_map.mp he
    exact h.series hvalue entry hentry
  · cases hplaces

theorem Lies.members (h : place.Lies text) {places : List (Str × Place)}
    (hplaces : place.members = some places) : ∀ e ∈ places, e.2.Lies text := by
  simp only [Place.members] at hplaces
  split at hplaces
  · obtain rfl := Option.some.inj hplaces
    simp
  · rename_i entries hvalue
    obtain rfl := Option.some.inj hplaces
    intro e he
    obtain ⟨entry, hentry, rfl⟩ := List.mem_map.mp he
    exact h.series hvalue entry hentry
  · cases hplaces

theorem Lies.named (h : place.Lies text) {found : List (String × Place)}
    (hfound : place.named = some found) : ∀ e ∈ found, e.2.Lies text := by
  obtain ⟨members, hmembers, hmap⟩ := Option.bind_eq_some_iff.mp hfound
  have hlies := h.members hmembers
  clear hfound hmembers h
  induction members generalizing found with
  | nil =>
    obtain rfl := Option.some.inj hmap
    simp
  | cons member members ih =>
    rw [List.mapM_cons] at hmap
    obtain ⟨first, hfirst, hmap⟩ := Option.bind_eq_some_iff.mp hmap
    obtain ⟨others, hothers, hmap⟩ := Option.bind_eq_some_iff.mp hmap
    obtain rfl := Option.some.inj hmap
    obtain ⟨name, -, rfl⟩ := Option.map_eq_some_iff.mp hfirst
    intro e he
    rcases List.mem_cons.mp he with rfl | he
    · exact hlies member List.mem_cons_self
    · exact ih hothers (fun e he => hlies e (List.mem_cons_of_mem _ he)) e he

theorem elements_of_named {found : List (String × Place)} (h : place.named = some found) :
    place.elements = none := by
  obtain ⟨members, hmembers, -⟩ := Option.bind_eq_some_iff.mp h
  simp only [Place.members] at hmembers
  simp only [Place.elements]
  split at hmembers
  · rename_i hvalue
    rw [hvalue]
  · rename_i hvalue
    rw [hvalue]
  · cases hmembers

end Place

namespace Document

def root (d : Document) : Place := ⟨d.before.1.length, d.value⟩

theorem root_lies (d : Document) : d.root.Lies d.text := by
  have hafter := Clear.nil.blank (fun _ => isBlank_not_high) d.after
  rw [List.append_nil] at hafter
  exact ⟨d.before.1, d.after.1, rfl, rfl, hafter⟩

end Document

end Json
