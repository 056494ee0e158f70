import RuststreamKinesis.Envelope
import RuststreamKinesis.Lib.Bytes
import RuststreamKinesis.Lib.Items

/-!
# The binary envelope

`Rsk` (`envelope/rsk.rs`): a block of length-prefixed headers in front of the payload, or the
payload as it stands where there is none.
-/

namespace RuststreamKinesis

set_option autoImplicit false

open Bytes Items

namespace Rsk

/-- `RSK2`: a record that starts with it carries a header block. -/
def magic : List UInt8 := [0x52, 0x53, 0x4B, 0x32]

/-- `RSK1`, the magic of the envelope earlier releases wrote. -/
def textMagic : List UInt8 := [0x52, 0x53, 0x4B, 0x31]

/-- The magic and the length of the block. -/
def prefixLength : Nat := 8

/-- Whether a reader would take `payload` for an envelope: it begins with either magic. -/
def looksEnveloped (payload : List UInt8) : Bool :=
  payload.take 4 == magic || payload.take 4 == textMagic

/-- A length as the envelope writes it: zero where it does not fit. -/
def fieldLen (len : Nat) : List UInt8 := be32 (if len < 2 ^ 32 then len else 0)

def putField (bytes : List UInt8) : List UInt8 := fieldLen bytes.length ++ bytes

/-- A header as the block carries it. -/
def putHeader (header : String × List UInt8) : List UInt8 :=
  putField (asBytes header.1) ++ putField header.2

/-- The length of the block of the headers. -/
def blockLength (headers : List (String × List UInt8)) : Nat :=
  (headers.map fun header => 2 * 4 + (asBytes header.1).length + header.2.length).sum

def sealRecord (headers : HeaderMap) (payload : List UInt8) :
    Except EnvelopeError (List UInt8) :=
  let block := blockLength headers.carried
  if block = 0 ∧ looksEnveloped payload = false then .ok payload
  else .ok (magic ++ fieldLen block ++ headers.carried.flatMap putHeader ++ payload)

/-- Reads one length prefix off the front of `data`. -/
def readLen : List UInt8 → Option (Nat × List UInt8)
  | a :: b :: c :: d :: rest => some (ofBe32 a b c d, rest)
  | _ => none

/-- Reads one length-prefixed field off the front of `data`. -/
def readField (data : List UInt8) : Option (List UInt8 × List UInt8) :=
  match readLen data with
  | some (len, rest) => if len ≤ rest.length then some (rest.take len, rest.drop len) else none
  | none => none

/-- Reads one header, a UTF-8 name and a value, off the front of `block`. -/
def readHeader (block : List UInt8) : Option ((String × List UInt8) × List UInt8) :=
  match readField block with
  | none => none
  | some (name, rest) =>
    match readField rest with
    | none => none
    | some (value, rest) => (fromUtf8 name).map fun name => ((name, value), rest)

theorem readHeader_of {block name mid value rest : List UInt8}
    (hname : readField block = some (name, mid)) (hvalue : readField mid = some (value, rest)) :
    readHeader block = (fromUtf8 name).map fun name => ((name, value), rest) := by
  simp only [readHeader, hname, hvalue]

theorem readLen_length {data rest : List UInt8} {len : Nat} (h : readLen data = some (len, rest)) :
    data.length = 4 + rest.length := by
  unfold readLen at h
  split at h
  · cases h
    simp only [List.length_cons]
    omega
  · cases h

theorem readField_length {data field rest : List UInt8} (h : readField data = some (field, rest)) :
    data.length = 4 + field.length + rest.length := by
  unfold readField at h
  split at h
  · rename_i len tail hlen
    split at h
    · cases h
      have := readLen_length hlen
      rw [List.length_take, List.length_drop]
      omega
    · cases h
  · cases h

theorem readHeader_consumes : Consumes readHeader := by
  intro block header rest h
  unfold readHeader at h
  split at h
  · cases h
  · rename_i hname
    split at h
    · cases h
    · rename_i hvalue
      obtain ⟨text, _, h⟩ := Option.map_eq_some_iff.mp h
      cases h
      have := readField_length hname
      have := readField_length hvalue
      omega

/-- Whether a binary header block parses whole. -/
def fieldsParse (block : List UInt8) : Bool :=
  if block = [] then true
  else
    match _h : readHeader block with
    | some (_, rest) => fieldsParse rest
    | none => false
termination_by block.length
decreasing_by exact readHeader_consumes _ _ _ _h

/-- The headers of a binary block that `fieldsParse` accepted. -/
def decodeFields (block : List UInt8) (headers : HeaderMap) : HeaderMap :=
  match _h : readHeader block with
  | some ((name, value), rest) => decodeFields rest (headers.insert name value)
  | none => headers
termination_by block.length
decreasing_by exact readHeader_consumes _ _ _ _h

/-- The header block of the text envelope earlier releases wrote. -/
def decodeText (block : List UInt8) (headers : HeaderMap) : HeaderMap :=
  (lines (fromUtf8Lossy block)).foldl (fun headers line =>
    match splitOnce ':' line with
    | some (name, value) =>
      headers.insert (String.ofList (trim name)) (asBytes (String.ofList (trim value)))
    | none => headers) headers

/-- A header block, in the layout its magic names. -/
inductive Block where
  | fields (block : List UInt8)
  | text (block : List UInt8)
deriving DecidableEq, Repr

/-- The header block of an enveloped record and where its payload starts. -/
def split (record : List UInt8) : Option (Block × Nat) :=
  if record.length < 4 then none
  else
    match readLen (record.drop 4) with
    | none => none
    | some (len, rest) =>
      if rest.length < len then none
      else
        let block := rest.take len
        let start := prefixLength + len
        if record.take 4 = magic then
          if fieldsParse block then some (.fields block, start) else none
        else if record.take 4 = textMagic then some (.text block, start)
        else none

def body (record : List UInt8) : Body :=
  match split record with
  | some (_, start) => .within start record.length
  | none => .whole

def readHeaders (record : List UInt8) (_body : Body) (headers : HeaderMap) : Option HeaderMap :=
  match split record with
  | some (.fields block, _) => some (decodeFields block headers)
  | some (.text block, _) => some (decodeText block headers)
  | none => some headers

variable {headers : List (String × List UInt8)} {data rest : List UInt8} {n : Nat}

theorem readLen_fieldLen (h : n < 2 ^ 32) : readLen (fieldLen n ++ rest) = some (n, rest) := by
  rw [fieldLen, if_pos h]
  simp only [be32, List.cons_append, List.nil_append, readLen, ofBe32_be32 h]

theorem readField_putField (h : data.length < 2 ^ 32) :
    readField (putField data ++ rest) = some (data, rest) := by
  rw [putField, List.append_assoc, readField, readLen_fieldLen h]
  simp

/-- A header whose name and value have lengths that fit. -/
def Fits (header : String × List UInt8) : Prop :=
  (asBytes header.1).length < 2 ^ 32 ∧ header.2.length < 2 ^ 32

theorem reads_header : Reads readHeader putHeader Fits := by
  intro header rest hfits
  rw [putHeader, List.append_assoc,
    readHeader_of (readField_putField hfits.1) (readField_putField hfits.2), fromUtf8_asBytes]
  rfl

theorem readHeader_nil : readHeader [] = none := rfl

theorem taken_block (h : ∀ header ∈ headers, Fits header) :
    Taken readHeader (headers.flatMap putHeader) headers [] := by
  have htaken := reads_header.items h readHeader_nil
  rwa [List.append_nil] at htaken

theorem fieldsParse_of_taken {block : List UInt8} (h : Taken readHeader block headers []) :
    fieldsParse block = true := by
  generalize hend : ([] : List UInt8) = tail at h
  induction h with
  | stop =>
    subst hend
    rw [fieldsParse]
    rfl
  | @next block rest tail header headers hsome _ ih =>
    rw [fieldsParse]
    split
    · rfl
    · split
      · rename_i hread
        cases hread.symm.trans hsome
        exact ih hend
      · rename_i hread
        cases hread.symm.trans hsome

/-- A block parses whole exactly when reading its headers leaves nothing. -/
theorem fieldsParse_iff {block : List UInt8} :
    fieldsParse block = true ↔ ∃ headers, Taken readHeader block headers [] := by
  constructor
  · intro h
    induction block using fieldsParse.induct with
    | case1 => exact ⟨[], .stop readHeader_nil⟩
    | case2 block hne header rest hread ih =>
      rw [fieldsParse, if_neg hne] at h
      split at h
      · rename_i hread'
        cases hread'.symm.trans hread
        obtain ⟨headers, htaken⟩ := ih h
        exact ⟨header :: headers, .next hread htaken⟩
      · cases h
    | case3 block hne hread =>
      rw [fieldsParse, if_neg hne] at h
      split at h
      · rename_i hread'
        cases hread'.symm.trans hread
      · cases h
  · rintro ⟨headers, htaken⟩
    exact fieldsParse_of_taken htaken

theorem decodeFields_taken {block : List UInt8} {read : HeaderMap}
    (h : Taken readHeader block headers rest) :
    decodeFields block read = read.insertAll headers := by
  induction h generalizing read with
  | stop hnone =>
    rw [decodeFields]
    split
    · rename_i hread
      cases hread.symm.trans hnone
    · rfl
  | @next block rest tail header headers hsome _ ih =>
    rw [decodeFields]
    split
    · rename_i hread
      cases hread.symm.trans hsome
      exact ih
    · rename_i hread
      cases hread.symm.trans hsome

theorem length_putHeader {header : String × List UInt8} : (putHeader header).length =
    2 * 4 + (asBytes header.1).length + header.2.length := by
  simp only [putHeader, putField, fieldLen, List.length_append, length_be32]
  omega

theorem length_block : (headers.flatMap putHeader).length = blockLength headers := by
  rw [List.length_flatMap, blockLength]
  exact congrArg List.sum (List.map_congr_left fun _ _ => length_putHeader)

theorem fits_of_blockLength (h : blockLength headers < 2 ^ 32) :
    ∀ header ∈ headers, Fits header := by
  intro header hmem
  have hle : 2 * 4 + (asBytes header.1).length + header.2.length ≤ blockLength headers :=
    List.le_sum_of_mem (List.mem_map_of_mem (f := fun header : String × List UInt8 =>
      2 * 4 + (asBytes header.1).length + header.2.length) hmem)
  constructor <;> omega

theorem split_of {record block rest : List UInt8} (hmagic : record.take 4 = magic)
    (hlen : readLen (record.drop 4) = some (block.length, block ++ rest))
    (hparse : fieldsParse block = true) :
    split record = some (.fields block, prefixLength + block.length) := by
  have hshort : ¬ record.length < 4 := by
    have := congrArg List.length hmagic
    simp only [List.length_take, magic, List.length_cons, List.length_nil] at this
    omega
  have hblock : ¬ (block ++ rest).length < block.length := by
    rw [List.length_append]
    omega
  simp only [split, if_neg hshort, hlen, if_neg hblock, List.take_left, if_pos hmagic,
    if_pos hparse]

theorem split_enveloped {block : List UInt8} (payload : List UInt8) (hlen : block.length < 2 ^ 32)
    (hparse : fieldsParse block = true) :
    split (magic ++ fieldLen block.length ++ block ++ payload) =
      some (.fields block, prefixLength + block.length) := by
  rw [List.append_assoc, List.append_assoc]
  have hmagic : (magic ++ (fieldLen block.length ++ (block ++ payload))).take 4 = magic := rfl
  exact split_of hmagic (readLen_fieldLen hlen) hparse

theorem split_plain {payload : List UInt8} (h : looksEnveloped payload = false) :
    split payload = none := by
  simp only [looksEnveloped, Bool.or_eq_false_iff, beq_eq_false_iff_ne, ne_eq] at h
  simp only [split, h.1, h.2, if_false]
  split
  · rfl
  · split
    · rfl
    · split <;> rfl

theorem blockLength_eq_zero : blockLength headers = 0 ↔ headers = [] := by
  cases headers with
  | nil => simp [blockLength]
  | cons header rest =>
    simp only [blockLength, List.map_cons, List.sum_cons, reduceCtorEq, iff_false]
    omega

theorem seal_plain {headers : HeaderMap} {payload : List UInt8}
    (h : blockLength headers.carried = 0 ∧ looksEnveloped payload = false) :
    sealRecord headers payload = .ok payload :=
  if_pos h

theorem seal_enveloped {headers : HeaderMap} {payload : List UInt8}
    (h : ¬ (blockLength headers.carried = 0 ∧ looksEnveloped payload = false)) :
    sealRecord headers payload = .ok (magic ++ fieldLen (blockLength headers.carried) ++
      headers.carried.flatMap putHeader ++ payload) :=
  if_neg h

theorem body_of_split {record : List UInt8} {block : Block} {start : Nat}
    (h : split record = some (block, start)) : body record = .within start record.length := by
  simp only [body, h]

theorem readHeaders_of_split {record block : List UInt8} {start : Nat} {found : Body}
    {read : HeaderMap} (h : split record = some (.fields block, start)) :
    readHeaders record found read = some (decodeFields block read) := by
  simp only [readHeaders, h]

theorem length_front : (magic ++ fieldLen n).length = prefixLength := rfl

/-- What reading finds in a record that was sealed with a block. -/
structure Enveloped (headers : HeaderMap) (payload record : List UInt8) : Prop where
  within : (body record).fit record.length =
    .within (prefixLength + blockLength headers.carried) record.length
  payload : ((body record).fit record.length).payload record = payload
  headers : ∀ found read, readHeaders record found read = some (read.insertAll headers.carried)

theorem enveloped {headers : HeaderMap} (payload : List UInt8)
    (h : blockLength headers.carried < 2 ^ 32) :
    Enveloped headers payload (magic ++ fieldLen (blockLength headers.carried) ++
      headers.carried.flatMap putHeader ++ payload) := by
  have htaken := taken_block (fits_of_blockLength h)
  have hsplit := split_enveloped payload (length_block.trans_lt h)
    (fieldsParse_of_taken htaken)
  rw [length_block] at hsplit
  generalize hr : magic ++ fieldLen (blockLength headers.carried) ++
    headers.carried.flatMap putHeader ++ payload = record at hsplit ⊢
  have hlen : record.length = prefixLength + blockLength headers.carried + payload.length := by
    rw [← hr, List.length_append, List.length_append, length_front, length_block]
  have hwithin : (body record).fit record.length =
      .within (prefixLength + blockLength headers.carried) record.length := by
    rw [body_of_split hsplit, Body.fit_within (by omega) (le_refl _)]
  refine ⟨hwithin, ?_, ?_⟩
  · have hdrop : record.drop (prefixLength + blockLength headers.carried) = payload := by
      rw [← hr]
      exact List.drop_left' (by rw [List.length_append, length_front, length_block])
    rw [hwithin, Body.payload_within (by omega) (le_refl _), List.take_length, hdrop]
  · intro found read
    rw [readHeaders_of_split hsplit, decodeFields_taken htaken]

theorem plain {payload : List UInt8} (h : looksEnveloped payload = false) :
    body payload = .whole ∧ ∀ found read, readHeaders payload found read = some read := by
  have hsplit := split_plain h
  constructor
  · simp only [body, hsplit]
  · intro found read
    simp only [readHeaders, hsplit]

end Rsk

/-- The default envelope. -/
def rsk : Envelope := ⟨Rsk.sealRecord, Rsk.body, Rsk.readHeaders⟩

@[simp] theorem rsk_sealRecord : rsk.sealRecord = Rsk.sealRecord := rfl
@[simp] theorem rsk_body : rsk.body = Rsk.body := rfl
@[simp] theorem rsk_readHeaders : rsk.readHeaders = Rsk.readHeaders := rfl

/-- A record sealed by the binary envelope reads back as what it was sealed from. -/
theorem rsk_round_trip (headers : HeaderMap) (payload : List UInt8)
    (h : Rsk.blockLength headers.carried < 2 ^ 32) :
    ∃ record, rsk.sealRecord headers payload = .ok record ∧
      ((rsk.body record).fit record.length).payload record = payload ∧
      ∃ read, rsk.readHeaders record ((rsk.body record).fit record.length) {} = some read ∧
        ∀ name, read.get name = if isNative name then none else headers.get name := by
  rw [rsk_sealRecord, rsk_body, rsk_readHeaders]
  by_cases hplain : Rsk.blockLength headers.carried = 0 ∧ Rsk.looksEnveloped payload = false
  · obtain ⟨hbody, hread⟩ := Rsk.plain hplain.2
    refine ⟨payload, Rsk.seal_plain hplain, ?_, {}, hread _ _, ?_⟩
    · rw [hbody]
      rfl
    · intro name
      rw [← headers.carried_lookup, Rsk.blockLength_eq_zero.mp hplain.1]
      rfl
  · have henveloped := Rsk.enveloped payload h
    refine ⟨_, Rsk.seal_enveloped hplain, henveloped.payload, _, henveloped.headers _ _, ?_⟩
    intro name
    rw [← headers.carried_lookup, HeaderMap.get, HeaderMap.insertAll_entries]
    · rfl
    · exact headers.carried_nodup

/-- A headerless payload that begins like an envelope. -/
theorem rsk_round_trip_magic : ∃ record, rsk.sealRecord {} [0x52, 0x53, 0x4B, 0x31, 7] = .ok record ∧
    ((rsk.body record).fit record.length).payload record = [0x52, 0x53, 0x4B, 0x31, 7] := by
  obtain ⟨record, hseal, hpayload, -⟩ := rsk_round_trip {} [0x52, 0x53, 0x4B, 0x31, 7] (by decide)
  exact ⟨record, hseal, hpayload⟩

end RuststreamKinesis
