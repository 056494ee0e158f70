import RuststreamKinesis.Rsk

/-!
# The grammar of the binary envelope

What `split` accepts (`envelope/rsk.rs`): the magic, the length of a block, the block. A binary
block is a sequence of entries, and both loops over it come to its end.
-/

namespace RuststreamKinesis

set_option autoImplicit false

open Bytes Items

namespace Rsk

/-- A length in four bytes, then the bytes. -/
def prefixed (bytes : List UInt8) : List UInt8 := be32 bytes.length ++ bytes

/-- An entry of a binary block. -/
def entry (header : String × List UInt8) : List UInt8 :=
  prefixed (asBytes header.1) ++ prefixed header.2

/-- A block that is the entries of the headers, one after the other. -/
structure Binary (block : List UInt8) (headers : List (String × List UInt8)) : Prop where
  entries : block = headers.flatMap entry
  fits : ∀ header ∈ headers, Fits header

/-- A record that is a magic, a block behind its length, and a rest. -/
structure Layout (magic record block : List UInt8) (start : Nat) : Prop where
  record : ∃ rest, record = magic ++ prefixed block ++ rest
  fits : block.length < 2 ^ 32
  start : start = 8 + block.length

variable {record data block field rest : List UInt8} {header : String × List UInt8}
variable {headers : List (String × List UInt8)} {n start : Nat}

theorem putHeader_entry (h : Fits header) : putHeader header = entry header := by
  simp only [putHeader, putField, fieldLen, if_pos h.1, if_pos h.2, entry, prefixed]

theorem readLen_only (h : readLen data = some (n, rest)) : data = be32 n ++ rest ∧ n < 2 ^ 32 := by
  unfold readLen at h
  split at h
  · rename_i a b c d tail
    obtain ⟨rfl, rfl⟩ := Prod.mk.inj (Option.some.inj h)
    rw [be32_ofBe32]
    exact ⟨rfl, ofBe32_lt a b c d⟩
  · cases h

theorem readLen_be32 (h : n < 2 ^ 32) : readLen (be32 n ++ rest) = some (n, rest) := by
  have hread : readLen (fieldLen n ++ rest) = some (n, rest) := readLen_fieldLen h
  rwa [fieldLen, if_pos h] at hread

theorem readField_only (h : readField data = some (field, rest)) :
    data = prefixed field ++ rest ∧ field.length < 2 ^ 32 := by
  unfold readField at h
  split at h
  · rename_i len tail hlen
    obtain ⟨rfl, hlt⟩ := readLen_only hlen
    split_ifs at h with hle
    obtain ⟨rfl, rfl⟩ := Prod.mk.inj (Option.some.inj h)
    have hlength : (tail.take len).length = len := by
      rw [List.length_take]
      omega
    rw [prefixed, hlength, List.append_assoc, List.take_append_drop]
    exact ⟨rfl, hlt⟩
  · cases h

theorem readHeader_only : ReadsOnly readHeader entry Fits := by
  intro block header rest h
  unfold readHeader at h
  split at h
  · cases h
  · rename_i name mid hname
    split at h
    · cases h
    · rename_i value tail hvalue
      obtain ⟨text, htext, h⟩ := Option.map_eq_some_iff.mp h
      cases h
      obtain ⟨rfl, hvaluelen⟩ := readField_only hvalue
      obtain ⟨rfl, hnamelen⟩ := readField_only hname
      obtain rfl := asBytes_of_fromUtf8 htext
      rw [entry, List.append_assoc]
      exact ⟨rfl, hnamelen, hvaluelen⟩

/-- Reading a block to its end is the same as its being entries. -/
theorem taken_iff_binary : Taken readHeader block headers [] ↔ Binary block headers := by
  constructor
  · intro h
    obtain ⟨hblock, hfits⟩ := readHeader_only.items h
    rw [List.append_nil] at hblock
    exact ⟨hblock, hfits⟩
  · rintro ⟨rfl, hfits⟩
    have hput : headers.flatMap entry = headers.flatMap putHeader := by
      apply List.flatMap_congr
      intro header hmem
      exact (putHeader_entry (hfits header hmem)).symm
    rw [hput]
    exact taken_block hfits

theorem fieldsParse_iff_binary :
    fieldsParse block = true ↔ ∃ headers, Binary block headers := by
  rw [fieldsParse_iff]
  exact exists_congr fun headers => taken_iff_binary

/-- What `split` asks of a record before it looks at the block. -/
theorem layout_iff {magic : List UInt8} (hmagic : magic.length = 4) :
    Layout magic record block start ↔
      4 ≤ record.length ∧ record.take 4 = magic ∧ start = prefixLength + block.length ∧
        ∃ tail, readLen (record.drop 4) = some (block.length, tail) ∧
          block.length ≤ tail.length ∧ block = tail.take block.length := by
  constructor
  · rintro ⟨⟨rest, rfl⟩, hfits, hstart⟩
    rw [List.append_assoc, prefixed, List.append_assoc]
    refine ⟨by simp [hmagic], List.take_left' hmagic, hstart, block ++ rest, ?_, by simp, by simp⟩
    rw [List.drop_left' hmagic]
    exact readLen_be32 hfits
  · rintro ⟨_, htake, hstart, tail, hlen, hle, hblock⟩
    obtain ⟨hdrop, hfits⟩ := readLen_only hlen
    refine ⟨⟨tail.drop block.length, ?_⟩, hfits, hstart⟩
    have htail : tail = block ++ tail.drop block.length := by
      conv_lhs => rw [← List.take_append_drop block.length tail, ← hblock]
    calc record = record.take 4 ++ record.drop 4 := (List.take_append_drop 4 record).symm
      _ = magic ++ (be32 block.length ++ tail) := by rw [htake, hdrop]
      _ = magic ++ prefixed block ++ tail.drop block.length := by
        rw [prefixed, List.append_assoc, List.append_assoc, ← htail]

theorem magic_ne_textMagic : magic ≠ textMagic := by decide

/-- What `split` has found when it answers. -/
theorem split_found {found : Block} (h : split record = some (found, start)) :
    4 ≤ record.length ∧ ∃ len tail, readLen (record.drop 4) = some (len, tail) ∧
      len ≤ tail.length ∧ start = prefixLength + len ∧
      ((record.take 4 = magic ∧ fieldsParse (tail.take len) = true ∧
          found = .fields (tail.take len)) ∨
        (record.take 4 = textMagic ∧ found = .text (tail.take len))) := by
  unfold split at h
  split at h
  · cases h
  rename_i hshort
  split at h
  · cases h
  rename_i len tail hlen
  split at h
  · cases h
  rename_i hle
  refine ⟨by omega, len, tail, hlen, by omega, ?_⟩
  dsimp only at h
  split at h
  · rename_i hmagic
    split at h
    · rename_i hparse
      obtain ⟨rfl, rfl⟩ := Prod.mk.inj (Option.some.inj h)
      exact ⟨rfl, Or.inl ⟨hmagic, hparse, rfl⟩⟩
    · cases h
  · split at h
    · rename_i htext
      obtain ⟨rfl, rfl⟩ := Prod.mk.inj (Option.some.inj h)
      exact ⟨rfl, Or.inr ⟨htext, rfl⟩⟩
    · cases h

theorem layout_of_found {magic tail : List UInt8} (hmagic : magic.length = 4)
    (hfour : 4 ≤ record.length) (htake : record.take 4 = magic)
    (hlen : readLen (record.drop 4) = some (n, tail)) (hle : n ≤ tail.length) :
    Layout magic record (tail.take n) (prefixLength + n) := by
  have hlength : (tail.take n).length = n := by
    rw [List.length_take]
    omega
  apply (layout_iff hmagic).mpr
  rw [hlength]
  exact ⟨hfour, htake, rfl, tail, hlen, hle, rfl⟩

theorem split_fields_iff : split record = some (.fields block, start) ↔
    Layout magic record block start ∧ fieldsParse block = true := by
  constructor
  · intro h
    obtain ⟨hfour, len, tail, hlen, hle, rfl, ⟨hmagic, hparse, hfound⟩ | ⟨_, hfound⟩⟩ :=
      split_found h
    · obtain rfl := Block.fields.inj hfound
      exact ⟨layout_of_found rfl hfour hmagic hlen hle, hparse⟩
    · cases hfound
  · rintro ⟨hlayout, hparse⟩
    obtain ⟨hfour, hmagic, rfl, tail, hlen, hle, hblock⟩ := (layout_iff rfl).mp hlayout
    simp only [split, if_neg (Nat.not_lt.mpr hfour), hlen, if_neg (Nat.not_lt.mpr hle),
      if_pos hmagic, ← hblock, if_pos hparse]

theorem split_text_iff : split record = some (.text block, start) ↔
    Layout textMagic record block start := by
  constructor
  · intro h
    obtain ⟨hfour, len, tail, hlen, hle, rfl, ⟨_, _, hfound⟩ | ⟨htext, hfound⟩⟩ := split_found h
    · cases hfound
    · obtain rfl := Block.text.inj hfound
      exact layout_of_found rfl hfour htext hlen hle
  · intro hlayout
    obtain ⟨hfour, htext, rfl, tail, hlen, hle, hblock⟩ := (layout_iff rfl).mp hlayout
    have hmagic : ¬ record.take 4 = magic := by
      rw [htext]
      exact magic_ne_textMagic.symm
    simp only [split, if_neg (Nat.not_lt.mpr hfour), hlen, if_neg (Nat.not_lt.mpr hle),
      if_neg hmagic, if_pos htext, ← hblock]

theorem Layout.start_le {magic : List UInt8} (hmagic : magic.length = 4)
    (h : Layout magic record block start) : start ≤ record.length := by
  obtain ⟨rest, hrecord⟩ := h.record
  rw [hrecord, h.start]
  simp only [List.length_append, hmagic, prefixed, length_be32]
  omega

/-! ### The slices and the loops -/

/-- `&data[from..]`: nothing stands for the panic of a slice out of range. -/
def slice (data : List UInt8) (start : Nat) : Option (List UInt8) :=
  if start ≤ data.length then some (data.drop start) else none

/-- `split` with the slice that is not checked; the outer `none` is a panic. -/
def splitSliced (record : List UInt8) : Option (Option (Block × Nat)) :=
  if record.length < 4 then some none
  else
    (slice record 4).map fun rest =>
      match readLen rest with
      | none => none
      | some (len, rest) =>
        if rest.length < len then none
        else
          let block := rest.take len
          let start := prefixLength + len
          if record.take 4 = magic then
            if fieldsParse block then some (.fields block, start) else none
          else if record.take 4 = textMagic then some (.text block, start)
          else none

theorem splitSliced_eq (record : List UInt8) : splitSliced record = some (split record) := by
  unfold splitSliced split
  split
  · rfl
  · rename_i hshort
    rw [slice, if_pos (by omega)]
    rfl

theorem length_entry : (entry header).length =
    2 * 4 + (asBytes header.1).length + header.2.length := by
  simp only [entry, prefixed, List.length_append, length_be32]
  omega

/-- A loop over a block comes to its end, after one turn for eight bytes at most. -/
theorem loop_ends (block : List UInt8) : ∃ headers rest, Taken readHeader block headers rest ∧
    8 * headers.length + rest.length ≤ block.length := by
  obtain ⟨headers, rest, htaken⟩ := readHeader_consumes.items block
  obtain ⟨rfl, -⟩ := readHeader_only.items htaken
  refine ⟨headers, rest, htaken, ?_⟩
  rw [List.length_append]
  have hentries : 8 * headers.length ≤ (headers.flatMap entry).length := by
    clear htaken
    induction headers with
    | nil => simp
    | cons header headers ih =>
      rw [List.flatMap_cons, List.length_append, length_entry, List.length_cons]
      omega
  omega

end Rsk

namespace HeaderMap

theorem lookup_put {name : String} {value : List UInt8} {entries : List (String × List UInt8)}
    (n : String) : (put name value entries).lookup n =
      if n = name then some value else entries.lookup n := by
  induction entries with
  | nil =>
    by_cases hn : n = name
    · simp [put, hn]
    · have hne : (n == name) = false := by simp [hn]
      simp only [put, List.lookup_cons, hne, if_neg hn]
  | cons entry rest ih =>
    obtain ⟨first, held⟩ := entry
    simp only [put]
    split_ifs with he hn hn
    · simp [hn]
    · have hne : (n == first) = false := by simp [he, hn]
      have hne' : (n == name) = false := by simp [hn]
      simp only [List.lookup_cons, hne, hne']
    · have hne : (n == first) = false := by simp [hn, Ne.symm he]
      simp only [List.lookup_cons, hne, ih, if_pos hn]
    · by_cases hentry : n = first
      · simp [hentry]
      · have hne : (n == first) = false := by simp [hentry]
        simp only [List.lookup_cons, hne, ih, if_neg hn]

/-- Of the entries inserted under a name the last one stays. -/
theorem get_insertAll (headers : HeaderMap) (entries : List (String × List UInt8))
    (name : String) : (headers.insertAll entries).get name =
      (entries.reverse.lookup name).or (headers.get name) := by
  induction entries generalizing headers with
  | nil => rfl
  | cons entry rest ih =>
    obtain ⟨first, held⟩ := entry
    have hinsert : headers.insertAll ((first, held) :: rest) =
        (headers.insert first held).insertAll rest := rfl
    rw [hinsert, ih, List.reverse_cons, List.lookup_append, Option.or_assoc]
    congr 1
    change (put first held headers.entries).lookup name = _
    rw [lookup_put]
    by_cases hn : name = first
    · simp [hn]
    · have hne : (name == first) = false := by simp [hn]
      simp [List.lookup_cons, hn, hne, get]

end HeaderMap

open Rsk in
/-- The reader accepts exactly its grammar. -/
theorem rsk_accepts_grammar (record : List UInt8) :
    (∀ block start, split record = some (.fields block, start) ↔
      Layout magic record block start ∧ ∃ headers, Binary block headers) ∧
    (∀ block headers, Binary block headers →
      Taken readHeader block headers [] ∧
        ∀ read, decodeFields block read = read.insertAll headers ∧
          ∀ name, (decodeFields block read).get name =
            (headers.reverse.lookup name).or (read.get name)) ∧
    (∀ block start, split record = some (.text block, start) ↔
      Layout textMagic record block start) ∧
    ((¬ ∃ block start headers, Layout magic record block start ∧ Binary block headers) →
      (¬ ∃ block start, Layout textMagic record block start) →
      body record = .whole ∧ ∀ found read, readHeaders record found read = some read) ∧
    splitSliced record = some (split record) ∧
    (∀ found start, split record = some (found, start) → start ≤ record.length) ∧
    (∀ block, ∃ headers rest, Taken readHeader block headers rest ∧
      8 * headers.length + rest.length ≤ block.length) := by
  refine ⟨?_, ?_, ?_, ?_, splitSliced_eq record, ?_, loop_ends⟩
  · intro block start
    rw [split_fields_iff, fieldsParse_iff_binary]
  · intro block headers hbinary
    have htaken := taken_iff_binary.mpr hbinary
    refine ⟨htaken, ?_⟩
    intro read
    have hdecode : decodeFields block read = read.insertAll headers := decodeFields_taken htaken
    refine ⟨hdecode, ?_⟩
    intro name
    rw [hdecode, HeaderMap.get_insertAll]
  · intro block start
    exact split_text_iff
  · intro hbinary htext
    have hnone : split record = none := by
      cases hsplit : split record with
      | none => rfl
      | some found =>
        obtain ⟨found, start⟩ := found
        cases found with
        | fields block =>
          obtain ⟨hlayout, hparse⟩ := split_fields_iff.mp hsplit
          obtain ⟨headers, hheaders⟩ := fieldsParse_iff_binary.mp hparse
          exact absurd ⟨block, start, headers, hlayout, hheaders⟩ hbinary
        | text block => exact absurd ⟨block, start, split_text_iff.mp hsplit⟩ htext
    constructor
    · simp only [body, hnone]
    · intro found read
      simp only [readHeaders, hnone]
  · intro found start hsplit
    cases found with
    | fields block => exact (split_fields_iff.mp hsplit).1.start_le rfl
    | text block => exact (split_text_iff.mp hsplit).start_le rfl

end RuststreamKinesis
