import Mathlib.Data.List.Permutation
import RuststreamKinesis.Lib.Msgpack
import RuststreamKinesis.Message

/-!
# The framed envelope in a binary codec

The provided methods of `FrameCodec` (`envelope/framed/binary.rs`). A codec is what serde's traits
ask of one, and all that is taken for granted of it is that a struct reads what it wrote.
-/

namespace RuststreamKinesis

set_option autoImplicit false

/-- What a struct is read from: the members of a map, or the elements of an array. -/
inductive Shown (Item : Type) where
  | members (found : List (Item × Item))
  | elements (found : List Item)

/-- The key of a member: the name of a field, or its place among them. -/
inductive FieldKey where
  | name (bytes : List UInt8)
  | place (n : Nat)

/-- What a publish writes into a field of the document. -/
inductive Written where
  | textMap (entries : List (String × String))
  | bytes (bytes : List UInt8)

/-- A codec of the framework, by what it does for the structs of a frame. An `Item` is a part of a
document that is not read yet. -/
structure Codec where
  Item : Type
  encode : List (String × Written) → Except CodecError (List UInt8)
  decode : List String → List UInt8 → Option (Shown Item)
  identifier : Item → Option FieldKey
  ignoredAny : Item → Bool
  map : Item → Option (List (Item × Item))
  string : Item → Option String
  byteBuf : Item → Option (List UInt8)

namespace Codec

/-- The field that a key stands for; of any other the struct is denied. -/
def fieldNamed (names : List String) : FieldKey → Option String
  | .name bytes => names.find? fun name => asBytes name = bytes
  | .place n => names[n]?

def fieldOf (codec : Codec) (names : List String) (key : codec.Item) : Option String :=
  (codec.identifier key).bind (fieldNamed names)

def named (codec : Codec) (names : List String) (member : codec.Item × codec.Item) :
    Option (String × codec.Item) :=
  (codec.fieldOf names member.1).map fun name => (name, member.2)

/-- What a derived struct that denies unknown fields finds. -/
def fieldsOf (codec : Codec) (names : List String) :
    Shown codec.Item → Option (List (String × codec.Item))
  | .members found => do
    let named ← found.mapM (codec.named names)
    if (named.map Prod.fst).Nodup then some named else none
  | .elements found => if found.length < names.length then none else some (names.zip found)

end Codec

namespace Binary

/-- The fields of `FrameOut`, and of the two structs that read a document. -/
def fields : List String := ["headers", "payload"]

/-- `TextHeaders`. -/
def textHeaders (headers : List (String × List UInt8)) : List (String × String) :=
  headers.map fun (name, value) => (name, (fromUtf8 value).getD "")

def frame (codec : Codec) (headers : List (String × List UInt8)) (payload : List UInt8) :
    Except EnvelopeError (List UInt8) :=
  (codec.encode [("headers", .textMap (textHeaders headers)), ("payload", .bytes payload)]).mapError
    .codec

/-- `FramePayload`. -/
def FramePayload.read (codec : Codec) (record : List UInt8) : Option (List UInt8) := do
  let shown ← codec.decode fields record
  let found ← codec.fieldsOf fields shown
  let headers ← found.lookup "headers"
  let payload ← found.lookup "payload"
  if codec.ignoredAny headers then codec.byteBuf payload else none

def ReadHeaders.entry (codec : Codec) (member : codec.Item × codec.Item) :
    Option (String × String) := do
  let name ← codec.string member.1
  let value ← codec.string member.2
  return (name, value)

def ReadHeaders.read (codec : Codec) (item : codec.Item) : Option (List (String × String)) := do
  let found ← codec.map item
  found.mapM (ReadHeaders.entry codec)

/-- `FrameHeaders`. -/
def FrameHeaders.read (codec : Codec) (record : List UInt8) : Option (List (String × String)) := do
  let shown ← codec.decode fields record
  let found ← codec.fieldsOf fields shown
  let headers ← found.lookup "headers"
  let payload ← found.lookup "payload"
  if codec.ignoredAny payload then ReadHeaders.read codec headers else none

def body (codec : Codec) (record : List UInt8) : Body :=
  match FramePayload.read codec record with
  | none => .whole
  | some payload => .decoded payload

def headers (codec : Codec) (record : List UInt8) (into : HeaderMap) : Option HeaderMap :=
  (FrameHeaders.read codec record).map fun found =>
    into.insertAll (found.map fun (name, value) => (name, asBytes value))

def sealRecord (codec : Codec) (headers : HeaderMap) (payload : List UInt8) :
    Except EnvelopeError (List UInt8) :=
  match headers.carried.find? fun (_, value) => (fromUtf8 value).isNone with
  | some (name, _) => .error (.headerNotText name)
  | none => frame codec headers.carried payload

def readHeaders (codec : Codec) (record : List UInt8) (body : Body) (into : HeaderMap) :
    Option HeaderMap :=
  if body = .whole then some into else headers codec record into

end Binary

/-- The envelope of a codec's documents. -/
def framedIn (codec : Codec) : Envelope :=
  ⟨Binary.sealRecord codec, Binary.body codec, Binary.readHeaders codec⟩

namespace Codec

/-- A map from text to text, and what its members say. -/
def TextMap (codec : Codec) (item : codec.Item) (pairs : List (String × String)) : Prop :=
  ∃ found, codec.map item = some found ∧ List.Forall₂ (fun member pair =>
    codec.string member.1 = some pair.1 ∧ codec.string member.2 = some pair.2) found pairs

/-- What is read of an item that something was written as. -/
inductive Reads (codec : Codec) (item : codec.Item) : Written → Prop where
  | textMap {entries : List (String × String)} : codec.ignoredAny item = true →
      codec.TextMap item entries → Reads codec item (.textMap entries)
  | bytes {bytes : List UInt8} : codec.ignoredAny item = true →
      codec.byteBuf item = some bytes → Reads codec item (.bytes bytes)

/-- A struct is shown as it was written, as a map of its fields or as an array of them. -/
inductive Shows (codec : Codec) (written : List (String × Written)) : Shown codec.Item → Prop where
  | members {found : List (codec.Item × codec.Item)} :
      List.Forall₂ (fun member field =>
        codec.identifier member.1 = some (.name (asBytes field.1)) ∧
          codec.Reads member.2 field.2) found written →
      Shows codec written (.members found)
  | elements {found : List codec.Item} :
      List.Forall₂ (fun item field => codec.Reads item field.2) found written →
      Shows codec written (.elements found)

/-- A struct reads what it was written as, in a document that a record can hold. -/
def Keeps (codec : Codec) : Prop :=
  ∀ (written : List (String × Written)) (data : List UInt8), codec.encode written = .ok data →
    data.length ≤ maxRecord →
      ∃ shown, codec.decode (written.map Prod.fst) data = some shown ∧ codec.Shows written shown

end Codec

namespace Binary

variable {codec : Codec} {record payload : List UInt8}

/-- The two fields that both structs find in a record. -/
def Opened (codec : Codec) (record : List UInt8) (headers payload : codec.Item) : Prop :=
  ∃ shown found, codec.decode fields record = some shown ∧
    codec.fieldsOf fields shown = some found ∧ found.lookup "headers" = some headers ∧
    found.lookup "payload" = some payload

theorem framePayload_read : FramePayload.read codec record = some payload ↔
    ∃ headers held, Opened codec record headers held ∧ codec.ignoredAny headers = true ∧
      codec.byteBuf held = some payload := by
  constructor
  · intro h
    obtain ⟨shown, hshown, h⟩ := Option.bind_eq_some_iff.mp h
    obtain ⟨found, hfound, h⟩ := Option.bind_eq_some_iff.mp h
    obtain ⟨headers, hheaders, h⟩ := Option.bind_eq_some_iff.mp h
    obtain ⟨held, hheld, h⟩ := Option.bind_eq_some_iff.mp h
    split_ifs at h with hskip
    exact ⟨headers, held, ⟨shown, found, hshown, hfound, hheaders, hheld⟩, hskip, h⟩
  · rintro ⟨headers, held, ⟨shown, found, hshown, hfound, hheaders, hheld⟩, hskip, h⟩
    simp [FramePayload.read, hshown, hfound, hheaders, hheld, hskip, h]

theorem frameHeaders_read {headers held : codec.Item} (h : Opened codec record headers held) :
    FrameHeaders.read codec record =
      if codec.ignoredAny held = true then ReadHeaders.read codec headers else none := by
  obtain ⟨shown, found, hshown, hfound, hheaders, hheld⟩ := h
  simp [FrameHeaders.read, hshown, hfound, hheaders, hheld]

theorem readEntry_eq_some {member : codec.Item × codec.Item} {pair : String × String} :
    ReadHeaders.entry codec member = some pair ↔
      codec.string member.1 = some pair.1 ∧ codec.string member.2 = some pair.2 := by
  obtain ⟨name, value⟩ := pair
  simp only [ReadHeaders.entry, Option.bind_eq_bind, Option.bind_eq_some_iff, Option.pure_def,
    Option.some.injEq, Prod.mk.injEq]
  constructor
  · rintro ⟨_, hname, _, hvalue, rfl, rfl⟩
    exact ⟨hname, hvalue⟩
  · rintro ⟨hname, hvalue⟩
    exact ⟨name, hname, value, hvalue, rfl, rfl⟩

theorem readHeaders_textMap {item : codec.Item} {pairs : List (String × String)} :
    ReadHeaders.read codec item = some pairs ↔ codec.TextMap item pairs := by
  have hsame : ∀ found : List (codec.Item × codec.Item),
      found.map (ReadHeaders.entry codec) = pairs.map some ↔
        List.Forall₂ (fun member pair => codec.string member.1 = some pair.1 ∧
          codec.string member.2 = some pair.2) found pairs := by
    intro found
    rw [← List.forall₂_eq_eq_eq, List.forall₂_map_left_iff, List.forall₂_map_right_iff]
    simp only [readEntry_eq_some]
  constructor
  · intro h
    obtain ⟨found, hmap, hfound⟩ := Option.bind_eq_some_iff.mp h
    exact ⟨found, hmap, (hsame found).mp (Fields.mapM_eq_some_iff.mp hfound)⟩
  · rintro ⟨found, hmap, hfound⟩
    have hread := Fields.mapM_eq_some_iff.mpr ((hsame found).mpr hfound)
    exact Option.bind_eq_some_iff.mpr ⟨found, hmap, hread⟩

end Binary

section Trip

variable {codec : Codec} {headers : List (String × List UInt8)} {payload data : List UInt8}

theorem fieldNamed_headers : Codec.fieldNamed Binary.fields (.name (asBytes "headers")) =
    some "headers" := by decide

theorem fieldNamed_payload : Codec.fieldNamed Binary.fields (.name (asBytes "payload")) =
    some "payload" := by decide

/-- A frame is written by the codec, or not at all and for the codec's own reason. -/
theorem frame_eq_ok : Binary.frame codec headers payload = .ok data ↔
    codec.encode [("headers", .textMap (Binary.textHeaders headers)),
      ("payload", .bytes payload)] = .ok data := by
  rw [Binary.frame]
  cases codec.encode _ with
  | error error =>
    constructor
    · intro h
      cases h
    · intro h
      cases h
  | ok written => simp only [Except.mapError, Except.ok.injEq]

/-- A frame that was written opens, with what was written in its fields. -/
theorem frame_opened (hkeeps : codec.Keeps)
    (h : Binary.frame codec headers payload = .ok data) (hlen : data.length ≤ maxRecord) :
    ∃ map held, Binary.Opened codec data map held ∧
      codec.Reads map (.textMap (Binary.textHeaders headers)) ∧
      codec.Reads held (.bytes payload) := by
  obtain ⟨shown, hdecode, hshows⟩ := hkeeps _ data (frame_eq_ok.mp h) hlen
  cases hshows with
  | members h =>
    obtain _ | ⟨⟨hfirst, hmap⟩, _ | ⟨⟨hsecond, hheld⟩, _ | _⟩⟩ := h
    rename_i first second
    refine ⟨first.2, second.2, ⟨_, [("headers", first.2), ("payload", second.2)], hdecode, ?_, rfl,
      rfl⟩, hmap, hheld⟩
    simp [Codec.fieldsOf, Codec.named, Codec.fieldOf, hfirst, hsecond, fieldNamed_headers,
      fieldNamed_payload]
  | elements h =>
    obtain _ | ⟨hmap, _ | ⟨hheld, _ | _⟩⟩ := h
    exact ⟨_, _, ⟨_, _, hdecode, rfl, rfl, rfl⟩, hmap, hheld⟩

/-- It is read as the payload and as the headers it was written of. -/
theorem frame_read_back (hkeeps : codec.Keeps)
    (h : Binary.frame codec headers payload = .ok data) (hlen : data.length ≤ maxRecord) :
    Binary.FramePayload.read codec data = some payload ∧
      Binary.FrameHeaders.read codec data = some (Binary.textHeaders headers) := by
  obtain ⟨map, held, hopened, hmap, hheld⟩ := frame_opened hkeeps h hlen
  cases hmap with
  | textMap hskip htext =>
    cases hheld with
    | bytes hpass hbytes =>
      constructor
      · exact Binary.framePayload_read.mpr ⟨map, held, hopened, hskip, hbytes⟩
      · rw [Binary.frameHeaders_read hopened, if_pos hpass]
        exact Binary.readHeaders_textMap.mpr htext

theorem framedIn_seal {headers : HeaderMap}
    (h : (framedIn codec).sealRecord headers payload = .ok data) :
    Binary.frame codec headers.carried payload = .ok data ∧
      ∀ entry ∈ headers.carried, ∃ s, asBytes s = entry.2 := by
  change Binary.sealRecord codec headers payload = _ at h
  unfold Binary.sealRecord at h
  split at h
  · cases h
  · rename_i hfind
    exact ⟨h, text_of_find_none hfind⟩

/-- The documents of a binary codec are a lawful layout, whether the codec writes a struct as a map
or as an array. -/
theorem framedIn_lawful (hkeeps : codec.Keeps) : (framedIn codec).Lawful where
  carried headers headers' payload h := by
    change Binary.sealRecord codec headers payload = Binary.sealRecord codec headers' payload
    simp only [Binary.sealRecord, h]
  body headers payload data h hlen := by
    obtain ⟨hframe, -⟩ := framedIn_seal h
    have hread := (frame_read_back hkeeps hframe hlen).1
    simp only [framedIn, Binary.body, hread]
    rfl
  headers headers payload data h hlen := by
    obtain ⟨hframe, hbytes⟩ := framedIn_seal h
    obtain ⟨hpayload, hheaders⟩ := frame_read_back hkeeps hframe hlen
    refine ⟨({} : HeaderMap).insertAll headers.carried, ?_, insertAll_carried headers⟩
    simp only [framedIn, Binary.body, hpayload, Binary.readHeaders, Body.fit, reduceCtorEq,
      if_false, Binary.headers, hheaders, Option.map_some, Binary.textHeaders,
      textHeaders_bytes hbytes]

end Trip

/-! Which documents are frames -/

/-- A map of the two fields in either order, or an array that begins with them. -/
inductive Codec.HasFields (codec : Codec) (headers held : codec.Item) :
    Shown codec.Item → Prop where
  | members {found : List (codec.Item × codec.Item)} {first second : codec.Item} :
      found.Perm [(first, headers), (second, held)] →
      codec.fieldOf Binary.fields first = some "headers" →
      codec.fieldOf Binary.fields second = some "payload" →
      HasFields codec headers held (.members found)
  | elements {rest : List codec.Item} :
      HasFields codec headers held (.elements (headers :: held :: rest))

section Shape

variable {codec : Codec} {names : List String} {record : List UInt8}
variable {headers held : codec.Item} {found : List (codec.Item × codec.Item)}
variable {named : List (String × codec.Item)}

theorem named_eq_some {member : codec.Item × codec.Item} {name : String} {item : codec.Item} :
    codec.named names member = some (name, item) ↔
      codec.fieldOf names member.1 = some name ∧ member.2 = item := by
  rw [Codec.named, Option.map_eq_some_iff]
  constructor
  · rintro ⟨_, hname, heq⟩
    obtain ⟨rfl, rfl⟩ := Prod.mk.inj heq
    exact ⟨hname, rfl⟩
  · rintro ⟨hname, rfl⟩
    exact ⟨name, hname, rfl⟩

theorem fieldsOf_members : codec.fieldsOf names (.members found) = some named ↔
    found.map (codec.named names) = named.map some ∧ (named.map Prod.fst).Nodup := by
  rw [← Fields.mapM_eq_some_iff]
  constructor
  · intro h
    obtain ⟨read, hread, h⟩ := Option.bind_eq_some_iff.mp h
    split_ifs at h with hnodup
    obtain rfl := Option.some.inj h
    exact ⟨hread, hnodup⟩
  · rintro ⟨hread, hnodup⟩
    exact Option.bind_eq_some_iff.mpr ⟨named, hread, if_pos hnodup⟩

theorem fieldOf_mem {key : codec.Item} {name : String} (h : codec.fieldOf names key = some name) :
    name ∈ names := by
  obtain ⟨field, -, hfield⟩ := Option.bind_eq_some_iff.mp h
  cases field with
  | name bytes => exact List.mem_of_find?_eq_some hfield
  | place n => exact List.mem_of_getElem? hfield

/-- Fields that are named, each once and both of them there, are the two in some order. -/
theorem named_perm (h : found.map (codec.named Binary.fields) = named.map some)
    (hnodup : (named.map Prod.fst).Nodup) (hheaders : named.lookup "headers" = some headers)
    (hheld : named.lookup "payload" = some held) :
    named.Perm [("headers", headers), ("payload", held)] := by
  have hsub : ∀ name ∈ named.map Prod.fst, name ∈ Binary.fields := by
    intro name hname
    obtain ⟨⟨_, item⟩, hmem, rfl⟩ := List.mem_map.mp hname
    have hsome : some (_, item) ∈ found.map (codec.named Binary.fields) :=
      h ▸ List.mem_map_of_mem hmem
    obtain ⟨member, -, hmember⟩ := List.mem_map.mp hsome
    exact fieldOf_mem (named_eq_some.mp hmember).1
  have hperm := Fields.perm_filterMap hnodup (by decide : Binary.fields.Nodup) hsub
  simpa [Binary.fields, hheaders, hheld] using hperm

theorem opened_iff : Binary.Opened codec record headers held ↔
    ∃ shown, codec.decode Binary.fields record = some shown ∧
      codec.HasFields headers held shown := by
  constructor
  · rintro ⟨shown, named, hshown, hnamed, hheaders, hheld⟩
    refine ⟨shown, hshown, ?_⟩
    cases shown with
    | members found =>
      obtain ⟨hread, hnodup⟩ := fieldsOf_members.mp hnamed
      rcases List.perm_pair.mp (named_perm hread hnodup hheaders hheld) with rfl | rfl
      · obtain ⟨first, rest, rfl, hfirst, hrest⟩ := List.map_eq_cons_iff.mp hread
        obtain ⟨second, rest, rfl, hsecond, hrest⟩ := List.map_eq_cons_iff.mp hrest
        obtain rfl := List.map_eq_nil_iff.mp hrest
        obtain ⟨hhead, rfl⟩ := named_eq_some.mp hfirst
        obtain ⟨htail, rfl⟩ := named_eq_some.mp hsecond
        exact .members (.refl _) hhead htail
      · obtain ⟨second, rest, rfl, hsecond, hrest⟩ := List.map_eq_cons_iff.mp hread
        obtain ⟨first, rest, rfl, hfirst, hrest⟩ := List.map_eq_cons_iff.mp hrest
        obtain rfl := List.map_eq_nil_iff.mp hrest
        obtain ⟨hhead, rfl⟩ := named_eq_some.mp hfirst
        obtain ⟨htail, rfl⟩ := named_eq_some.mp hsecond
        exact .members (.swap _ _ _) hhead htail
    | elements found =>
      match found with
      | [] => cases hnamed
      | [_] => cases hnamed
      | first :: second :: rest =>
        obtain rfl : [("headers", first), ("payload", second)] = named := by
          simpa [Codec.fieldsOf, Binary.fields] using hnamed
        obtain rfl := Option.some.inj hheaders
        obtain rfl := Option.some.inj hheld
        exact .elements
  · rintro ⟨shown, hshown, hfields⟩
    cases hfields with
    | members hperm hfirst hsecond =>
      rcases List.perm_pair.mp hperm with rfl | rfl
      · refine ⟨_, [("headers", headers), ("payload", held)], hshown, ?_, rfl, rfl⟩
        exact fieldsOf_members.mpr ⟨by simp [Codec.named, hfirst, hsecond], by simp⟩
      · refine ⟨_, [("payload", held), ("headers", headers)], hshown, ?_, rfl, rfl⟩
        exact fieldsOf_members.mpr ⟨by simp [Codec.named, hfirst, hsecond], by simp⟩
    | elements =>
      refine ⟨_, [("headers", headers), ("payload", held)], hshown, ?_, rfl, rfl⟩
      simp [Codec.fieldsOf, Binary.fields]

/-- A record whose document has the two fields: the headers pass as anything at all, and the payload
is what the codec reads as bytes. -/
def Codec.IsFrame (codec : Codec) (record : List UInt8) (headers held : codec.Item)
    (payload : List UInt8) : Prop :=
  (∃ shown, codec.decode Binary.fields record = some shown ∧ codec.HasFields headers held shown) ∧
    codec.ignoredAny headers = true ∧ codec.byteBuf held = some payload

/-- What the reader of a codec's documents does with a record. -/
structure Codec.ReadsFrames (codec : Codec) (record : List UInt8) : Prop where
  frame : ∀ payload, (framedIn codec).body record = .decoded payload ↔
    ∃ headers held, codec.IsFrame record headers held payload
  headers : ∀ headers held payload, codec.IsFrame record headers held payload → ∀ into read,
    (framedIn codec).readHeaders record ((framedIn codec).body record) into = some read ↔
      codec.ignoredAny held = true ∧ ∃ pairs, codec.TextMap headers pairs ∧
        read = into.insertAll (pairs.map fun (name, text) => (name, asBytes text))
  whole : (∀ headers held payload, ¬codec.IsFrame record headers held payload) →
    (framedIn codec).body record = .whole ∧
      ∀ into, (framedIn codec).readHeaders record .whole into = some into

theorem isFrame_iff {payload : List UInt8} :
    (∃ headers held, codec.IsFrame record headers held payload) ↔
      Binary.FramePayload.read codec record = some payload := by
  rw [Binary.framePayload_read]
  simp only [Codec.IsFrame, opened_iff]

/-- A record is a frame in exactly one shape, whatever the codec: its payload is then read, and its
headers where they are a map from text to text. Any other record is delivered whole. -/
theorem framedIn_readsFrames (codec : Codec) (record : List UInt8) :
    codec.ReadsFrames record where
  frame payload := by
    rw [isFrame_iff]
    simp only [framedIn, Binary.body]
    split
    · rename_i hread
      simp [hread]
    · rename_i hread
      simp [hread]
  headers headers held payload h into read := by
    have hread := isFrame_iff.mp ⟨headers, held, h⟩
    have hopened := opened_iff.mpr h.1
    simp only [framedIn, Binary.body, hread, Binary.readHeaders, reduceCtorEq, if_false,
      Binary.headers, Binary.frameHeaders_read hopened, Option.map_eq_some_iff]
    constructor
    · rintro ⟨pairs, hpairs, rfl⟩
      split_ifs at hpairs with hpass
      exact ⟨hpass, pairs, Binary.readHeaders_textMap.mp hpairs, rfl⟩
    · rintro ⟨hpass, pairs, hpairs, rfl⟩
      exact ⟨pairs, by rw [if_pos hpass]; exact Binary.readHeaders_textMap.mpr hpairs, rfl⟩
  whole h := by
    have hread : Binary.FramePayload.read codec record = none := by
      apply Option.eq_none_iff_forall_ne_some.mpr
      intro payload hread
      obtain ⟨headers, held, hframe⟩ := isFrame_iff.mpr hread
      exact h headers held payload hframe
    constructor
    · simp only [framedIn, Binary.body, hread]
    · intro into
      change Binary.readHeaders codec record .whole into = _
      exact if_pos rfl

end Shape

/-! A codec that keeps what it writes -/

section MessagePack

open Msgpack

def writeText (text : String) : List UInt8 := writeStr (asBytes text)

def Written.item : Written → List UInt8
  | .textMap entries => writeMap (entries.map fun (name, text) => (writeText name, writeText text))
  | .bytes data => writeBin data

/-- The bytes of a string or of a byte string. -/
def readBytes (item : List UInt8) : Option (List UInt8) :=
  match readBin item with
  | some bytes => some bytes
  | none => readStr item

/-- A byte that is written as a number. -/
def readByte (item : List UInt8) : Option UInt8 :=
  (readNatural item).bind fun n => if n < 256 then some n.toUInt8 else none

/-- MessagePack as `MsgpackCodec` writes and reads it: a struct is written as the array of its
fields, and read from a map of them too. How deep an item may nest is left out. -/
def msgpack : Codec where
  Item := List UInt8
  encode written := .ok (writeArray (written.map fun field => field.2.item))
  decode names record :=
    match readMap record with
    | some found => some (.members found)
    | none =>
      match readArray record with
      | some found => if found.length ≤ names.length then some (.elements found) else none
      | none => none
  identifier item :=
    match readBytes item with
    | some bytes => some (.name bytes)
    | none => (readUnsigned item).map .place
  ignoredAny _ := true
  map := readMap
  string item := (readBytes item).bind fromUtf8
  byteBuf item :=
    match readBytes item with
    | some bytes => some bytes
    | none => (readArray item).bind fun found => found.mapM readByte

example : Binary.frame msgpack [("a", [0x31])] [8, 7] =
    .ok ([0x92, 0x81] ++ writeText "a" ++ writeText "1" ++ [0xC4, 2, 8, 7]) := by rfl

variable {text : String} {field : Written}

theorem readBytes_writeBin {bytes : List UInt8} (h : bytes.length < 2 ^ 32) :
    readBytes (writeBin bytes) = some bytes := by
  simp only [readBytes, readBin_writeBin h]

theorem readBytes_writeStr {bytes : List UInt8} (h : bytes.length < 2 ^ 32) :
    readBytes (writeStr bytes) = some bytes := by
  have hbin : readBin (writeStr bytes) = none := by
    simp only [readBin, writeStr, readHead_str h]
  simp only [readBytes, hbin, readStr_writeStr h]

theorem isItem_writeText (h : (writeText text).length < 2 ^ 32) : IsItem (writeText text) :=
  isItem_writeStr ((length_writeStr (asBytes text)).trans_lt h)

theorem string_writeText (h : (writeText text).length < 2 ^ 32) :
    msgpack.string (writeText text) = some text := by
  have hread := readBytes_writeStr ((length_writeStr (asBytes text)).trans_lt h)
  simp only [msgpack, writeText, hread, Option.bind_some, fromUtf8_asBytes]

/-- A map of texts is one item, and is read as the texts it was written of. -/
theorem textMap_item {entries : List (String × String)}
    (h : (Written.textMap entries).item.length < 2 ^ 32) :
    IsItem (Written.textMap entries).item ∧
      msgpack.TextMap (Written.textMap entries).item entries := by
  simp only [Written.item] at h ⊢
  have hshort : ∀ entry ∈ entries, (writeText entry.1).length < 2 ^ 32 ∧
      (writeText entry.2).length < 2 ^ 32 := by
    intro entry hentry
    have hmember := List.mem_map_of_mem (f := fun entry => (writeText entry.1, writeText entry.2))
      hentry
    have hsum := (length_member hmember).trans_lt h
    dsimp only at hsum
    omega
  have hitems : ∀ member ∈ entries.map fun entry => (writeText entry.1, writeText entry.2),
      IsItem member.1 ∧ IsItem member.2 := by
    intro member hmember
    obtain ⟨entry, hentry, rfl⟩ := List.mem_map.mp hmember
    obtain ⟨hname, htext⟩ := hshort entry hentry
    exact ⟨isItem_writeText hname, isItem_writeText htext⟩
  have hcount := (length_members fun member hmember => (hitems member hmember).1.ne_nil).trans_lt h
  refine ⟨isItem_writeMap hitems hcount, _, readMap_writeMap hitems hcount, ?_⟩
  apply List.forall₂_map_left_iff.mpr
  apply List.forall₂_same.mpr
  intro entry hentry
  obtain ⟨hname, htext⟩ := hshort entry hentry
  exact ⟨string_writeText hname, string_writeText htext⟩

theorem written_item (h : field.item.length < 2 ^ 32) :
    IsItem field.item ∧ msgpack.Reads field.item field := by
  cases field with
  | bytes data =>
    have hlen : data.length < 2 ^ 32 := (length_writeBin data).trans_lt h
    refine ⟨isItem_writeBin hlen, .bytes rfl ?_⟩
    simp only [msgpack, Written.item, readBytes_writeBin hlen]
  | textMap entries =>
    obtain ⟨hitem, htext⟩ := textMap_item h
    exact ⟨hitem, .textMap rfl htext⟩

theorem readMap_writeArray {found : List (List UInt8)} (h : found.length < 2 ^ 32) :
    readMap (writeArray found) = none := by
  simp only [readMap, writeArray, readHead_array h]

theorem msgpack_keeps : msgpack.Keeps := by
  intro written data hencode hlen
  obtain rfl := Except.ok.inj hencode
  have hlt : (writeArray (written.map fun field => field.2.item)).length < 2 ^ 32 := by
    simp only [maxRecord] at hlen
    omega
  have hread : ∀ field ∈ written, IsItem field.2.item ∧ msgpack.Reads field.2.item field.2 := by
    intro field hfield
    exact written_item ((length_item (List.mem_map_of_mem hfield)).trans_lt hlt)
  have hitems : ∀ item ∈ written.map fun field => field.2.item, IsItem item := by
    intro item hitem
    obtain ⟨field, hfield, rfl⟩ := List.mem_map.mp hitem
    exact (hread field hfield).1
  have hcount := (length_items fun item hitem => (hitems item hitem).ne_nil).trans_lt hlt
  refine ⟨.elements (written.map fun field => field.2.item), ?_, .elements ?_⟩
  · simp only [msgpack, readMap_writeArray hcount, readArray_writeArray hitems hcount,
      List.length_map, Nat.le_refl, if_true]
  · apply List.forall₂_map_left_iff.mpr
    apply List.forall₂_same.mpr
    intro field hfield
    exact (hread field hfield).2

end MessagePack

theorem framedIn_lawful_msgpack : (framedIn msgpack).Lawful := framedIn_lawful msgpack_keeps

end RuststreamKinesis
