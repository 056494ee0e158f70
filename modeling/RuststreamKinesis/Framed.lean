import RuststreamKinesis.Envelope
import RuststreamKinesis.Lib.Base64
import RuststreamKinesis.Lib.Compact
import RuststreamKinesis.Lib.Fields
import RuststreamKinesis.Lib.Json
import RuststreamKinesis.Text

/-!
# The framed envelope as a JSON document

What the reader takes for a frame is what two derived structs take from a document. It is compared
here with the shape that a frame is documented to have.
-/

namespace RuststreamKinesis

open Json

set_option autoImplicit false

/-- What a derived struct that denies unknown fields finds: the members of an object, or the
elements of an array in the order of the fields. -/
def fieldsOf (names : List String) (place : Place) : Option (List (String × Place)) :=
  match place.named with
  | some found =>
    if (found.map Prod.fst).Nodup ∧ ∀ name ∈ found.map Prod.fst, name ∈ names then some found
    else none
  | none =>
    match place.elements with
    | some elements => if elements.length ≤ names.length then some (names.zip elements) else none
    | none => none

/-- A field with a default. -/
def fieldOr {α : Type} (found : List (String × Place)) (name : String)
    (read : Place → Option (Option α)) : Option (Option α) :=
  match found.lookup name with
  | none => some none
  | some place => read place

/-- The text of a value, verbatim, where it is UTF-8: `RawValue`. -/
def present (place : Place) : Option (Option Place) :=
  (fromUtf8 place.value.text).map fun _ => some place

/-- `Option<Cow<str>>`: `null` is none. -/
def optionText (place : Place) : Option (Option String) :=
  if place.value.text = Json.null then some none else place.value.asText.map some

def frameFields : List String := ["headers", "payload", "payload_base64"]

/-- A document read for its payload. -/
structure Frame where
  payload : Option Place
  payloadBase64 : Option String

def Frame.read (place : Place) : Option Frame := do
  let found ← fieldsOf frameFields place
  let _ ← found.lookup "headers"
  let payload ← fieldOr found "payload" present
  let payloadBase64 ← fieldOr found "payload_base64" optionText
  return ⟨payload, payloadBase64⟩

/-- The header map of a frame, in the order the document lists it. -/
def ReadHeaders.read (place : Place) : Option (List (String × String)) := do
  let found ← place.named
  found.mapM fun (name, value) => value.value.asText.map fun text => (name, text)

/-- A frame read for its header map, the payload fields skipped over. -/
def FrameHeaders.read (place : Place) : Option (List (String × String)) := do
  let found ← fieldsOf frameFields place
  let headers ← found.lookup "headers"
  ReadHeaders.read headers

/-- `serde_json::from_slice`. -/
def fromSlice {α : Type} (read : Place → Option α) (record : List UInt8) : Option α := do
  let document ← Json.parse record
  read document.root

namespace Framed

/-- `JsonCodec::frame_body`. -/
def body (record : List UInt8) : Body :=
  match fromSlice Frame.read record with
  | none => .whole
  | some ⟨some value, none⟩ => .within value.start (value.start + value.value.text.length)
  | some ⟨none, some encoded⟩ =>
    match Base64.decode (asBytes encoded) with
    | none => .whole
    | some bytes => .decoded bytes
  | some _ => .whole

/-- `JsonCodec::frame_headers`. -/
def frameHeaders (record : List UInt8) (headers : HeaderMap) : Option HeaderMap :=
  (fromSlice FrameHeaders.read record).map fun found =>
    headers.insertAll (found.map fun (name, value) => (name, asBytes value))

def readHeaders (record : List UInt8) (body : Body) (headers : HeaderMap) : Option HeaderMap :=
  if body = .whole then some headers else frameHeaders record headers

end Framed

/-! The documented shape -/

/-- What a payload field holds: a value where it lies, or the bytes that base64 names. -/
inductive Held where
  | value (place : Place)
  | decoded (bytes : List UInt8)

namespace Held

def payload : Held → List UInt8
  | .value place => place.value.text
  | .decoded bytes => bytes

def body : Held → Body
  | .value place => .within place.start (place.start + place.value.text.length)
  | .decoded bytes => .decoded bytes

/-- A value is read in place where its text is UTF-8. -/
def IsText : Held → Prop
  | .value place => ∃ s, asBytes s = place.value.text
  | .decoded _ => True

end Held

/-- An object with exactly the members `headers` and one of the two payload fields. -/
inductive Shaped (place headers : Place) : Held → Prop where
  | embedded {found : List (String × Place)} {payload : Place} : place.named = some found →
      found.Perm [("headers", headers), ("payload", payload)] →
      Shaped place headers (.value payload)
  | encoded {found : List (String × Place)} {payload : Place} {text : String}
      {bytes : List UInt8} : place.named = some found →
      found.Perm [("headers", headers), ("payload_base64", payload)] →
      payload.value.asText = some text → Base64.encode bytes = asBytes text →
      Shaped place headers (.decoded bytes)

/-- A frame as it is documented: a JSON text in UTF-8 of that shape. -/
def IsFrame (record : List UInt8) (headers : Place) (held : Held) : Prop :=
  (∃ s, asBytes s = record) ∧
    ∃ document : Document, document.text = record ∧ Shaped document.root headers held

/-- An object whose values are all strings, and what its members say. -/
def TextMap (place : Place) (pairs : List (String × String)) : Prop :=
  ∃ found, place.named = some found ∧
    found.map (fun (name, value) => (name, value.value.asText)) =
      pairs.map fun (name, text) => (name, some text)

/-- What the reader of frames is documented to do with a record. -/
structure AsDocumented (record : List UInt8) : Prop where
  frame : Framed.body record ≠ .whole ↔ ∃ headers held, IsFrame record headers held
  payload : ∀ headers held, IsFrame record headers held →
    Framed.body record = held.body ∧ (Framed.body record).payload record = held.payload
  headers : ∀ headers held, IsFrame record headers held → ∀ into read,
    Framed.readHeaders record (Framed.body record) into = some read ↔
      ∃ pairs, TextMap headers pairs ∧
        read = into.insertAll (pairs.map fun (name, text) => (name, asBytes text))
  whole : (¬∃ headers held, IsFrame record headers held) →
    (Framed.body record).payload record = record ∧
      ∀ into, Framed.readHeaders record (Framed.body record) into = some into

/-- A document of another shape that is read as a frame all the same. -/
inductive Misshaped (place headers : Place) : Held → Prop where
  /-- An array is read field by field. -/
  | pair {payload : Place} : place.elements = some [headers, payload] →
      Misshaped place headers (.value payload)
  | triple {payload encoded : Place} : place.elements = some [headers, payload, encoded] →
      encoded.value.text = Json.null → Misshaped place headers (.value payload)
  /-- A `payload_base64` that is `null` is read as none. -/
  | beside {found : List (String × Place)} {payload encoded : Place} :
      place.named = some found →
      found.Perm [("headers", headers), ("payload", payload), ("payload_base64", encoded)] →
      encoded.value.text = Json.null → Misshaped place headers (.value payload)

/-- A record that is read as a frame and is none: of another shape, or with bytes that are no
UTF-8 where the reader only skips them. -/
def Misread (record : List UInt8) : Prop :=
  ∃ (document : Document) (headers : Place) (held : Held), document.text = record ∧
    held.IsText ∧ (Misshaped document.root headers held ∨
      Shaped document.root headers held ∧ ¬∃ s, asBytes s = record)

section Fields

variable {names : List String} {place : Place} {found other : List (String × Place)}
variable {elements : List Place}

theorem fieldsOf_named (hnamed : place.named = some found) (hperm : found.Perm other)
    (hnodup : (other.map Prod.fst).Nodup) (hsub : ∀ name ∈ other.map Prod.fst, name ∈ names) :
    fieldsOf names place = some found := by
  have hfound : (found.map Prod.fst).Nodup := (hperm.map Prod.fst).nodup_iff.mpr hnodup
  simp only [fieldsOf, hnamed]
  exact if_pos ⟨hfound, fun name hname => hsub name ((hperm.map Prod.fst).mem_iff.mp hname)⟩

theorem fieldsOf_elements (h : place.elements = some elements)
    (hlen : elements.length ≤ names.length) :
    fieldsOf names place = some (names.zip elements) := by
  have hnamed : place.named = none := by
    cases hfound : place.named with
    | none => rfl
    | some found =>
      rw [Place.elements_of_named hfound] at h
      cases h
  simp only [fieldsOf, hnamed, h, if_pos hlen]

theorem fieldsOf_cases (h : fieldsOf names place = some found) :
    place.named = some found ∨ ∃ elements, place.elements = some elements ∧
      elements.length ≤ names.length ∧ found = names.zip elements := by
  simp only [fieldsOf] at h
  split at h
  · rename_i members hnamed
    split_ifs at h
    obtain rfl := Option.some.inj h
    exact Or.inl hnamed
  · split at h
    · rename_i elements helements
      split_ifs at h with hlen
      exact Or.inr ⟨elements, helements, hlen, (Option.some.inj h).symm⟩
    · cases h

theorem fieldsOf_perm (hnames : names.Nodup) (h : fieldsOf names place = some found) :
    found.Perm
      (names.filterMap fun name => (found.lookup name).map fun value => (name, value)) := by
  have hkeys : (found.map Prod.fst).Nodup ∧ ∀ name ∈ found.map Prod.fst, name ∈ names := by
    simp only [fieldsOf] at h
    split at h
    · split_ifs at h with hkeys
      obtain rfl := Option.some.inj h
      exact hkeys
    · split at h
      · rename_i elements _
        split_ifs at h with hlen
        obtain rfl := Option.some.inj h
        have hsub := Fields.map_fst_zip_sublist names elements
        exact ⟨hnames.sublist hsub, fun name hname => hsub.subset hname⟩
      · cases h
  exact Fields.perm_filterMap hkeys.1 hnames hkeys.2

end Fields

theorem readHeaders_read {place : Place} {pairs : List (String × String)} :
    ReadHeaders.read place = some pairs ↔ TextMap place pairs := by
  have hsame : ∀ found : List (String × Place),
      found.map (fun (name, value) => value.value.asText.map fun text => (name, text)) =
        pairs.map some ↔ found.map (fun (name, value) => (name, value.value.asText)) =
          pairs.map fun (name, text) => (name, some text) := by
    intro found
    induction found generalizing pairs with
    | nil => cases pairs <;> simp
    | cons member found ih =>
      cases pairs with
      | nil => simp
      | cons pair pairs =>
        cases htext : member.2.value.asText <;> simp [htext, ih, Prod.ext_iff]
  constructor
  · intro h
    obtain ⟨found, hnamed, hfound⟩ := Option.bind_eq_some_iff.mp h
    exact ⟨found, hnamed, (hsame found).mp (Fields.mapM_eq_some_iff.mp hfound)⟩
  · rintro ⟨found, hnamed, hfound⟩
    have hread := Fields.mapM_eq_some_iff.mpr ((hsame found).mpr hfound)
    exact Option.bind_eq_some_iff.mpr ⟨found, hnamed, hread⟩

section Reading

variable {place headers : Place} {held : Held} {document : Document}
variable {found : List (String × Place)}

/-- What the two structs take from the fields of a document. -/
structure Takes (found : List (String × Place)) (headers : Place) (payload : Option Place)
    (encoded : Option String) : Prop where
  headers : found.lookup "headers" = some headers
  payload : fieldOr found "payload" present = some payload
  encoded : fieldOr found "payload_base64" optionText = some encoded

theorem frame_read {frame : Frame} : Frame.read place = some frame ↔ ∃ found headers,
    fieldsOf frameFields place = some found ∧
      Takes found headers frame.payload frame.payloadBase64 := by
  simp only [Frame.read, Option.bind_eq_bind, Option.pure_def]
  constructor
  · intro h
    obtain ⟨found, hfound, h⟩ := Option.bind_eq_some_iff.mp h
    obtain ⟨headers, hheaders, h⟩ := Option.bind_eq_some_iff.mp h
    obtain ⟨payload, hpayload, h⟩ := Option.bind_eq_some_iff.mp h
    obtain ⟨encoded, hencoded, h⟩ := Option.bind_eq_some_iff.mp h
    obtain rfl := Option.some.inj h
    exact ⟨found, headers, hfound, hheaders, hpayload, hencoded⟩
  · rintro ⟨found, headers, hfound, htakes⟩
    simp [hfound, htakes.headers, htakes.payload, htakes.encoded]

theorem frameHeaders_read (hfound : fieldsOf frameFields place = some found)
    (hheaders : found.lookup "headers" = some headers) :
    FrameHeaders.read place = ReadHeaders.read headers := by
  simp [FrameHeaders.read, hfound, hheaders]

theorem present_eq_some {payload : Place} (h : ∃ s, asBytes s = payload.value.text) :
    present payload = some (some payload) := by
  obtain ⟨s, hs⟩ := h
  simp [present, ← hs]

theorem optionText_null {encoded : Place} (h : encoded.value.text = Json.null) :
    optionText encoded = some none := if_pos h

theorem optionText_text {encoded : Place} {text : String}
    (h : encoded.value.asText = some text) : optionText encoded = some (some text) := by
  have hnull : encoded.value.text ≠ Json.null := by
    cases hvalue : encoded.value with
    | string ps => exact fun hnull => by cases hnull
    | _ => simp [hvalue, Value.asText] at h
  rw [optionText, if_neg hnull, h]
  rfl

theorem fieldOr_of_lookup {α : Type} {name : String} {read : Place → Option (Option α)}
    {value : Place} (h : found.lookup name = some value) :
    fieldOr found name read = read value := by
  simp only [fieldOr, h]

theorem fieldOr_of_none {α : Type} {name : String} {read : Place → Option (Option α)}
    (h : found.lookup name = none) : fieldOr found name read = some none := by
  simp only [fieldOr, h]

theorem lookup_of_present {payload : Place}
    (h : fieldOr found "payload" present = some (some payload)) :
    found.lookup "payload" = some payload ∧ ∃ s, asBytes s = payload.value.text := by
  cases hlookup : found.lookup "payload" with
  | none =>
    rw [fieldOr_of_none hlookup] at h
    cases h
  | some place =>
    rw [fieldOr_of_lookup hlookup] at h
    obtain ⟨s, hs, heq⟩ := Option.map_eq_some_iff.mp h
    obtain rfl := Option.some.inj heq
    exact ⟨rfl, s, asBytes_of_fromUtf8 hs⟩

theorem lookup_none_of_present (h : fieldOr found "payload" present = some none) :
    found.lookup "payload" = none := by
  cases hlookup : found.lookup "payload" with
  | none => rfl
  | some place =>
    rw [fieldOr_of_lookup hlookup] at h
    obtain ⟨_, _, heq⟩ := Option.map_eq_some_iff.mp h
    cases heq

theorem null_of_optionText {encoded : Place}
    (h : fieldOr found "payload_base64" optionText = some none)
    (hlookup : found.lookup "payload_base64" = some encoded) :
    encoded.value.text = Json.null := by
  rw [fieldOr_of_lookup hlookup, optionText] at h
  split_ifs at h with hnull
  · exact hnull
  · obtain ⟨_, _, heq⟩ := Option.map_eq_some_iff.mp h
    cases heq

theorem lookup_of_optionText {text : String}
    (h : fieldOr found "payload_base64" optionText = some (some text)) :
    ∃ encoded, found.lookup "payload_base64" = some encoded ∧
      encoded.value.asText = some text := by
  cases hlookup : found.lookup "payload_base64" with
  | none =>
    rw [fieldOr_of_none hlookup] at h
    cases h
  | some place =>
    rw [fieldOr_of_lookup hlookup, optionText] at h
    split_ifs at h with hnull
    · cases Option.some.inj h
    · obtain ⟨other, hother, heq⟩ := Option.map_eq_some_iff.mp h
      obtain rfl := Option.some.inj heq
      exact ⟨place, rfl, hother⟩

/-- The fields a frame is read from, and what the body pass makes of them. -/
inductive Opens (found : List (String × Place)) (headers : Place) : Held → Prop where
  | value {payload : Place} : found.lookup "headers" = some headers →
      found.lookup "payload" = some payload →
      (∀ encoded, found.lookup "payload_base64" = some encoded →
        encoded.value.text = Json.null) →
      Opens found headers (.value payload)
  | decoded {payload : Place} {text : String} {bytes : List UInt8} :
      found.lookup "headers" = some headers → found.lookup "payload" = none →
      found.lookup "payload_base64" = some payload → payload.value.asText = some text →
      Base64.encode bytes = asBytes text → Opens found headers (.decoded bytes)

theorem lookup_perm {other : List (String × Place)} (hperm : found.Perm other)
    (hnodup : (other.map Prod.fst).Nodup) (name : String) :
    found.lookup name = other.lookup name :=
  Fields.lookup_of_perm hperm hnodup

theorem opens_of_shape (h : Shaped place headers held ∨ Misshaped place headers held) :
    ∃ found, fieldsOf frameFields place = some found ∧ Opens found headers held := by
  rcases h with h | h
  · cases h with
    | @embedded found payload hnamed hperm =>
      have hlookup := lookup_perm hperm (by simp)
      refine ⟨found, fieldsOf_named hnamed hperm (by simp) (by simp [frameFields]), ?_⟩
      refine .value (hlookup _) (hlookup _) ?_
      rw [hlookup]
      nofun
    | @encoded found payload text bytes hnamed hperm htext hbytes =>
      have hlookup := lookup_perm hperm (by simp)
      refine ⟨found, fieldsOf_named hnamed hperm (by simp) (by simp [frameFields]), ?_⟩
      exact .decoded (hlookup _) (hlookup _) (hlookup _) htext hbytes
  · cases h with
    | pair helements =>
      refine ⟨_, fieldsOf_elements helements (by simp [frameFields]), ?_⟩
      exact .value rfl rfl nofun
    | triple helements hnull =>
      refine ⟨_, fieldsOf_elements helements (by simp [frameFields]), ?_⟩
      refine .value rfl rfl ?_
      rintro encoded hencoded
      obtain rfl := Option.some.inj hencoded
      exact hnull
    | @beside found payload encoded hnamed hperm hnull =>
      have hlookup := lookup_perm hperm (by simp)
      refine ⟨found, fieldsOf_named hnamed hperm (by simp) (by simp [frameFields]), ?_⟩
      refine .value (hlookup _) (hlookup _) ?_
      intro other hother
      rw [hlookup] at hother
      obtain rfl := Option.some.inj hother
      exact hnull

/-- Fields that are read as a frame come from a document of one of the shapes. -/
theorem shape_of_opens (hfound : fieldsOf frameFields place = some found)
    (h : Opens found headers held) :
    Shaped place headers held ∨ Misshaped place headers held := by
  have hperm := fieldsOf_perm (by simp [frameFields]) hfound
  rcases fieldsOf_cases hfound with hnamed | ⟨elements, helements, hlen, rfl⟩
  · cases h with
    | @value payload hheaders hpayload hnull =>
      cases hencoded : found.lookup "payload_base64" with
      | none =>
        simp [frameFields, hheaders, hpayload, hencoded] at hperm
        exact Or.inl (.embedded hnamed hperm)
      | some encoded =>
        simp [frameFields, hheaders, hpayload, hencoded] at hperm
        exact Or.inr (.beside hnamed hperm (hnull encoded hencoded))
    | decoded hheaders hpayload hencoded htext hbytes =>
      simp [frameFields, hheaders, hpayload, hencoded] at hperm
      exact Or.inl (.encoded hnamed hperm htext hbytes)
  · clear hperm
    match elements with
    | [] => cases h with
      | value hheaders => cases hheaders
      | decoded hheaders => cases hheaders
    | [_] => cases h with
      | value _ hpayload => cases hpayload
      | decoded _ _ hencoded => cases hencoded
    | [first, second] =>
      cases h with
      | value hheaders hpayload =>
        obtain rfl := Option.some.inj hheaders
        obtain rfl := Option.some.inj hpayload
        exact Or.inr (.pair helements)
      | decoded _ hpayload => cases hpayload
    | [first, second, third] =>
      cases h with
      | value hheaders hpayload hnull =>
        obtain rfl := Option.some.inj hheaders
        obtain rfl := Option.some.inj hpayload
        exact Or.inr (.triple helements (hnull third rfl))
      | decoded _ hpayload => cases hpayload
    | _ :: _ :: _ :: _ :: _ =>
      simp only [frameFields, List.length_cons, List.length_nil] at hlen
      omega

variable {record : List UInt8}

theorem fromSlice_text {α : Type} {read : Place → Option α} (h : document.text = record) :
    fromSlice read record = read document.root := by
  simp [fromSlice, parse_eq_some_iff.mpr h]

theorem body_of_opens (hd : document.text = record)
    (hfound : fieldsOf frameFields document.root = some found) (h : Opens found headers held)
    (htext : held.IsText) : Framed.body record = held.body := by
  cases h with
  | @value payload hheaders hpayload hnull =>
    have hpresent := (fieldOr_of_lookup hpayload).trans (present_eq_some htext)
    have hencoded : fieldOr found "payload_base64" optionText = some none := by
      cases hlookup : found.lookup "payload_base64" with
      | none => exact fieldOr_of_none hlookup
      | some encoded =>
        exact (fieldOr_of_lookup hlookup).trans (optionText_null (hnull encoded hlookup))
    have hread : Frame.read document.root = some ⟨some payload, none⟩ :=
      frame_read.mpr ⟨found, headers, hfound, hheaders, hpresent, hencoded⟩
    simp only [Framed.body, fromSlice_text hd, hread]
    rfl
  | @decoded payload text bytes hheaders hpayload hlookup hstring hbytes =>
    have hencoded := (fieldOr_of_lookup hlookup).trans (optionText_text hstring)
    have hread : Frame.read document.root = some ⟨none, some text⟩ :=
      frame_read.mpr ⟨found, headers, hfound, hheaders, fieldOr_of_none hpayload, hencoded⟩
    simp only [Framed.body, fromSlice_text hd, hread, Base64.decode_eq_some_iff.mpr hbytes]
    rfl

theorem headers_of_opens (hd : document.text = record)
    (hfound : fieldsOf frameFields document.root = some found) (h : Opens found headers held)
    (into : HeaderMap) : Framed.frameHeaders record into =
      (ReadHeaders.read headers).map fun pairs =>
        into.insertAll (pairs.map fun (name, text) => (name, asBytes text)) := by
  have hheaders : found.lookup "headers" = some headers := by
    cases h with
    | value hheaders => exact hheaders
    | decoded hheaders => exact hheaders
  rw [Framed.frameHeaders, fromSlice_text hd, frameHeaders_read hfound hheaders]

theorem held_body_ne (held : Held) : held.body ≠ .whole := by
  cases held <;> exact nofun

/-- A record is delivered other than whole only where its document opens. -/
theorem opens_of_body (h : Framed.body record ≠ .whole) :
    ∃ (document : Document) (found : List (String × Place)) (headers : Place) (held : Held),
      document.text = record ∧ fieldsOf frameFields document.root = some found ∧
      Opens found headers held ∧ held.IsText := by
  simp only [Framed.body] at h
  split at h
  · exact absurd rfl h
  · rename_i payload hread
    obtain ⟨document, hparse, hread⟩ := Option.bind_eq_some_iff.mp hread
    obtain ⟨found, headers, hfound, hheaders, hpayload, hencoded⟩ := frame_read.mp hread
    obtain ⟨hlookup, htext⟩ := lookup_of_present hpayload
    refine ⟨document, found, headers, .value payload, parse_eq_some_iff.mp hparse, hfound, ?_,
      htext⟩
    exact .value hheaders hlookup fun encoded h => null_of_optionText hencoded h
  · rename_i text hread
    obtain ⟨document, hparse, hread⟩ := Option.bind_eq_some_iff.mp hread
    obtain ⟨found, headers, hfound, hheaders, hpayload, hencoded⟩ := frame_read.mp hread
    obtain ⟨encoded, hlookup, htext⟩ := lookup_of_optionText hencoded
    split at h
    · exact absurd rfl h
    · rename_i bytes hbytes
      have hencode := Base64.decode_eq_some_iff.mp hbytes
      refine ⟨document, found, headers, .decoded bytes, parse_eq_some_iff.mp hparse, hfound, ?_,
        trivial⟩
      exact .decoded hheaders (lookup_none_of_present hpayload) hlookup htext hencode
  · exact absurd rfl h

/-- The payload of a frame is text, as a part of one. -/
theorem isText_of_shaped (hrecord : ∃ s, asBytes s = record) (hd : document.text = record)
    (h : Shaped document.root headers held) : held.IsText := by
  cases h with
  | encoded => trivial
  | @embedded found payload hnamed hperm =>
    obtain ⟨s, hs⟩ := hrecord
    have hmem : ("payload", payload) ∈ found := hperm.mem_iff.mpr (by simp)
    obtain ⟨front, back, htext, -, hback⟩ := document.root_lies.named hnamed _ hmem
    obtain ⟨b, rest, hvalue, hb⟩ := payload.value.text_first
    have hlow : ∀ c : UInt8, isHigh c = false → c < 0x80 := by simp [isHigh]
    have hpart := fromUtf8_part (hs.trans (hd.symm.trans htext))
      (by rw [hvalue]; simpa using hlow b (isFirst_not_high hb)) (by simp [hvalue])
      fun c hc => hlow c (hback c hc)
    obtain ⟨t, ht⟩ := hpart
    exact ⟨t, asBytes_of_fromUtf8 ht⟩

theorem held_payload (hd : document.text = record)
    (h : Shaped document.root headers held) : held.body.payload record = held.payload := by
  cases h with
  | encoded => rfl
  | @embedded found payload hnamed hperm =>
    have hmem : ("payload", payload) ∈ found := hperm.mem_iff.mpr (by simp)
    have hlies := document.root_lies.named hnamed _ hmem
    rw [hd] at hlies
    exact (Body.payload_within (Nat.le_add_right _ _) hlies.stop_le).trans hlies.slice

end Reading

theorem Misshaped.not_shaped {place headers other : Place} {held carried : Held}
    (h : Misshaped place headers held) : ¬Shaped place other carried := by
  intro hshaped
  have hnamed : ∃ found, place.named = some found ∧ found.length = 2 := by
    cases hshaped with
    | embedded hnamed hperm => exact ⟨_, hnamed, hperm.length_eq⟩
    | encoded hnamed hperm => exact ⟨_, hnamed, hperm.length_eq⟩
  obtain ⟨found, hnamed, hlen⟩ := hnamed
  cases h with
  | pair helements =>
    rw [Place.elements_of_named hnamed] at helements
    cases helements
  | triple helements =>
    rw [Place.elements_of_named hnamed] at helements
    cases helements
  | beside hother hperm =>
    obtain rfl := Option.some.inj (hnamed.symm.trans hother)
    have := hperm.length_eq
    simp only [List.length_cons, List.length_nil] at this
    omega

theorem body_ne_whole_iff {record : List UInt8} : Framed.body record ≠ .whole ↔
    (∃ headers held, IsFrame record headers held) ∨ Misread record := by
  constructor
  · intro h
    obtain ⟨document, found, headers, held, hd, hfound, hopens, htext⟩ := opens_of_body h
    by_cases hrecord : ∃ s, asBytes s = record
    · rcases shape_of_opens hfound hopens with hshaped | hmis
      · exact Or.inl ⟨headers, held, hrecord, document, hd, hshaped⟩
      · exact Or.inr ⟨document, headers, held, hd, htext, Or.inl hmis⟩
    · rcases shape_of_opens hfound hopens with hshaped | hmis
      · exact Or.inr ⟨document, headers, held, hd, htext, Or.inr ⟨hshaped, hrecord⟩⟩
      · exact Or.inr ⟨document, headers, held, hd, htext, Or.inl hmis⟩
  · have hne : ∀ (document : Document) headers held, document.text = record → held.IsText →
        Shaped document.root headers held ∨ Misshaped document.root headers held →
          Framed.body record ≠ .whole := by
      intro document headers held hd htext hshape
      obtain ⟨found, hfound, hopens⟩ := opens_of_shape hshape
      rw [body_of_opens hd hfound hopens htext]
      exact held_body_ne held
    rintro (⟨headers, held, hrecord, document, hd, hshaped⟩ |
      ⟨document, headers, held, hd, htext, hmis | ⟨hshaped, -⟩⟩)
    · exact hne document headers held hd (isText_of_shaped hrecord hd hshaped) (Or.inl hshaped)
    · exact hne document headers held hd htext (Or.inr hmis)
    · exact hne document headers held hd htext (Or.inl hshaped)

theorem Misread.not_frame {record : List UInt8} (h : Misread record) (headers : Place)
    (held : Held) : ¬IsFrame record headers held := by
  rintro ⟨hrecord, document, hd, hshaped⟩
  obtain ⟨other, _, _, hother, _, hmis | ⟨_, hbytes⟩⟩ := h
  · obtain rfl := Document.text_inj (hother.trans hd.symm)
    exact hmis.not_shaped hshaped
  · exact hbytes hrecord

theorem Misread.not_asDocumented {record : List UInt8} (h : Misread record) :
    ¬AsDocumented record := by
  intro hdoc
  obtain ⟨headers, held, hframe⟩ := hdoc.frame.mp (body_ne_whole_iff.mpr (Or.inr h))
  exact h.not_frame headers held hframe

/-- A record is read as the documentation says exactly where it is not misread. -/
theorem asDocumented_iff (record : List UInt8) : AsDocumented record ↔ ¬Misread record := by
  constructor
  · intro h hmis
    exact hmis.not_asDocumented h
  · intro hmis
    have hframe : Framed.body record ≠ .whole ↔ ∃ headers held, IsFrame record headers held := by
      rw [body_ne_whole_iff, or_iff_left hmis]
    refine ⟨hframe, ?_, ?_, ?_⟩
    · rintro headers held ⟨hrecord, document, hd, hshaped⟩
      obtain ⟨found, hfound, hopens⟩ := opens_of_shape (Or.inl hshaped)
      have hbody := body_of_opens hd hfound hopens (isText_of_shaped hrecord hd hshaped)
      rw [hbody]
      exact ⟨rfl, held_payload hd hshaped⟩
    · rintro headers held ⟨hrecord, document, hd, hshaped⟩ into read
      obtain ⟨found, hfound, hopens⟩ := opens_of_shape (Or.inl hshaped)
      have hbody := body_of_opens hd hfound hopens (isText_of_shaped hrecord hd hshaped)
      rw [Framed.readHeaders, hbody, if_neg (held_body_ne held),
        headers_of_opens hd hfound hopens into, Option.map_eq_some_iff]
      simp only [readHeaders_read, eq_comm (b := read)]
    · intro hno
      have hwhole : Framed.body record = .whole := by
        by_contra hne
        exact hno (hframe.mp hne)
      rw [hwhole]
      exact ⟨rfl, fun into => if_pos rfl⟩

/-- `[1,2]`. -/
def onePair : Document where
  before := blank
  value := .series .array <|
    .more blank () (.scalar ⟨[0x31], rfl⟩) blank <| .last blank () (.scalar ⟨[0x32], rfl⟩) blank
  after := blank

/-- A JSON array of two is somebody else's document, and its second element is delivered. -/
theorem pair_misread : ¬AsDocumented [0x5B, 0x31, 0x2C, 0x32, 0x5D] := by
  have hmis : Misread onePair.text :=
    ⟨onePair, ⟨1, .scalar ⟨[0x31], rfl⟩⟩, .value ⟨3, .scalar ⟨[0x32], rfl⟩⟩, rfl, ⟨"2", by decide⟩,
      Or.inl (.pair rfl)⟩
  exact hmis.not_asDocumented

end RuststreamKinesis
