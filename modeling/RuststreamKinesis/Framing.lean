import RuststreamKinesis.Framed
import RuststreamKinesis.Lib.Compact

/-!
# Writing a frame

A payload that is one JSON text rides in the document as that value, any other one as base64.
-/

namespace RuststreamKinesis

open Json

set_option autoImplicit false

/-- `from_slice::<&RawValue>` of the whole payload: the value it is the text of. -/
def embedded (payload : List UInt8) : Option Value := do
  let document ← Json.parse payload
  let _ ← fromUtf8 document.value.text
  if document.value.text.length = payload.length then some document.value else none

/-- `TextHeaders`: a value that is not UTF-8 is written as nothing. -/
def textHeaders (headers : List (String × List UInt8)) : Value :=
  .compact (headers.map fun (name, value) =>
    (name, .string (writeText ((fromUtf8 value).getD ""))))

namespace Framed

/-- `JsonCodec::frame`. -/
def frame (headers : List (String × List UInt8)) (payload : List UInt8) : List UInt8 :=
  match embedded payload with
  | some value => (Value.compact [("headers", textHeaders headers), ("payload", value)]).text
  | none =>
    (Value.compact [("headers", textHeaders headers),
      ("payload_base64", .string (writeBytes (Base64.encode payload)))]).text

def sealRecord (headers : HeaderMap) (payload : List UInt8) : Except EnvelopeError (List UInt8) :=
  match headers.carried.find? fun (_, value) => (fromUtf8 value).isNone with
  | some (name, _) => .error (.headerNotText name)
  | none => .ok (frame headers.carried payload)

end Framed

/-- The envelope of JSON documents. -/
def framed : Envelope := ⟨Framed.sealRecord, Framed.body, Framed.readHeaders⟩

example : Framed.frame [("a", [0x0A])] [8, 7] = asBytes
    "\x7b\"headers\":\x7b\"a\":\"\\n\"\x7d,\"payload_base64\":\"CAc=\"\x7d" := by decide

/-- The bytes are the text of one JSON value and of nothing around it. -/
def IsJsonText (bytes : List UInt8) : Prop :=
  (∃ s, asBytes s = bytes) ∧ ∃ value : Value, value.text = bytes

theorem embedded_eq_some_iff {payload : List UInt8} {value : Value} :
    embedded payload = some value ↔ (∃ s, asBytes s = payload) ∧ value.text = payload := by
  constructor
  · intro h
    obtain ⟨document, hparse, h⟩ := Option.bind_eq_some_iff.mp h
    obtain ⟨s, hs, h⟩ := Option.bind_eq_some_iff.mp h
    have htext := parse_eq_some_iff.mp hparse
    split_ifs at h with hlen
    obtain rfl := Option.some.inj h
    have hwhole : document.value.text = payload := by
      simp only [← htext, Document.text, List.length_append] at hlen ⊢
      have hbefore : document.before.1 = [] := List.length_eq_zero_iff.mp (by omega)
      have hafter : document.after.1 = [] := List.length_eq_zero_iff.mp (by omega)
      simp [hbefore, hafter]
    exact ⟨⟨s, hwhole ▸ asBytes_of_fromUtf8 hs⟩, hwhole⟩
  · rintro ⟨⟨s, hs⟩, rfl⟩
    have hparse : Json.parse value.text = some value.alone :=
      parse_eq_some_iff.mpr value.alone_text
    have hutf8 : fromUtf8 value.text = some s := fromUtf8_eq_some_iff.mpr hs
    simp only [embedded, hparse, Option.bind_eq_bind, Option.bind_some]
    simp [Value.alone, hutf8]

theorem embedded_eq_none_iff {payload : List UInt8} :
    embedded payload = none ↔ ¬IsJsonText payload := by
  rw [Option.eq_none_iff_forall_ne_some]
  constructor
  · rintro h ⟨hs, value, hvalue⟩
    exact h value (embedded_eq_some_iff.mpr ⟨hs, hvalue⟩)
  · intro h value hvalue
    obtain ⟨hs, hvalue⟩ := embedded_eq_some_iff.mp hvalue
    exact h ⟨hs, value, hvalue⟩

/-- Two members that were written are read under their names. -/
theorem named_pair (name other : String) (value held : Value) (start : Nat) :
    ∃ first second : Place,
      (Place.mk start (.compact [(name, value), (other, held)])).named =
        some [(name, first), (other, second)] ∧ first.value = value ∧ second.value = held := by
  obtain ⟨found, hnamed, hfound⟩ := Value.compact_named [(name, value), (other, held)] start
  match found with
  | [] => cases hfound
  | [_] => cases hfound
  | [(n, first), (m, second)] =>
    simp only [List.map_cons, List.map_nil, List.cons.injEq, Prod.mk.injEq, and_true] at hfound
    obtain ⟨⟨rfl, rfl⟩, rfl, rfl⟩ := hfound
    exact ⟨first, second, hnamed, rfl, rfl⟩
  | _ :: _ :: _ :: _ => cases hfound

section Trip

variable {headers : List (String × List UInt8)} {payload : List UInt8}

theorem textHeaders_textMap {place : Place} (h : place.value = textHeaders headers) :
    TextMap place (headers.map fun (name, value) => (name, (fromUtf8 value).getD "")) := by
  obtain ⟨start, value⟩ := place
  obtain rfl : value = textHeaders headers := h
  obtain ⟨found, hnamed, hfound⟩ := Value.compact_named (headers.map fun (name, value) =>
    (name, .string (writeText ((fromUtf8 value).getD "")))) start
  refine ⟨found, hnamed, ?_⟩
  have hmap := congrArg (List.map fun field => (field.1, field.2.asText)) hfound
  simpa [Function.comp_def, Value.asText, decode_writeText] using hmap

/-- Text headers are read as the bytes they were written from. -/
theorem textHeaders_bytes (h : ∀ entry ∈ headers, ∃ s, asBytes s = entry.2) :
    (headers.map fun (name, value) => (name, (fromUtf8 value).getD "")).map
      (fun (name, text) => (name, asBytes text)) = headers := by
  rw [List.map_map]
  conv_rhs => rw [← List.map_id headers]
  apply List.map_congr_left
  rintro ⟨name, value⟩ hmem
  obtain ⟨s, hs⟩ := h _ hmem
  simp only [Function.comp, fromUtf8_eq_some_iff.mpr hs, Option.getD_some, id]
  rw [hs]

/-- A frame that was written has the shape of one, around the payload. -/
theorem frame_shaped (headers : List (String × List UInt8)) (payload : List UInt8) :
    ∃ (document : Document) (map : Place) (held : Held),
      document.text = Framed.frame headers payload ∧ Shaped document.root map held ∧
      map.value = textHeaders headers ∧ held.payload = payload ∧ held.IsText ∧
      ((∃ place, held = .value place) ↔ IsJsonText payload) := by
  cases hembedded : embedded payload with
  | some value =>
    obtain ⟨hutf8, htext⟩ := embedded_eq_some_iff.mp hembedded
    obtain ⟨map, place, hnamed, hmap, hplace⟩ :=
      named_pair "headers" "payload" (textHeaders headers) value 0
    refine ⟨(Value.compact [("headers", textHeaders headers), ("payload", value)]).alone, map,
      .value place, ?_, .embedded hnamed (.refl _), hmap, ?_, ?_, ?_⟩
    · rw [Value.alone_text, Framed.frame, hembedded]
    · rw [Held.payload, hplace, htext]
    · rw [Held.IsText, hplace, htext]
      exact hutf8
    · exact ⟨fun _ => ⟨hutf8, value, htext⟩, fun _ => ⟨place, rfl⟩⟩
  | none =>
    obtain ⟨text, htext⟩ := text_of_low (Base64.encode_lt payload)
    obtain ⟨map, place, hnamed, hmap, hplace⟩ :=
      named_pair "headers" "payload_base64" (textHeaders headers)
        (.string (writeBytes (Base64.encode payload))) 0
    have hstring : place.value.asText = some text := by
      rw [hplace, Value.asText, decode_writeBytes]
      exact fromUtf8_eq_some_iff.mpr htext
    refine ⟨(Value.compact [("headers", textHeaders headers),
      ("payload_base64", .string (writeBytes (Base64.encode payload)))]).alone, map,
      .decoded payload, ?_, .encoded hnamed (.refl _) hstring htext.symm, hmap, rfl, trivial, ?_⟩
    · rw [Value.alone_text, Framed.frame, hembedded]
    · exact ⟨by simp, fun h => absurd h (embedded_eq_none_iff.mp hembedded)⟩

end Trip

theorem fit_held {document : Document} {headers : Place} {held : Held}
    (h : Shaped document.root headers held) :
    held.body.fit document.text.length = held.body := by
  cases h with
  | encoded => rfl
  | @embedded found payload hnamed hperm =>
    have hmem : ("payload", payload) ∈ found := hperm.mem_iff.mpr (by simp)
    have hlies := document.root_lies.named hnamed _ hmem
    exact Body.fit_within (Nat.le_add_right _ _) hlies.stop_le

/-- What a JSON frame gives back: the payload, in place exactly where it is one JSON text, and the
headers that are not native. -/
structure ReadsBack (headers : HeaderMap) (payload record : List UInt8) : Prop where
  body : ((framed.body record).fit record.length).payload record = payload
  headers : ∃ read, framed.readHeaders record ((framed.body record).fit record.length) {} =
    some read ∧ ∀ name, read.get name = if isNative name then none else headers.get name
  rides : ∃ (document : Document) (map : Place) (held : Held), document.text = record ∧
    Shaped document.root map held ∧ framed.body record = held.body ∧ held.payload = payload ∧
    ((∃ place, held = .value place) ↔ IsJsonText payload)

theorem frame_readsBack {headers : HeaderMap} (payload : List UInt8)
    (h : ∀ entry ∈ headers.carried, ∃ s, asBytes s = entry.2) :
    ReadsBack headers payload (Framed.frame headers.carried payload) := by
  obtain ⟨document, map, held, hd, hshaped, hmap, hpayload, htext, hrides⟩ :=
    frame_shaped headers.carried payload
  obtain ⟨found, hfound, hopens⟩ := opens_of_shape (Or.inl hshaped)
  have hbody : framed.body (Framed.frame headers.carried payload) = held.body :=
    body_of_opens hd hfound hopens htext
  have hfit := fit_held hshaped
  rw [hd] at hfit
  refine ⟨?_, ?_, ⟨document, map, held, hd, hshaped, hbody, hpayload, hrides⟩⟩
  · rw [hbody, hfit, held_payload hd hshaped, hpayload]
  · have hread := readHeaders_read.mpr (textHeaders_textMap hmap)
    refine ⟨({} : HeaderMap).insertAll headers.carried, ?_, ?_⟩
    · change Framed.readHeaders _ _ _ = _
      rw [hbody, hfit, Framed.readHeaders, if_neg (held_body_ne held),
        headers_of_opens hd hfound hopens, hread, Option.map_some, textHeaders_bytes h]
    · intro name
      rw [← headers.carried_lookup, HeaderMap.get, HeaderMap.insertAll_entries]
      · rfl
      · exact headers.carried_nodup

/-- Sealing a JSON frame fails at a header that is not text, and only there; a record that is
sealed reads back as what it was sealed from. -/
theorem framed_round_trip (headers : HeaderMap) (payload : List UInt8) :
    ((∃ entry ∈ headers.carried, ¬∃ s, asBytes s = entry.2) →
      ∃ entry ∈ headers.carried, (¬∃ s, asBytes s = entry.2) ∧
        framed.sealRecord headers payload = .error (.headerNotText entry.1)) ∧
    ((∀ entry ∈ headers.carried, ∃ s, asBytes s = entry.2) →
      ∃ record, framed.sealRecord headers payload = .ok record ∧
        ReadsBack headers payload record) := by
  have hnone : ∀ value : List UInt8, (fromUtf8 value).isNone = true ↔ ¬∃ s, asBytes s = value := by
    intro value
    rw [Option.isNone_iff_eq_none, Option.eq_none_iff_forall_ne_some]
    simp only [ne_eq, fromUtf8_eq_some_iff, not_exists]
  constructor
  · rintro ⟨entry, hmem, hbytes⟩
    cases hfind : headers.carried.find? fun entry => (fromUtf8 entry.2).isNone with
    | none =>
      have hall := List.find?_eq_none.mp hfind entry hmem
      exact absurd ((hnone _).mpr hbytes) hall
    | some first =>
      have hfirst := List.find?_some hfind
      refine ⟨first, List.mem_of_find?_eq_some hfind, (hnone _).mp hfirst, ?_⟩
      change Framed.sealRecord headers payload = _
      simp only [Framed.sealRecord, hfind]
  · intro h
    have hfind : (headers.carried.find? fun entry => (fromUtf8 entry.2).isNone) = none := by
      apply List.find?_eq_none.mpr
      intro entry hmem hbytes
      exact (hnone _).mp hbytes (h entry hmem)
    refine ⟨_, ?_, frame_readsBack payload h⟩
    change Framed.sealRecord headers payload = _
    simp only [Framed.sealRecord, hfind]

theorem framed_round_trip_bytes : ∃ record,
    framed.sealRecord {} [8, 7] = .ok record ∧ ReadsBack {} [8, 7] record :=
  (framed_round_trip {} [8, 7]).2 (by simp [HeaderMap.carried])

end RuststreamKinesis
