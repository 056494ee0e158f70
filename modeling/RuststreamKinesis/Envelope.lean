import RuststreamKinesis.Text

/-!
# Envelopes

What an envelope answers for a record: where its payload sits and which headers it carries
(`envelope/mod.rs`). `HeaderMap` is the framework's map, in the order it iterates.
-/

namespace RuststreamKinesis

set_option autoImplicit false

/-- Header names, each with its value, none twice. -/
structure HeaderMap where
  entries : List (String × List UInt8) := []
  nodup : (entries.map Prod.fst).Nodup := by simp

namespace HeaderMap

def get (headers : HeaderMap) (name : String) : Option (List UInt8) := headers.entries.lookup name

/-- The entries with the value put under the name, in the name's place or at the end. -/
def put (name : String) (value : List UInt8) :
    List (String × List UInt8) → List (String × List UInt8)
  | [] => [(name, value)]
  | entry :: rest =>
    if entry.1 = name then (name, value) :: rest else entry :: put name value rest

theorem mem_put {name : String} {value : List UInt8} {entries : List (String × List UInt8)}
    {n : String} : n ∈ (put name value entries).map Prod.fst ↔
      n = name ∨ n ∈ entries.map Prod.fst := by
  induction entries with
  | nil => simp [put]
  | cons entry rest ih =>
    simp only [put]
    split
    · rename_i h
      simp [h]
    · simp only [List.map_cons, List.mem_cons, ih]
      exact or_left_comm

theorem put_nodup {name : String} {value : List UInt8} {entries : List (String × List UInt8)}
    (h : (entries.map Prod.fst).Nodup) : ((put name value entries).map Prod.fst).Nodup := by
  induction entries with
  | nil => simp [put]
  | cons entry rest ih =>
    obtain ⟨hnew, hrest⟩ := List.nodup_cons.mp h
    simp only [put]
    split
    · rename_i he
      exact List.nodup_cons.mpr ⟨he ▸ hnew, hrest⟩
    · rename_i he
      refine List.nodup_cons.mpr ⟨?_, ih hrest⟩
      rw [mem_put]
      rintro (hn | hn)
      · exact he hn
      · exact hnew hn

def insert (headers : HeaderMap) (name : String) (value : List UInt8) : HeaderMap where
  entries := put name value headers.entries
  nodup := put_nodup headers.nodup

theorem put_new {name : String} {value : List UInt8} {entries : List (String × List UInt8)}
    (h : name ∉ entries.map Prod.fst) : put name value entries = entries ++ [(name, value)] := by
  induction entries with
  | nil => rfl
  | cons entry rest ih =>
    simp only [List.map_cons, List.mem_cons, not_or] at h
    simp only [put, if_neg (Ne.symm h.1), List.cons_append, ih h.2]

/-- The entries inserted one after the other. -/
def insertAll (headers : HeaderMap) (entries : List (String × List UInt8)) : HeaderMap :=
  entries.foldl (fun headers entry => headers.insert entry.1 entry.2) headers

theorem insertAll_entries {headers : HeaderMap} {entries : List (String × List UInt8)}
    (h : ((headers.entries ++ entries).map Prod.fst).Nodup) :
    (headers.insertAll entries).entries = headers.entries ++ entries := by
  induction entries generalizing headers with
  | nil => simp [insertAll]
  | cons entry rest ih =>
    have hnew : entry.1 ∉ headers.entries.map Prod.fst := by
      rw [List.map_append, List.map_cons] at h
      intro hmem
      exact (List.nodup_append.mp h).2.2 _ hmem _ List.mem_cons_self rfl
    have hone : (headers.insert entry.1 entry.2).entries = headers.entries ++ [entry] :=
      put_new hnew
    have hrest : ((headers.insert entry.1 entry.2).entries ++ rest).map Prod.fst |>.Nodup := by
      rw [hone]
      simpa using h
    calc (headers.insertAll (entry :: rest)).entries
        = (headers.insert entry.1 entry.2).entries ++ rest := ih hrest
      _ = headers.entries ++ entry :: rest := by simp [hone]

end HeaderMap

def partitionKeyHeader : String := "partition-key"
def sequenceHeader : String := "kinesis-sequence-number"
def shardHeader : String := "kinesis-shard-id"

/-- The headers a record carries natively. -/
def isNative (name : String) : Bool :=
  name == partitionKeyHeader || name == sequenceHeader || name == shardHeader

/-- The headers of a publish that an envelope writes: `EnvelopeHeaders::iter`. -/
def HeaderMap.carried (headers : HeaderMap) : List (String × List UInt8) :=
  headers.entries.filter fun entry => !isNative entry.1

theorem HeaderMap.carried_nodup (headers : HeaderMap) :
    (headers.carried.map Prod.fst).Nodup :=
  headers.nodup.sublist (List.filter_sublist.map _)

theorem HeaderMap.carried_lookup (headers : HeaderMap) (name : String) :
    headers.carried.lookup name = if isNative name then none else headers.get name := by
  unfold HeaderMap.carried HeaderMap.get
  induction headers.entries with
  | nil => simp
  | cons entry rest ih =>
    obtain ⟨first, value⟩ := entry
    rw [List.filter_cons]
    by_cases he : first = name
    · subst he
      cases hn : isNative first with
      | true =>
        rw [hn] at ih
        simpa using ih
      | false => simp
    · have hne : (name == first) = false := beq_eq_false_iff_ne.mpr (Ne.symm he)
      cases hn : isNative first <;> simp [List.lookup_cons, hne, ih]

/-- Where a record's payload sits. -/
inductive Body where
  | whole
  | within (start stop : Nat)
  | decoded (bytes : List UInt8)
deriving DecidableEq, Repr

namespace Body

/-- A range that does not fit the record is the whole record. -/
def fit (body : Body) (recordLen : Nat) : Body :=
  match body with
  | .within start stop => if start > stop ∨ stop > recordLen then .whole else .within start stop
  | body => body

/-- The payload this body names in `record`. -/
def payload (body : Body) (record : List UInt8) : List UInt8 :=
  match body with
  | .whole => record
  | .within start stop =>
    if start ≤ stop ∧ stop ≤ record.length then (record.take stop).drop start else record
  | .decoded bytes => bytes

variable {start stop len : Nat} {record : List UInt8}

theorem fit_within (h : start ≤ stop) (hlen : stop ≤ len) :
    (Body.within start stop).fit len = .within start stop :=
  if_neg (by omega)

theorem payload_within (h : start ≤ stop) (hlen : stop ≤ record.length) :
    (Body.within start stop).payload record = (record.take stop).drop start :=
  if_pos ⟨h, hlen⟩

end Body

/-- What a codec answers instead of a document: the error it met, by its text. -/
structure CodecError where
  text : String
deriving DecidableEq, Repr

/-- Why an envelope could not write a record. -/
inductive EnvelopeError where
  | unsupportedHeader (header : String)
  | headerNotText (header : String)
  | codec (error : CodecError)
  | other (text : String)
deriving DecidableEq, Repr

/-- What `Envelope` asks of a layout; `none` of `readHeaders` is `MalformedHeaders`. -/
structure Envelope where
  sealRecord : HeaderMap → List UInt8 → Except EnvelopeError (List UInt8)
  body : List UInt8 → Body
  readHeaders : List UInt8 → Body → HeaderMap → Option HeaderMap

/-- No envelope: the record's data is the payload. -/
def noOp : Envelope where
  sealRecord headers payload :=
    match headers.carried with
    | (name, _) :: _ => .error (.unsupportedHeader name)
    | [] => .ok payload
  body _ := .whole
  readHeaders _ _ headers := some headers

end RuststreamKinesis
