import RuststreamKinesis.Framing
import RuststreamKinesis.Grammar
import RuststreamKinesis.Publisher

/-!
# A delivery and its copies

`KinesisMessage::read_headers` (`message.rs`), what the harness reports as published
(`in_process/mod.rs`), and the copies a retry publishes of a delivery. A layout is lawful when it
reads back what it writes; `Rsk`, `Framed` in JSON and `NoOp` are.
-/

namespace RuststreamKinesis

set_option autoImplicit false

/-- `HeaderMap::new`. -/
abbrev HeaderMap.new : HeaderMap := ⟨[], List.nodup_nil⟩

theorem asBytes_cons (c : Char) (chars : List Char) : asBytes (String.ofList (c :: chars)) =
    String.utf8EncodeChar c ++ asBytes (String.ofList chars) := by
  rw [asBytes, asBytes, String.toByteArray_ofList, String.toByteArray_ofList, List.utf8Encode_cons,
    List.utf8Encode_singleton]
  simp

/-- Text is read as itself. -/
theorem fromUtf8Lossy_asBytes (s : String) : fromUtf8Lossy (asBytes s) = s.toList := by
  obtain ⟨chars, rfl⟩ : ∃ chars, String.ofList chars = s := ⟨s.toList, String.ofList_toList⟩
  rw [String.toList_ofList]
  induction chars with
  | nil =>
    rw [fromUtf8Lossy]
    rfl
  | cons c chars ih =>
    have hne : asBytes (String.ofList (c :: chars)) ≠ [] := by
      rw [asBytes_cons]
      simp
    have hfirst : ByteArray.utf8DecodeChar? ⟨(asBytes (String.ofList (c :: chars))).toArray⟩ 0 =
        some c := by
      rw [asBytes, Array.toArray_toList, String.toByteArray_ofList]
      exact List.utf8DecodeChar?_utf8Encode_cons
    have hrest : (asBytes (String.ofList (c :: chars))).drop c.utf8Size =
        asBytes (String.ofList chars) := by
      rw [asBytes_cons, ← String.length_utf8EncodeChar, List.drop_left]
    rw [fromUtf8Lossy, if_neg hne]
    simp only [hfirst, hrest, ih]

namespace HeaderMap

variable {headers headers' : HeaderMap} {name : String} {value : List UInt8}

theorem get_insert (other : String) : (headers.insert name value).get other =
    if other = name then some value else headers.get other :=
  lookup_put other

theorem put_carried {entries : List (String × List UInt8)} (h : isNative name = true) :
    (put name value entries).filter (fun entry => !isNative entry.1) =
      entries.filter fun entry => !isNative entry.1 := by
  induction entries with
  | nil => simp [put, h]
  | cons entry rest ih =>
    simp only [put]
    split
    · rename_i he
      simp [h, he]
    · rw [List.filter_cons, List.filter_cons, ih]

/-- What is put under a native name is not for the envelope. -/
theorem carried_insert (h : isNative name = true) :
    (headers.insert name value).carried = headers.carried :=
  put_carried h

theorem carried_of_entries (h : headers'.entries = headers.carried) :
    headers'.carried = headers.carried := by
  rw [carried, h, carried, List.filter_filter]
  simp

end HeaderMap

/-- What a layout promises of the records it writes, up to the size a record may have: the headers
that are not native are all it writes, and it reads back what it wrote. -/
structure Envelope.Lawful (envelope : Envelope) : Prop where
  carried : ∀ (headers headers' : HeaderMap) (payload : List UInt8),
    headers.carried = headers'.carried →
    envelope.sealRecord headers payload = envelope.sealRecord headers' payload
  body : ∀ (headers : HeaderMap) (payload data : List UInt8),
    envelope.sealRecord headers payload = .ok data → data.length ≤ maxRecord →
    ((envelope.body data).fit data.length).payload data = payload
  headers : ∀ (headers : HeaderMap) (payload data : List UInt8),
    envelope.sealRecord headers payload = .ok data → data.length ≤ maxRecord →
    ∃ read, envelope.readHeaders data ((envelope.body data).fit data.length) {} = some read ∧
      read.entries = headers.carried

theorem insertAll_carried (headers : HeaderMap) :
    (({} : HeaderMap).insertAll headers.carried).entries = headers.carried :=
  HeaderMap.insertAll_entries headers.carried_nodup

theorem noOp_lawful : noOp.Lawful where
  carried headers headers' payload h := by simp only [noOp, h]
  body headers payload data h _ :=
    (@noOp_seal ⟨"", headers, payload, none, none, ""⟩ data h).2
  headers headers payload data h _ :=
    ⟨{}, rfl, (@noOp_seal ⟨"", headers, payload, none, none, ""⟩ data h).1.symm⟩

/-- A record that is no longer than a stream takes has a block whose length can be written. -/
theorem rsk_block {headers : HeaderMap} {payload data : List UInt8}
    (h : Rsk.magic ++ Rsk.fieldLen (Rsk.blockLength headers.carried) ++
      headers.carried.flatMap Rsk.putHeader ++ payload = data)
    (hsize : data.length ≤ maxRecord) : Rsk.blockLength headers.carried < 2 ^ 32 := by
  have hlen := congrArg List.length h
  rw [List.length_append, List.length_append, Rsk.length_front, Rsk.length_block] at hlen
  simp only [maxRecord] at hsize
  omega

theorem rsk_lawful : rsk.Lawful where
  carried headers headers' payload h := by simp only [rsk_sealRecord, Rsk.sealRecord, h]
  body headers payload data h hsize :=
    @rsk_payload ⟨"", headers, payload, none, none, ""⟩ data h hsize
  headers headers payload data h hsize := by
    rw [rsk_sealRecord] at h
    rw [rsk_readHeaders]
    by_cases hplain : Rsk.blockLength headers.carried = 0 ∧
        Rsk.looksEnveloped payload = false
    · obtain rfl := Except.ok.inj ((Rsk.seal_plain hplain).symm.trans h)
      refine ⟨{}, (Rsk.plain hplain.2).2 _ _, ?_⟩
      rw [Rsk.blockLength_eq_zero.mp hplain.1]
    · have hdata := Except.ok.inj ((Rsk.seal_enveloped hplain).symm.trans h)
      have hread := (Rsk.enveloped payload (rsk_block hdata hsize)).headers
      rw [hdata] at hread
      exact ⟨_, hread _ _, insertAll_carried headers⟩

/-- Where no header is found that is not text, each is. -/
theorem text_of_find_none {entries : List (String × List UInt8)}
    (h : (entries.find? fun entry => (fromUtf8 entry.2).isNone) = none) :
    ∀ entry ∈ entries, ∃ s, asBytes s = entry.2 := by
  intro entry hmem
  cases htext : fromUtf8 entry.2 with
  | some s => exact ⟨s, asBytes_of_fromUtf8 htext⟩
  | none =>
    have hnot := List.find?_eq_none.mp h entry hmem
    simp [htext] at hnot

/-- A frame is written only of headers that are text. -/
theorem framed_seal {headers : HeaderMap} {payload data : List UInt8}
    (h : framed.sealRecord headers payload = .ok data) :
    data = Framed.frame headers.carried payload ∧
      ∀ entry ∈ headers.carried, ∃ s, asBytes s = entry.2 := by
  change Framed.sealRecord headers payload = _ at h
  unfold Framed.sealRecord at h
  split at h
  · cases h
  · rename_i hfind
    exact ⟨(Except.ok.inj h).symm, text_of_find_none hfind⟩

theorem framed_lawful : framed.Lawful where
  carried headers headers' payload h := by
    change Framed.sealRecord headers payload = Framed.sealRecord headers' payload
    simp only [Framed.sealRecord, h]
  body headers payload data h _ := by
    obtain ⟨rfl, htext⟩ := framed_seal h
    exact (frame_readsBack payload htext).body
  headers headers payload data h _ := by
    obtain ⟨rfl, hbytes⟩ := framed_seal h
    obtain ⟨document, map, held, hd, hshaped, hmap, -, htext, -⟩ :=
      frame_shaped headers.carried payload
    obtain ⟨found, hfound, hopens⟩ := opens_of_shape (Or.inl hshaped)
    have hbody : framed.body (Framed.frame headers.carried payload) = held.body :=
      body_of_opens hd hfound hopens htext
    have hfit := fit_held hshaped
    rw [hd] at hfit
    have hread := readHeaders_read.mpr (textHeaders_textMap hmap)
    refine ⟨({} : HeaderMap).insertAll headers.carried, ?_, insertAll_carried headers⟩
    change Framed.readHeaders _ _ _ = _
    rw [hbody, hfit, Framed.readHeaders, if_neg (held_body_ne held),
      headers_of_opens hd hfound hopens, hread, Option.map_some, textHeaders_bytes hbytes]

/-- The layouts whose records the crate writes itself are lawful. -/
theorem shipped_lawful : rsk.Lawful ∧ framed.Lawful ∧ noOp.Lawful :=
  ⟨rsk_lawful, framed_lawful, noOp_lawful⟩

/-- How a transport names its shard and writes its sequence numbers. -/
structure Names where
  shard : String
  sequence : Nat → String

namespace KinesisMessage

/-- The record's headers: what the envelope carries, then the three the record carries natively,
which win over a header of the same name in the envelope. -/
def readHeaders (message : KinesisMessage) (envelope : Envelope) (names : Names) : HeaderMap :=
  let received := message.received
  -- A header block that does not parse costs the delivery its envelope headers.
  let headers := (envelope.readHeaders received.data message.body .new).getD .new
  ((headers.insert partitionKeyHeader (asBytes received.partitionKey)).insert sequenceHeader
    (asBytes (names.sequence received.sequence))).insert shardHeader (asBytes names.shard)

/-- The copy of a delivery that a retry publishes to its stream, with one more header. -/
def retryCopy (message : KinesisMessage) (envelope : Envelope) (names : Names) (stream : String)
    (counter : String × List UInt8) (fromPolicy : Option String) (spreadKey : String) :
    Outgoing where
  stream := stream
  headers := (message.readHeaders envelope names).insert counter.1 counter.2
  payload := message.payload
  fromPolicy := fromPolicy
  spreadKey := spreadKey

end KinesisMessage

/-- The delivery of a record that a reader received. -/
def PutRecord.opened (record : PutRecord) (envelope : Envelope) (sequence : Nat) :
    KinesisMessage :=
  .opened ⟨record.data, record.partitionKey, sequence⟩ envelope

/-- `RawMessage`: a record as the harness reports it. -/
structure RawMessage where
  payload : List UInt8
  headers : HeaderMap

/-- `write` and `Bus::published`: what the harness reports of a record, which the envelope that
wrote it reads back. -/
def PutRecord.published (record : PutRecord) (envelope : Envelope) : RawMessage :=
  let body := (envelope.body record.data).fit record.data.length
  let read := (envelope.readHeaders record.data body .new).getD .new
  ⟨body.payload record.data, read.insert partitionKeyHeader (asBytes record.partitionKey)⟩

section Delivered

variable {Owner Store : Type} {putRecord : PutRecord → Bool} {link : Link Owner Store}
variable {envelope : Envelope} {msg : Outgoing} {record copy : PutRecord} {names : Names}
variable {message : KinesisMessage} {sequence : Nat} {counter : String × List UInt8}

theorem isNative_iff {name : String} : isNative name = true ↔
    name = partitionKeyHeader ∨ name = sequenceHeader ∨ name = shardHeader := by
  simp [isNative, or_assoc]

/-- The headers a record carries natively are the record's, whatever its data says. -/
theorem get_readHeaders (name : String) : (message.readHeaders envelope names).get name =
    if name = shardHeader then some (asBytes names.shard)
    else if name = sequenceHeader then
      some (asBytes (names.sequence message.received.sequence))
    else if name = partitionKeyHeader then some (asBytes message.received.partitionKey)
    else ((envelope.readHeaders message.received.data message.body {}).getD {}).get name := by
  simp only [KinesisMessage.readHeaders, HeaderMap.get_insert]

theorem carried_readHeaders : (message.readHeaders envelope names).carried =
    ((envelope.readHeaders message.received.data message.body {}).getD {}).carried := by
  rw [KinesisMessage.readHeaders, HeaderMap.carried_insert rfl, HeaderMap.carried_insert rfl,
    HeaderMap.carried_insert rfl]

theorem publish_key (h : publish putRecord link envelope msg = .ok record) :
    record.partitionKey =
      resolvePartitionKey msg.option msg.headers msg.fromPolicy msg.spreadKey := by
  unfold publish at h
  split at h
  · cases h
  · split at h
    · cases h
    · split at h
      · dsimp only at h
        split at h
        · obtain rfl := Except.ok.inj h
          rfl
        · cases h
      · dsimp only at h
        split at h
        · cases h
        · obtain rfl := Except.ok.inj h
          rfl

/-- What a delivery of a published record carries. -/
theorem delivered_carried (sequence : Nat) (hlaw : envelope.Lawful)
    (hseal : envelope.sealRecord msg.headers msg.payload = .ok record.data)
    (hlen : record.data.length ≤ maxRecord) :
    ∃ read, envelope.readHeaders record.data (record.opened envelope sequence).body {} =
      some read ∧ read.entries = msg.headers.carried :=
  hlaw.headers msg.headers msg.payload record.data hseal hlen

/-- A record that was published is delivered with its payload and its headers, the three native
ones being the record's own. Publishing what was delivered writes the same record again. -/
theorem delivered_as_published (hsize : ∀ record, putRecord record = true →
      record.data.length + record.partitionKey.utf8ByteSize ≤ maxRecord)
    (hlaw : envelope.Lawful) (h : publish putRecord link envelope msg = .ok record)
    (names : Names) (sequence : Nat) :
    let message := record.opened envelope sequence
    message.payload = msg.payload ∧
    (∀ name, (message.readHeaders envelope names).get name =
      if name = shardHeader then some (asBytes names.shard)
      else if name = sequenceHeader then some (asBytes (names.sequence sequence))
      else if name = partitionKeyHeader then
        some (asBytes (resolvePartitionKey msg.option msg.headers msg.fromPolicy msg.spreadKey))
      else msg.headers.get name) ∧
    ∀ fromPolicy spreadKey,
      envelope.sealRecord (message.readHeaders envelope names) message.payload =
        .ok record.data ∧
      resolvePartitionKey none (message.readHeaders envelope names) fromPolicy spreadKey =
        record.partitionKey := by
  intro message
  obtain ⟨hseal, hlen⟩ := publish_ok hsize h
  obtain ⟨read, hread, hentries⟩ := delivered_carried sequence hlaw hseal hlen
  have hpayload : message.payload = msg.payload :=
    hlaw.body msg.headers msg.payload record.data hseal hlen
  have hget : ∀ name, (message.readHeaders envelope names).get name =
      if name = shardHeader then some (asBytes names.shard)
      else if name = sequenceHeader then some (asBytes (names.sequence sequence))
      else if name = partitionKeyHeader then some (asBytes record.partitionKey)
      else read.get name := by
    intro name
    rw [get_readHeaders]
    simp only [message, PutRecord.opened, KinesisMessage.opened] at hread ⊢
    rw [hread]
    rfl
  refine ⟨hpayload, ?_, ?_⟩
  · intro name
    rw [hget, publish_key h]
    split_ifs with hshard hsequence hkey
    · rfl
    · rfl
    · rfl
    · have hnot : isNative name = false := by
        rw [← Bool.not_eq_true, isNative_iff]
        simp [hshard, hsequence, hkey]
      rw [HeaderMap.get, hentries, HeaderMap.carried_lookup, if_neg (by simp [hnot])]
  · intro fromPolicy spreadKey
    constructor
    · rw [hpayload, ← hseal]
      refine hlaw.carried _ _ _ ?_
      rw [carried_readHeaders]
      refine HeaderMap.carried_of_entries ?_
      rw [← hentries]
      exact congrArg (fun read => (Option.getD read {}).entries) hread
    · have hkey := hget partitionKeyHeader
      simp only [partitionKeyHeader, shardHeader, sequenceHeader] at hkey
      simp only [resolvePartitionKey, partitionKeyHeader, hkey]
      simp [fromUtf8Lossy_asBytes]

/-- The records that copies of deliveries of a record make, each counted in the same header. -/
inductive Copied (putRecord : PutRecord → Bool) (link : Link Owner Store) (envelope : Envelope)
    (names : Names) (counter : String) (record : PutRecord) : PutRecord → Prop where
  | refl : Copied putRecord link envelope names counter record record
  | next {copied copy : PutRecord} {sequence : Nat} {stream spreadKey : String}
      {count : List UInt8} {fromPolicy : Option String} :
      Copied putRecord link envelope names counter record copied →
      publish putRecord link envelope ((copied.opened envelope sequence).retryCopy envelope names
        stream (counter, count) fromPolicy spreadKey) = .ok copy →
      Copied putRecord link envelope names counter record copy

/-- What two records show that may differ in one header beside those stamped on reading. -/
structure Alike (envelope : Envelope) (names : Names) (counter : String)
    (record copy : PutRecord) : Prop where
  key : copy.partitionKey = record.partitionKey
  payload : ∀ sequence sequence', (copy.opened envelope sequence').payload =
    (record.opened envelope sequence).payload
  headers : ∀ sequence sequence' name, name ≠ counter → name ≠ sequenceHeader →
    ((copy.opened envelope sequence').readHeaders envelope names).get name =
      ((record.opened envelope sequence).readHeaders envelope names).get name

theorem Alike.refl {counter : String} : Alike envelope names counter record record where
  key := rfl
  payload _ _ := rfl
  headers sequence sequence' name _ hne := by
    rw [get_readHeaders, get_readHeaders, if_neg hne, if_neg hne]
    rfl

theorem Alike.trans {counter : String} {middle : PutRecord}
    (h : Alike envelope names counter record middle)
    (h' : Alike envelope names counter middle copy) :
    Alike envelope names counter record copy where
  key := h'.key.trans h.key
  payload sequence sequence' := (h'.payload 0 sequence').trans (h.payload sequence 0)
  headers sequence sequence' name hcounter hne :=
    (h'.headers 0 sequence' name hcounter hne).trans (h.headers sequence 0 name hcounter hne)

/-- A copy keeps the key, the payload and the other headers of what it copies. -/
theorem alike_of_copy {stream spreadKey : String} {fromPolicy : Option String}
    (hsize : ∀ record, putRecord record = true →
      record.data.length + record.partitionKey.utf8ByteSize ≤ maxRecord)
    (hlaw : envelope.Lawful) (hcounter : isNative counter.1 = false)
    (h : publish putRecord link envelope ((record.opened envelope sequence).retryCopy envelope
      names stream counter fromPolicy spreadKey) = .ok copy) :
    Alike envelope names counter.1 record copy := by
  obtain ⟨hseal, hlen⟩ := publish_ok hsize h
  have hkey := publish_key h
  have hnative := (not_congr isNative_iff).mp (Bool.eq_false_iff.mp hcounter)
  simp only [not_or] at hnative
  have hname : ((record.opened envelope sequence).readHeaders envelope names).get
      partitionKeyHeader = some (asBytes record.partitionKey) := by
    rw [get_readHeaders]
    rfl
  have hsame : copy.partitionKey = record.partitionKey := by
    rw [hkey]
    simp only [KinesisMessage.retryCopy, resolvePartitionKey, HeaderMap.get_insert,
      if_neg (Ne.symm hnative.1), hname]
    simp [fromUtf8Lossy_asBytes]
  refine ⟨hsame, ?_, ?_⟩
  · intro n m
    exact hlaw.body _ _ _ hseal hlen
  · intro n m name hother hsequence
    rw [Alike.refl.headers sequence n name hother hsequence]
    by_cases hnot : isNative name = true
    · rw [get_readHeaders, get_readHeaders]
      rcases isNative_iff.mp hnot with rfl | rfl | rfl
      · exact congrArg (fun key => some (asBytes key)) hsame
      · exact absurd rfl hsequence
      · rfl
    · obtain ⟨read, hread, hentries⟩ := delivered_carried m hlaw hseal hlen
      have hplain := (not_congr isNative_iff).mp hnot
      simp only [not_or] at hplain
      have hget : read.get name = if isNative name then none else
          ((record.opened envelope sequence).retryCopy envelope names stream counter fromPolicy
            spreadKey).headers.get name := by
        rw [HeaderMap.get, hentries, HeaderMap.carried_lookup]
      rw [if_neg hnot, KinesisMessage.retryCopy, HeaderMap.get_insert, if_neg hother] at hget
      rw [get_readHeaders, if_neg hplain.2.2, if_neg hplain.2.1, if_neg hplain.1, ← hget]
      exact congrArg (fun read => (Option.getD read {}).get name) hread

/-- However a record came to its stream, any number of counted copies of it leave its partition
key, its payload and its other headers as they are. -/
theorem copies_keep {counter : String} (hsize : ∀ record, putRecord record = true →
      record.data.length + record.partitionKey.utf8ByteSize ≤ maxRecord)
    (hlaw : envelope.Lawful) (hcounter : isNative counter = false)
    (h : Copied putRecord link envelope names counter record copy) :
    Alike envelope names counter record copy := by
  induction h with
  | refl => exact .refl
  | next _ hpub ih => exact ih.trans (alike_of_copy hsize hlaw hcounter hpub)

/-- What the harness reports of a published record is what a delivery of it shows, but for the
shard and the sequence number, which are stamped on reading. -/
theorem published_as_delivered (hsize : ∀ record, putRecord record = true →
      record.data.length + record.partitionKey.utf8ByteSize ≤ maxRecord)
    (hlaw : envelope.Lawful) (h : publish putRecord link envelope msg = .ok record)
    (names : Names) (sequence : Nat) :
    (record.published envelope).payload = (record.opened envelope sequence).payload ∧
    ∀ name, (record.published envelope).headers.get name =
      if name = shardHeader ∨ name = sequenceHeader then none
      else ((record.opened envelope sequence).readHeaders envelope names).get name := by
  obtain ⟨hseal, hlen⟩ := publish_ok hsize h
  obtain ⟨read, hread, hentries⟩ := delivered_carried sequence hlaw hseal hlen
  refine ⟨rfl, fun name => ?_⟩
  have hcarried : read.get name = if isNative name then none else msg.headers.get name := by
    rw [HeaderMap.get, hentries, HeaderMap.carried_lookup]
  have hpublished : (record.published envelope).headers.get name =
      if name = partitionKeyHeader then some (asBytes record.partitionKey)
      else read.get name := by
    rw [PutRecord.published, HeaderMap.get_insert]
    exact congrArg (fun read => if name = partitionKeyHeader then
      some (asBytes record.partitionKey) else (Option.getD read {}).get name) hread
  rw [hpublished]
  by_cases hstamped : name = shardHeader ∨ name = sequenceHeader
  · have hnative : isNative name = true := isNative_iff.mpr (.inr hstamped.symm)
    have hne : name ≠ partitionKeyHeader := by
      rcases hstamped with rfl | rfl <;> decide
    rw [if_pos hstamped, if_neg hne, hcarried, if_pos hnative]
  · obtain ⟨hshard, hsequence⟩ := not_or.mp hstamped
    rw [if_neg hstamped, get_readHeaders, if_neg hshard, if_neg hsequence]
    split_ifs with hkey
    · rfl
    · exact (congrArg (fun read => (Option.getD read {}).get name) hread).symm

end Delivered

/-- An order under a key, with a header. -/
def order : Outgoing where
  stream := "orders"
  headers := ⟨[("tenant", [7])], by simp⟩
  payload := [1, 2]
  option := some "customer-7"
  spreadKey := "rs-1-0"

/-- The in-process names, as far as one sequence number goes. -/
def someNames : Names := ⟨inProcessShard, fun _ => "49"⟩

theorem checkedPut_size (record : PutRecord) (h : checkedPut record = true) :
    record.data.length + record.partitionKey.utf8ByteSize ≤ maxRecord :=
  checkRecord_size (Option.isNone_iff_eq_none.mp h)

theorem publish_inProcess {envelope : Envelope} {msg : Outgoing} {data : List UInt8} {key : String}
    (hseal : envelope.sealRecord msg.headers msg.payload = .ok data)
    (hkey : resolvePartitionKey msg.option msg.headers msg.fromPolicy msg.spreadKey = key)
    (hcheck : checkRecord ⟨msg.stream, key, data⟩ = none) :
    publish checkedPut (.inProcess false : Link Nat Nat) envelope msg =
      .ok ⟨msg.stream, key, data⟩ := by
  subst hkey
  simp only [publish, Link.closed, hseal, hcheck]
  rfl

theorem delivered_as_published_order : ∃ record : PutRecord,
    publish checkedPut (.inProcess false : Link Nat Nat) rsk order = .ok record ∧
    (record.opened rsk 0).payload = [1, 2] ∧
    ((record.opened rsk 0).readHeaders rsk someNames).get "tenant" = some [7] := by
  have hpub : publish checkedPut (.inProcess false : Link Nat Nat) rsk order = .ok _ := rfl
  obtain ⟨hpayload, hget, -⟩ :=
    delivered_as_published checkedPut_size rsk_lawful hpub someNames 0
  exact ⟨_, hpub, hpayload, (hget "tenant").trans (by decide)⟩

/-- The record that order makes. -/
def orderRecord : PutRecord where
  stream := "orders"
  partitionKey := "customer-7"
  data := Rsk.magic ++ Rsk.fieldLen (Rsk.blockLength order.headers.carried) ++
    order.headers.carried.flatMap Rsk.putHeader ++ order.payload

/-- The headers of a delivery of it. -/
def orderHeaders : HeaderMap :=
  ((order.headers.insert partitionKeyHeader (asBytes "customer-7")).insert sequenceHeader
    (asBytes "49")).insert shardHeader (asBytes inProcessShard)

/-- The copy of it that counts the second attempt. -/
def orderCopy : Outgoing where
  stream := "orders"
  headers := orderHeaders.insert "attempt" [2]
  payload := [1, 2]
  spreadKey := "rs-1-1"

theorem orderRecord_headers :
    (orderRecord.opened rsk 0).readHeaders rsk someNames = orderHeaders := by
  obtain ⟨read, hread, hentries⟩ :=
    rsk_lawful.headers order.headers order.payload orderRecord.data rfl (by decide)
  obtain rfl : read = order.headers := by
    cases read
    cases hentries
    rfl
  exact congrArg (fun read => (((Option.getD read {}).insert partitionKeyHeader
    (asBytes "customer-7")).insert sequenceHeader (asBytes "49")).insert shardHeader
      (asBytes inProcessShard)) hread

theorem orderCopy_key : resolvePartitionKey orderCopy.option orderCopy.headers
    orderCopy.fromPolicy orderCopy.spreadKey = "customer-7" := by
  have hname : orderCopy.headers.get partitionKeyHeader = some (asBytes "customer-7") := rfl
  simp only [resolvePartitionKey, orderCopy] at hname ⊢
  simp only [hname, fromUtf8Lossy_asBytes, String.ofList_toList]

/-- The copy of that order is another record, which shows the same. -/
theorem copies_keep_order : ∃ copy : PutRecord,
    copy.data ≠ orderRecord.data ∧ Alike rsk someNames "attempt" orderRecord copy := by
  have hpayload : (orderRecord.opened rsk 0).payload = [1, 2] :=
    rsk_lawful.body order.headers order.payload orderRecord.data rfl (by decide)
  have hcopy : (orderRecord.opened rsk 0).retryCopy rsk someNames "orders" ("attempt", [2]) none
      "rs-1-1" = orderCopy := by
    rw [KinesisMessage.retryCopy, orderRecord_headers, hpayload]
    rfl
  obtain ⟨data, hdata, hpub⟩ : ∃ data, data ≠ orderRecord.data ∧
      publish checkedPut (.inProcess false : Link Nat Nat) rsk orderCopy =
        .ok ⟨"orders", "customer-7", data⟩ := by
    refine ⟨_, ?_, publish_inProcess rfl orderCopy_key (by decide)⟩
    decide
  rw [← hcopy] at hpub
  exact ⟨_, hdata, copies_keep checkedPut_size rsk_lawful (by decide) (.next .refl hpub)⟩

theorem published_as_delivered_order : ∃ record : PutRecord,
    publish checkedPut (.inProcess false : Link Nat Nat) rsk order = .ok record ∧
    (record.published rsk).headers.get "tenant" =
      ((record.opened rsk 0).readHeaders rsk someNames).get "tenant" := by
  have hpub : publish checkedPut (.inProcess false : Link Nat Nat) rsk order = .ok _ := rfl
  exact ⟨_, hpub,
    (published_as_delivered checkedPut_size rsk_lawful hpub someNames 0).2 "tenant"⟩

end RuststreamKinesis
