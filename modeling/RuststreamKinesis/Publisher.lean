import RuststreamKinesis.Broker
import RuststreamKinesis.Rsk
import RuststreamKinesis.Steps

/-!
# Publishing a record and reading it back

`KinesisPublisher::publish` on either transport (`publisher.rs`, `in_process/mod.rs`), and the
record it writes as the two readers take it up (`subscriber.rs`, `in_process/deliveries.rs`).
-/

namespace RuststreamKinesis

set_option autoImplicit false

/-- A record on its way to its stream. -/
structure PutRecord where
  stream : String
  partitionKey : String
  data : List UInt8
deriving DecidableEq, Repr

/-- The call's step, the header, the policy's key, and last a key of the process. -/
def resolvePartitionKey (option : Option String) (headers : HeaderMap)
    (fromPolicy : Option String) (spreadKey : String) : String :=
  match option with
  | some key => key
  | none =>
    match headers.get partitionKeyHeader with
    | some named => String.ofList (fromUtf8Lossy named)
    | none => fromPolicy.getD spreadKey

def maxPartitionKey : Nat := 256
def maxRecord : Nat := 10 * 1024 * 1024

/-- Refuses a record the service refuses. -/
def checkRecord (record : PutRecord) : Option RecordFault :=
  match checkStream record.stream with
  | some fault => some (.stream fault)
  | none =>
    let characters := record.partitionKey.length
    let size := record.data.length + record.partitionKey.utf8ByteSize
    if characters = 0 ∨ characters > maxPartitionKey then some (.keyLength characters)
    else if size > maxRecord then some (.size size)
    else none

/-- What a publish carries, and what names its partition key. -/
structure Outgoing where
  stream : String
  headers : HeaderMap
  payload : List UInt8
  option : Option String := none
  fromPolicy : Option String := none
  spreadKey : String

/-- Publishes through the link, over the service's answer to `PutRecord`. -/
def publish {Owner Store : Type} (putRecord : PutRecord → Bool) (link : Link Owner Store)
    (envelope : Envelope) (msg : Outgoing) : Except KinesisError PutRecord :=
  if link.closed then .error .notConnected
  else
    match envelope.sealRecord msg.headers msg.payload with
    | .error source => .error (.envelope msg.stream source)
    | .ok data =>
      let record : PutRecord := {
        stream := msg.stream
        partitionKey := resolvePartitionKey msg.option msg.headers msg.fromPolicy msg.spreadKey
        data := data }
      match link with
      | .aws _ => if putRecord record then .ok record else .error (.publish msg.stream .service)
      | .inProcess _ =>
        match checkRecord record with
        | some fault => .error (.publish msg.stream fault)
        | none => .ok record

/-- What a transport hands over of a record. -/
structure Received where
  data : List UInt8
  partitionKey : String
  sequence : Nat
deriving DecidableEq, Repr

/-- The one shard of the in-process transport. -/
def inProcessShard : String := "shardId-000000000000"

/-- `LogDeliveries::deliver`: the delivery a queued record makes. -/
def deliver (record : PutRecord) (index : Nat) : Except KinesisError Received :=
  if 4 < record.data.length ∧ record.data.take 4 = kplMagic then
    .error (.aggregatedRecord inProcessShard)
  else .ok ⟨record.data, record.partitionKey, index⟩

/-- `KinesisMessage`: a received record with the place its envelope finds the payload at. -/
structure KinesisMessage where
  received : Received
  body : Body

namespace KinesisMessage

/-- The delivery of a received record, its payload found by `envelope`. -/
def opened (received : Received) (envelope : Envelope) : KinesisMessage where
  received := received
  body := (envelope.body received.data).fit received.data.length

def payload (message : KinesisMessage) : List UInt8 :=
  message.body.payload message.received.data

end KinesisMessage

/-- The record begins as one that KPL aggregated. -/
def IsAggregated (data : List UInt8) : Prop := 4 < data.length ∧ data.take 4 = kplMagic

theorem isAggregated_iff {record : Record} :
    record.aggregated = true ↔ IsAggregated record.data := by
  simp [Record.aggregated, IsAggregated]

section Published

variable {Owner Store : Type} {putRecord : PutRecord → Bool} {link : Link Owner Store}
variable {envelope : Envelope} {msg : Outgoing} {record : PutRecord} {data : List UInt8}

theorem checkRecord_size (h : checkRecord record = none) :
    record.data.length + record.partitionKey.utf8ByteSize ≤ maxRecord := by
  unfold checkRecord at h
  split at h
  · cases h
  · dsimp only at h
    split at h
    · cases h
    · split at h
      · cases h
      · omega

theorem publish_ok (hsize : ∀ record, putRecord record = true →
      record.data.length + record.partitionKey.utf8ByteSize ≤ maxRecord)
    (h : publish putRecord link envelope msg = .ok record) :
    envelope.sealRecord msg.headers msg.payload = .ok record.data ∧
      record.data.length ≤ maxRecord := by
  unfold publish at h
  split at h
  · cases h
  · split at h
    · cases h
    · rename_i data hseal
      split at h
      · dsimp only at h
        split at h
        · rename_i hput
          cases h
          have := hsize _ hput
          exact ⟨hseal, by omega⟩
        · cases h
      · dsimp only at h
        split at h
        · cases h
        · rename_i hcheck
          cases h
          have := checkRecord_size hcheck
          exact ⟨hseal, by omega⟩

theorem magic_ne : Rsk.magic ≠ kplMagic := by decide

/-- Of the records the binary envelope writes, one begins as aggregated only where it is a payload
that does. -/
theorem rsk_aggregated (h : rsk.sealRecord msg.headers msg.payload = .ok data) :
    IsAggregated data ↔ msg.headers.carried = [] ∧ IsAggregated msg.payload := by
  rw [rsk_sealRecord] at h
  by_cases hplain : Rsk.blockLength msg.headers.carried = 0 ∧
      Rsk.looksEnveloped msg.payload = false
  · obtain rfl := Except.ok.inj ((Rsk.seal_plain hplain).symm.trans h)
    simp [Rsk.blockLength_eq_zero.mp hplain.1]
  · have hmagic := Except.ok.inj ((Rsk.seal_enveloped hplain).symm.trans h)
    have htake : data.take 4 = Rsk.magic := by
      rw [← hmagic, List.append_assoc, List.append_assoc]
      rfl
    constructor
    · rintro ⟨-, hk⟩
      exact absurd (htake.symm.trans hk) magic_ne
    · rintro ⟨hnone, -, hk⟩
      refine absurd ⟨Rsk.blockLength_eq_zero.mpr hnone, ?_⟩ hplain
      rw [Rsk.looksEnveloped, hk]
      rfl

theorem noOp_seal (h : noOp.sealRecord msg.headers msg.payload = .ok data) :
    msg.headers.carried = [] ∧ data = msg.payload := by
  simp only [noOp] at h
  split at h
  · cases h
  · rename_i hnone
    exact ⟨hnone, (Except.ok.inj h).symm⟩

theorem rsk_payload (h : rsk.sealRecord msg.headers msg.payload = .ok data)
    (hsize : data.length ≤ maxRecord) :
    ((rsk.body data).fit data.length).payload data = msg.payload := by
  rw [rsk_sealRecord] at h
  rw [rsk_body]
  by_cases hplain : Rsk.blockLength msg.headers.carried = 0 ∧
      Rsk.looksEnveloped msg.payload = false
  · obtain rfl := Except.ok.inj ((Rsk.seal_plain hplain).symm.trans h)
    rw [(Rsk.plain hplain.2).1]
    rfl
  · have hdata := Except.ok.inj ((Rsk.seal_enveloped hplain).symm.trans h)
    have hblock : Rsk.blockLength msg.headers.carried < 2 ^ 32 := by
      have hlen := congrArg List.length hdata
      rw [List.length_append, List.length_append, Rsk.length_front, Rsk.length_block] at hlen
      simp only [maxRecord] at hsize
      omega
    rw [← hdata]
    exact (Rsk.enveloped msg.payload hblock).payload

/-- Both readers hand the record out, and its payload is what was published. -/
structure HandedOut (envelope : Envelope) (payload : List UInt8) (record : PutRecord) :
    Prop where
  shards : ∀ (u u' : Subscription) (shard : Shard) (r : Reader) (epoch next stop : Nat)
    (last idle : Bool), r.pc = .forwarding epoch next stop last idle →
    (shard.log[next]?).map Record.data = some record.data → u.closed = false →
    u.handOut shard r = some u' →
    u'.queue = u.queue ++ [⟨some (epoch, r.gate), .delivery u.deliveries.length⟩] ∧
      ∃ d, u'.deliveries = u.deliveries ++ [d] ∧ d.sequence = next
  log : ∀ index, ∃ received, deliver record index = .ok received ∧ received.data = record.data
  payload : ∀ received : Received, received.data = record.data →
    (KinesisMessage.opened received envelope).payload = payload

theorem handOut_delivery {u u' : Subscription} {shard : Shard} {r : Reader}
    {epoch next stop : Nat} {last idle : Bool} (hdata : ¬ IsAggregated data)
    (hpc : r.pc = .forwarding epoch next stop last idle)
    (hrecord : (shard.log[next]?).map Record.data = some data) (hopen : u.closed = false)
    (h : u.handOut shard r = some u') :
    u'.queue = u.queue ++ [⟨some (epoch, r.gate), .delivery u.deliveries.length⟩] ∧
      ∃ d, u'.deliveries = u.deliveries ++ [d] ∧ d.sequence = next := by
  obtain ⟨record, hr, rfl⟩ := Option.map_eq_some_iff.mp hrecord
  have hagg : record.aggregated = false := by
    rw [← Bool.not_eq_true, isAggregated_iff]
    exact hdata
  have hstep : Subscription.ReaderStep u () shard {} r .handOut {} u' :=
    Subscription.handOut_cases h
  cases hstep with
  | refusedRecord hpc' _ _ hr' hagg' =>
    cases hpc.symm.trans hpc'
    cases hr.symm.trans hr'
    cases hagg.symm.trans hagg'
  | handClosedRefused _ _ hclosed | handClosed _ _ hclosed => cases hopen.symm.trans hclosed
  | handedOut hpc' =>
    cases hpc.symm.trans hpc'
    exact ⟨rfl, _, rfl, rfl⟩

theorem deliver_aggregated {index : Nat} (h : IsAggregated record.data) :
    deliver record index = .error (.aggregatedRecord inProcessShard) :=
  if_pos h

theorem handedOut_iff
    (hpayload : ((envelope.body record.data).fit record.data.length).payload record.data =
      msg.payload) :
    HandedOut envelope msg.payload record ↔ ¬ IsAggregated record.data := by
  constructor
  · intro h hagg
    obtain ⟨received, hdeliver, -⟩ := h.log 0
    cases (deliver_aggregated hagg).symm.trans hdeliver
  · intro hdata
    refine ⟨?_, ?_, ?_⟩
    · intro u u' shard r epoch next stop last idle hpc hrecord hopen h
      exact handOut_delivery hdata hpc hrecord hopen h
    · exact fun index => ⟨_, if_neg hdata, rfl⟩
    · intro received hreceived
      simp only [KinesisMessage.payload, KinesisMessage.opened, hreceived]
      exact hpayload

/-- An accepted record is handed out with its payload by both readers, unless it carries no header
and its payload begins as an aggregated record. -/
theorem accepted_handed_out_iff (hsize : ∀ record, putRecord record = true →
      record.data.length + record.partitionKey.utf8ByteSize ≤ maxRecord)
    (henvelope : envelope = rsk ∨ envelope = noOp)
    (h : publish putRecord link envelope msg = .ok record) :
    HandedOut envelope msg.payload record ↔
      msg.headers.carried ≠ [] ∨ ¬ (4 < msg.payload.length ∧ msg.payload.take 4 = kplMagic) := by
  obtain ⟨hseal, hlen⟩ := publish_ok hsize h
  have hboth : msg.headers.carried ≠ [] ∨
      ¬ (4 < msg.payload.length ∧ msg.payload.take 4 = kplMagic) ↔
      ¬ (msg.headers.carried = [] ∧ IsAggregated msg.payload) := by
    unfold IsAggregated
    exact not_and_or.symm
  rw [hboth]
  rcases henvelope with rfl | rfl
  · rw [handedOut_iff (rsk_payload hseal hlen), rsk_aggregated hseal]
  · obtain ⟨hnone, hdata⟩ := noOp_seal hseal
    have hpayload : ((noOp.body record.data).fit record.data.length).payload record.data =
        msg.payload := hdata
    rw [handedOut_iff hpayload, hdata]
    simp [hnone]

end Published

/-- A service that takes what the in-process transport takes. -/
def checkedPut (record : PutRecord) : Bool := (checkRecord record).isNone

/-- A payload of five bytes that begins with the aggregation magic. -/
def beginsAggregated : Outgoing where
  stream := "orders"
  headers := {}
  payload := [0xF3, 0x89, 0x9A, 0xC2, 0]
  spreadKey := "rs-1-0"

theorem accepted_not_handed_out : ∃ record : PutRecord,
    publish (fun _ => true) (.inProcess false : Link Nat Nat) rsk beginsAggregated = .ok record ∧
      deliver record 0 = .error (.aggregatedRecord inProcessShard) ∧
      ¬ HandedOut rsk beginsAggregated.payload record := by
  refine ⟨⟨"orders", "rs-1-0", beginsAggregated.payload⟩, by decide, by decide, ?_⟩
  intro h
  obtain ⟨received, hdeliver, -⟩ := h.log 0
  cases hdeliver

/-- The same payload under a header is handed out. -/
theorem accepted_handed_out_header : ∃ record : PutRecord,
    HandedOut rsk [0xF3, 0x89, 0x9A, 0xC2, 0] record := by
  have hpub : publish checkedPut (.inProcess false : Link Nat Nat) rsk
      { beginsAggregated with headers := ⟨[("tenant", [7])], by simp⟩ } = .ok _ := rfl
  refine ⟨_, (accepted_handed_out_iff ?_ (.inl rfl) hpub).mpr (.inl (by decide))⟩
  intro record hput
  exact checkRecord_size (Option.isNone_iff_eq_none.mp hput)

end RuststreamKinesis
