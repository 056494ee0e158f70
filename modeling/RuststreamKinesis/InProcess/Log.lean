import RuststreamKinesis.Lib.Partition
import RuststreamKinesis.Service
import RuststreamKinesis.Text

/-!
# The retained log of the in-process transport

A stream is an append-only list of records; a delivery is a record with its index in it
(`in_process/log.rs`, `in_process/seek.rs`). A position resolves to a plan: the index to resume
from and how many records that covers.
-/

namespace RuststreamKinesis.InProcess

set_option autoImplicit false

open Partition

/-- A retained record: what went out on the wire and when it arrived. -/
structure Record where
  partitionKey : String
  data : List UInt8
  atMillis : Nat
deriving DecidableEq, Repr

/-- A queued delivery: the record and its index in its stream's retained log. -/
structure Delivery where
  record : Record
  index : Nat
deriving DecidableEq, Repr

inductive KinesisPosition where
  | horizon
  | latest
  | timestamp (millis : Nat)
  | sequence (shard sequence : String)
deriving DecidableEq, Repr

inductive KinesisError where
  | notConnected
  | read (stream shard source : String)
  | aggregatedRecord (shard : String)
deriving DecidableEq, Repr

/-- Where a reposition lands: the index to resume from, and how many retained records that covered
at the instant it was resolved. -/
structure Plan where
  target : Nat
  count : Nat
deriving DecidableEq, Repr

/-- The shard every in-process stream has. -/
def inProcessShard : String := "shardId-000000000000"

/-- The digits a sequence number starts with; the rest is the record's index in the log. -/
def sequencePrefix : List Char := ['4', '9']

/-- A log index as a 56-digit decimal. -/
def sequenceOf (index : Nat) : String :=
  let digits := Nat.toDigits 10 index
  String.ofList (sequencePrefix ++ List.replicate (54 - digits.length) '0' ++ digits)

/-- `char::to_digit(10)`. -/
def toDigit (c : Char) : Option Nat :=
  if '0' ≤ c ∧ c ≤ '9' then some (c.toNat - '0'.toNat) else none

/-- `str::parse::<usize>`: a sign is taken in front of digits, and the number fits. -/
def parseUsize (digits : List Char) : Option Nat :=
  let body :=
    match digits with
    | '+' :: c :: rest => c :: rest
    | digits => digits
  if body = [] then none
  else
    (body.foldlM (fun n c => (toDigit c).map fun d => 10 * n + d) 0).filter (· < 2 ^ 64)

/-- The log index a sequence number this transport issued stands for. -/
def indexOf (sequence : String) : Option Nat :=
  if sequencePrefix <+: sequence.toList then
    let digits := sequence.toList.drop sequencePrefix.length
    if (asBytes (String.ofList digits)).length = 54 then parseUsize digits else none
  else none

/-- Resolves a position over one stream's retained records. -/
def planOver (log : List Record) (stream : String) :
    KinesisPosition → Except KinesisError Plan
  | .horizon => .ok ⟨0, log.length⟩
  | .latest => .ok ⟨log.length, 0⟩
  | .timestamp millis =>
    let target := partitionPoint (fun record => record.atMillis < millis) log
    .ok ⟨target, log.length - target⟩
  | .sequence shard sequence =>
    if shard ≠ inProcessShard then
      .error (.read stream shard "no live reader for this shard (not owned, or finished)")
    else
      match indexOf sequence with
      | none => .error (.read stream shard "the sequence number is not one this stream issued")
      | some index =>
        let target := min index log.length
        .ok ⟨target, log.length - target⟩

/-- The deliveries of the whole log. -/
def deliveries (log : List Record) : List Delivery :=
  log.zipIdx.map fun (record, index) => ⟨record, index⟩

/-- The retained suffix from an index on. -/
def suffixFrom (log : List Record) (target : Nat) : List Delivery := (deliveries log).drop target

/-- What a consumer is handed. -/
structure Received where
  data : List UInt8
  partitionKey : String
  sequence : String
deriving DecidableEq, Repr

/-- The delivery a queued record makes, decoded the way the service's reader decodes one. -/
def deliver (delivery : Delivery) : Except KinesisError Received :=
  let data := delivery.record.data
  if 4 < data.length ∧ data.take 4 = kplMagic then .error (.aggregatedRecord inProcessShard)
  else .ok ⟨data, delivery.record.partitionKey, sequenceOf delivery.index⟩

variable {log : List Record} {target : Nat}

@[simp] theorem length_deliveries : (deliveries log).length = log.length := by
  simp [deliveries]

@[simp] theorem length_suffixFrom : (suffixFrom log target).length = log.length - target := by
  simp [suffixFrom]

theorem getElem?_deliveries (i : Nat) :
    (deliveries log)[i]? = log[i]?.map fun record => ⟨record, i⟩ := by
  simp [deliveries, List.getElem?_zipIdx, Option.map_map, Function.comp_def]

theorem deliveries_push (record : Record) :
    deliveries (log ++ [record]) = deliveries log ++ [⟨record, log.length⟩] := by
  simp [deliveries, List.zipIdx_append]

theorem suffixFrom_push {record : Record} (h : target ≤ log.length) :
    suffixFrom (log ++ [record]) target = suffixFrom log target ++ [⟨record, log.length⟩] := by
  rw [suffixFrom, deliveries_push, List.drop_append_of_le_length (by simpa using h)]
  rfl

/-- The first delivery of a suffix is the record at its target; behind it the suffix goes on. -/
theorem suffixFrom_cons {d : Delivery} {rest : List Delivery}
    (h : suffixFrom log target = d :: rest) :
    d.index = target ∧ log[target]? = some d.record ∧ suffixFrom log (target + 1) = rest := by
  have hget : (deliveries log)[target]? = some d := by
    have := congrArg (fun l => l[0]?) h
    simpa [suffixFrom] using this
  rw [getElem?_deliveries] at hget
  obtain ⟨record, hrecord, rfl⟩ := Option.map_eq_some_iff.mp hget
  refine ⟨rfl, hrecord, ?_⟩
  have htail := congrArg List.tail h
  rw [suffixFrom, List.tail_drop] at htail
  exact htail

/-- A plan covers the log from its target to the end. -/
theorem planOver_covers {stream : String} {position : KinesisPosition} {plan : Plan}
    (h : planOver log stream position = .ok plan) : plan.target + plan.count = log.length := by
  cases position with
  | horizon =>
    obtain rfl := Except.ok.inj h
    simp
  | latest =>
    obtain rfl := Except.ok.inj h
    simp
  | timestamp millis =>
    obtain rfl := Except.ok.inj h
    have := partitionPoint_le (fun record : Record => record.atMillis < millis) log
    simp only
    omega
  | sequence shard sequence =>
    simp only [planOver] at h
    split at h
    · cases h
    · split at h
      · cases h
      · obtain rfl := Except.ok.inj h
        simp only
        omega

end RuststreamKinesis.InProcess
