import RuststreamKinesis.InProcess.Log
import RuststreamKinesis.Lib.Cells
import RuststreamKinesis.Lib.Runs

/-!
# The in-process bus, step by step

The threads of a harness run over one bus (`in_process/mod.rs`, `log.rs`, `seek.rs`,
`deliveries.rs`): each action is one step of an append, a seek, a poll or a drop, so a run is an
interleaving of them. The coordinator is installed, so every `enqueued` and `consumed` is made;
the bus keeps them by the subscription they are made for.
-/

namespace RuststreamKinesis.InProcess

set_option autoImplicit false

open Cells

/-- A seek between its first step and its last. -/
inductive Seek where
  /-- The bus was open. -/
  | opened (position : KinesisPosition)
  /-- The plan is resolved and so much of its count is made. -/
  | counting (plan : Plan) (counted : Nat)
  /-- The plan is swapped in and so much of the displaced one's count is left to release. -/
  | releasing (left : Nat)
deriving DecidableEq, Repr

/-- Where a subscription's poll stands. -/
inductive Poll where
  | idle
  /-- The pending plan is taken; the log is not locked yet. -/
  | taken (plan : Plan)
  /-- In the log's lock: counted up to so many records of the suffix. -/
  | counting (counted : Nat) (suffix : List Delivery)
  | draining (suffix : List Delivery)
  /-- A delivery is drained and not yet consumed. -/
  | drained (suffix : List Delivery)
  | sending (left : List Delivery)
  /-- Outside the lock again, or there was no plan. -/
  | receiving
  | holding (delivery : Delivery)
deriving DecidableEq, Repr

/-- What sets the index a queue begins at. -/
inductive Event where
  | subscribed (length : Nat)
  | repositioned (target : Nat)
  | took (delivery : Delivery)
deriving DecidableEq, Repr

/-- A subscription: its channel, its seek surface, its poll, and what it handed out. -/
structure Sub where
  stream : String
  /-- The channel between the senders and `rx`. -/
  queue : List Delivery := []
  pending : Option Plan := none
  poll : Poll := .idle
  seeks : List Seek := []
  /-- Handed out and not dropped. -/
  out : List Delivery := []
  /-- `LogDeliveries` is not dropped, so it holds the receiver and the replay sender. -/
  alive : Bool := true
  /-- A reposition has been applied since the log was cleared (bookkeeping). -/
  swept : Bool := false
  enqueued : Nat := 0
  consumed : Nat := 0
  /-- The latest event first (bookkeeping). -/
  events : List Event
deriving DecidableEq, Repr

/-- An append before it locks the log. -/
inductive Append where
  | opened (stream partitionKey : String) (data : List UInt8)
  | stamped (stream : String) (record : Record)
deriving DecidableEq, Repr

/-- Who is inside the log's lock over several steps. -/
inductive Lock where
  | free
  /-- The fanout of a record: the subscriptions left to visit, and whether the first of them has
  been sent the delivery and not counted. -/
  | append (delivery : Delivery) (stream : String) (left : List Nat) (sent : Bool)
  | poll (sub : Nat)
deriving DecidableEq, Repr

inductive Phase where
  | opened
  /-- `closed` is set, the log not yet cleared. -/
  | closing
  | closed
deriving DecidableEq, Repr

structure Bus where
  records : String → List Record := fun _ => []
  /-- The keys of `LogState::subscriptions`. -/
  registry : List Nat := []
  /-- Every subscription ever registered, at its id. -/
  subs : List Sub := []
  /-- Subscriptions that found the bus open and have not registered. -/
  opening : List String := []
  appends : List Append := []
  lock : Lock := .free
  phase : Phase := .opened
  clock : Nat := 0

/-- The count of a plan that may be there. -/
def countOf (plan : Option Plan) : Nat := plan.elim 0 Plan.count

/-- The steps a thread makes on one subscription. -/
inductive SubAct where
  | seek (position : KinesisPosition)
  | plan (k : Nat)
  | count (k : Nat)
  | swap (k : Nat)
  | release (k : Nat)
  | wake (k : Nat)
  | take
  | reposition
  | grow
  | drain
  | consume
  | replay
  | unlock
  | receive
  | hand
  | drop (k : Nat)
deriving DecidableEq, Repr

namespace Sub

/-- What is or will be queued: inside a reposition, its suffix. -/
def ahead (sub : Sub) : List Delivery :=
  match sub.poll with
  | .counting _ suffix => suffix
  | .draining suffix => suffix
  | .drained suffix => suffix
  | .sending left => sub.queue ++ left
  | _ => sub.queue

def seekStep (sub : Sub) (phase : Phase) (log : List Record) : SubAct → Option Sub
  | .seek position =>
    if phase = .opened then some { sub with seeks := sub.seeks ++ [.opened position] } else none
  | .plan k =>
    match sub.seeks[k]? with
    | some (.opened position) =>
      match planOver log sub.stream position with
      | .ok plan => some { sub with seeks := sub.seeks.set k (.counting plan 0) }
      | .error _ => some { sub with seeks := sub.seeks.eraseIdx k }
    | _ => none
  | .count k =>
    match sub.seeks[k]? with
    | some (.counting plan counted) =>
      if counted < plan.count then
        some { sub with
          enqueued := sub.enqueued + 1
          seeks := sub.seeks.set k (.counting plan (counted + 1)) }
      else none
    | _ => none
  | .swap k =>
    match sub.seeks[k]? with
    | some (.counting plan counted) =>
      if counted = plan.count then
        some { sub with
          pending := some plan
          seeks := sub.seeks.set k (.releasing (countOf sub.pending)) }
      else none
    | _ => none
  | .release k =>
    match sub.seeks[k]? with
    | some (.releasing (left + 1)) =>
      some { sub with
        consumed := sub.consumed + 1
        seeks := sub.seeks.set k (.releasing left) }
    | _ => none
  | .wake k =>
    match sub.seeks[k]? with
    | some (.releasing 0) => some { sub with seeks := sub.seeks.eraseIdx k }
    | _ => none
  | _ => none

def pollStep (sub : Sub) (phase : Phase) (log : List Record) : SubAct → Option Sub
  | .take =>
    if sub.alive ∧ sub.poll = .idle then
      match sub.pending with
      | some plan => some { sub with pending := none, poll := .taken plan }
      | none => some { sub with poll := .receiving }
    else none
  | .reposition =>
    match sub.poll with
    | .taken plan =>
      some { sub with
        poll := .counting plan.count (suffixFrom log plan.target)
        swept := sub.swept || phase == .closed
        events := .repositioned plan.target :: sub.events }
    | _ => none
  | .grow =>
    match sub.poll with
    | .counting counted suffix =>
      if counted < suffix.length then
        some { sub with enqueued := sub.enqueued + 1, poll := .counting (counted + 1) suffix }
      else none
    | _ => none
  | .drain =>
    match sub.poll with
    | .counting counted suffix =>
      if counted < suffix.length then none else some { sub with poll := .draining suffix }
    | .draining suffix =>
      match sub.queue with
      | _ :: queue => some { sub with queue, poll := .drained suffix }
      | [] => some { sub with poll := .sending suffix }
    | _ => none
  | .consume =>
    match sub.poll with
    | .drained suffix => some { sub with consumed := sub.consumed + 1, poll := .draining suffix }
    | _ => none
  | .replay =>
    match sub.poll with
    | .sending (delivery :: left) =>
      some { sub with queue := sub.queue ++ [delivery], poll := .sending left }
    | _ => none
  | .unlock =>
    match sub.poll with
    | .sending [] => some { sub with poll := .receiving }
    | _ => none
  | .receive =>
    match sub.poll, sub.queue with
    | .receiving, delivery :: queue =>
      some { sub with queue, poll := .holding delivery, events := .took delivery :: sub.events }
    | .receiving, [] => some { sub with poll := .idle }
    | _, _ => none
  | .hand =>
    match sub.poll with
    | .holding delivery =>
      match deliver delivery with
      | .error _ => some { sub with consumed := sub.consumed + 1, poll := .idle }
      | .ok _ => some { sub with out := sub.out ++ [delivery], poll := .idle }
    | _ => none
  | .drop k =>
    if k < sub.out.length then
      some { sub with consumed := sub.consumed + 1, out := sub.out.eraseIdx k }
    else none
  | _ => none

/-- One step on a subscription whose stream has the log. -/
def act (sub : Sub) (phase : Phase) (log : List Record) (a : SubAct) : Option Sub :=
  (sub.seekStep phase log a).or (sub.pollStep phase log a)

end Sub

/-- What a step on a subscription asks of the log's lock, and who holds it afterwards. -/
def Lock.after (lock : Lock) (s : Nat) : SubAct → Option Lock
  | .plan _ => if lock = .free then some .free else none
  | .reposition => if lock = .free then some (.poll s) else none
  | .unlock => if lock = .poll s then some .free else none
  | _ => some lock

inductive Act where
  | tick (millis : Nat)
  | subscribe (stream : String)
  | register (k : Nat)
  | append (stream partitionKey : String) (data : List UInt8)
  | stamp (k : Nat)
  /-- Locks the log, pushes the record, and is about to visit the registry in some order. -/
  | push (k : Nat) (order : List Nat)
  | fan
  | sub (s : Nat) (a : SubAct)
  /-- The subscription itself is dropped: it leaves the registry, then its channel goes. -/
  | part (s : Nat)
  | shut
  | clear
deriving DecidableEq, Repr

namespace Bus

/-- The turn of the fanout's loop at the subscription `s`. -/
def visit (b : Bus) (delivery : Delivery) (stream : String) (s : Nat) (left : List Nat) :
    Option Bus :=
  match b.subs[s]? with
  | none => none
  | some sub =>
    -- `send` succeeds so long as there is a receiver
    if sub.stream = stream ∧ sub.alive = true then
      some { b with
        subs := b.subs.set s { sub with queue := sub.queue ++ [delivery] }
        lock := .append delivery stream (s :: left) true }
    else some { b with lock := .append delivery stream left false }

def step (b : Bus) : Act → Option Bus
  | .tick millis => some { b with clock := b.clock + millis }
  | .subscribe stream =>
    if b.phase = .opened then some { b with opening := b.opening ++ [stream] } else none
  | .register k =>
    match b.opening[k]? with
    | some stream =>
      if b.lock = .free then
        some { b with
          opening := b.opening.eraseIdx k
          registry := b.subs.length :: b.registry
          subs := b.subs ++ [{ stream, events := [.subscribed (b.records stream).length] }] }
      else none
    | none => none
  | .append stream partitionKey data =>
    if b.phase = .opened then
      some { b with appends := b.appends ++ [.opened stream partitionKey data] }
    else none
  | .stamp k =>
    match b.appends[k]? with
    | some (.opened stream partitionKey data) =>
      some { b with appends := b.appends.set k (.stamped stream ⟨partitionKey, data, b.clock⟩) }
    | _ => none
  | .push k order =>
    match b.appends[k]? with
    | some (.stamped stream record) =>
      if b.lock = .free ∧ order.Perm b.registry then
        some { b with
          appends := b.appends.eraseIdx k
          records := Function.update b.records stream (b.records stream ++ [record])
          lock := .append ⟨record, (b.records stream).length⟩ stream order false }
      else none
    | _ => none
  | .fan =>
    match b.lock with
    | .append delivery stream (s :: left) false => b.visit delivery stream s left
    | .append delivery stream (s :: left) true =>
      match b.subs[s]? with
      | some sub =>
        some { b with
          subs := b.subs.set s { sub with enqueued := sub.enqueued + 1 }
          lock := .append delivery stream left false }
      | none => none
    | .append _ _ [] _ => some { b with lock := .free }
    | _ => none
  | .sub s a =>
    match b.subs[s]?, b.lock.after s a with
    | some sub, some lock =>
      (sub.act b.phase (b.records sub.stream) a).map fun sub =>
        { b with subs := b.subs.set s sub, lock }
    | _, _ => none
  | .part s =>
    match b.subs[s]? with
    | some sub =>
      if b.lock = .free ∧ sub.alive = true ∧ sub.poll = .idle then
        some { b with
          registry := b.registry.erase s
          subs := b.subs.set s { sub with alive := false, queue := [] } }
      else none
    | none => none
  | .shut =>
    some { b with phase := if b.phase = .opened then .closing else b.phase }
  | .clear =>
    if b.lock = .free ∧ b.phase ≠ .opened then
      some { b with registry := [], records := fun _ => [], phase := .closed }
    else none

/-- The senders of a subscription's channel: the registry's and its own. -/
def senders (b : Bus) (s : Nat) (sub : Sub) : Nat :=
  (if s ∈ b.registry then 1 else 0) + (if sub.alive then 1 else 0)

end Bus

/-- A bus whose coordinator is installed and which has had no subscription. -/
structure Fresh (b : Bus) : Prop where
  subs : b.subs = []
  registry : b.registry = []
  lock : b.lock = .free
  phase : b.phase = .opened

/-- A state of some run from a fresh bus. -/
def Reached (b : Bus) : Prop := ∃ start, Fresh start ∧ Runs.Run Bus.step (fun _ _ => True) start b

/-- No append, seek or poll is between its first step and its last. -/
structure AtRest (b : Bus) : Prop where
  appends : b.appends = []
  lock : b.lock = .free
  seeks : ∀ (s : Nat) (sub : Sub), b.subs[s]? = some sub → sub.seeks = []
  polls : ∀ (s : Nat) (sub : Sub), b.subs[s]? = some sub → sub.poll = .idle

/-- What a poll answers to its caller. -/
inductive Ready where
  | item (delivery : Delivery)
  | ended
  | pending
deriving DecidableEq, Repr

/-- `poll_recv`: an empty channel has ended once its senders are gone. -/
def Bus.receive (b : Bus) (s : Nat) (sub : Sub) : Ready :=
  match sub.queue with
  | delivery :: _ => .item delivery
  | [] => if b.senders s sub = 0 then .ended else .pending

end RuststreamKinesis.InProcess
