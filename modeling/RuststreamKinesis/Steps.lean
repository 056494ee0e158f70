import RuststreamKinesis.Subscription

/-!
# What a step can do

`Subscription.Step` lists every outcome of `Subscription.step`, one constructor for each branch of
the source; `step_cases` is the only place where the step function is unfolded.
-/

namespace RuststreamKinesis

set_option autoImplicit false

namespace Subscription

variable {Owner : Type} [DecidableEq Owner]

/-- The outcomes of a step of the reader task `r`. -/
inductive ReaderStep (u : Subscription) (owner : Owner) (shard : Shard) (lease : MemoryLease Owner)
    (r : Reader) : ReaderAct → MemoryLease Owner → Subscription → Prop where
  | rowEnd {again : Bool} : r.pc = .opening again → lease.checkpoint = some .shardEnd →
      ReaderStep u owner shard lease r (.readRow true) lease (u.exit r none)
  | rowCheckpoint {again : Bool} {c : Nat} : r.pc = .opening again →
      lease.checkpoint = some (.sequence c) →
      ReaderStep u owner shard lease r (.readRow true) lease
        (u.goto r (.fetching (.afterSeq c) true again))
  | rowBlank {again : Bool} : r.pc = .opening again → lease.checkpoint = none →
      ReaderStep u owner shard lease r (.readRow true) lease
        (u.goto r (.fetching
          (reopenAt none lease.openedAt r.reading.rewind r.lineage u.installed)
          lease.openedAt.isSome again))
  | rowRetry : r.pc = .opening true →
      ReaderStep u owner shard lease r (.readRow false) lease (u.goto r .head)
  | rowFailClosed : r.pc = .opening false → u.closed = true →
      ReaderStep u owner shard lease r (.readRow false) lease (u.exit r r.reading.rewind)
  | rowFail : r.pc = .opening false → u.room = true →
      ReaderStep u owner shard lease r (.readRow false) lease
        ((u.push ⟨none, .error⟩).exit r r.reading.rewind)
  | opened {start : ShardStart} {recorded again : Bool} {p : Nat} :
      r.pc = .fetching start recorded again →
      shard.getShardIterator (iteratorAt start) = some p →
      ReaderStep u owner shard lease r (.openIterator .iterator) lease
        { u with reader := some { r with
            pc := .head
            iterator := p
            reading := { rewind := rewindTo start, unrecorded := !recorded } } }
  | openNone {start : ShardStart} {recorded again : Bool} : r.pc = .fetching start recorded again →
      ReaderStep u owner shard lease r (.openIterator .noIterator) lease (u.exit r none)
  | openRetry {start : ShardStart} {recorded : Bool} : r.pc = .fetching start recorded true →
      ReaderStep u owner shard lease r (.openIterator .fails) lease (u.goto r .head)
  | openFailClosed {start : ShardStart} {recorded : Bool} : r.pc = .fetching start recorded false →
      u.closed = true →
      ReaderStep u owner shard lease r (.openIterator .fails) lease (u.exit r r.reading.rewind)
  | openFail {start : ShardStart} {recorded : Bool} : r.pc = .fetching start recorded false →
      u.room = true →
      ReaderStep u owner shard lease r (.openIterator .fails) lease
        ((u.push ⟨none, .error⟩).exit r r.reading.rewind)
  | sawClosed : r.pc = .head → u.closed = true →
      ReaderStep u owner shard lease r .checkClosed lease (u.goto r (.releasing none))
  | sawOpen : r.pc = .head → u.closed = false →
      ReaderStep u owner shard lease r .checkClosed lease (u.goto r .draining)
  | takeDraining {call : Nat} {rest : List Nat} : r.pc = .draining → r.commands = call :: rest →
      ReaderStep u owner shard lease r .takeSeek lease
        { u with reader := some { r with pc := .seeking call false, commands := rest } }
  | takeIdle {call : Nat} {rest : List Nat} : r.pc = .idle → r.commands = call :: rest →
      ReaderStep u owner shard lease r .takeSeek lease
        { u with reader := some { r with pc := .seeking call true, commands := rest } }
  | drained : r.pc = .draining → r.commands = [] →
      ReaderStep u owner shard lease r .drained lease (u.goto r .renewing)
  | sought {call : Nat} {idle : Bool} {c : SeekCall} {p : Nat} : r.pc = .seeking call idle →
      u.calls[call]? = some c → shard.getShardIterator (iteratorAt c.start) = some p →
      ReaderStep u owner shard lease r (.applySeek .iterator) lease
        { u.setCall call c (.answered (.moved (u.applied + 1))) with
          reader := some { r with
            pc := if idle then .head else .draining
            iterator := p
            tracker := u.trackers.length
            reading := { rewind := rewindTo c.start, unrecorded := true } }
          trackers := u.trackers ++ [{}]
          applied := u.applied + 1 }
  | seekFailed {call : Nat} {idle : Bool} {c : SeekCall} {reply : Reply} :
      r.pc = .seeking call idle → u.calls[call]? = some c → reply ≠ .iterator →
      ReaderStep u owner shard lease r (.applySeek reply) lease
        ((u.setCall call c (.answered .failed)).goto r (if idle then .head else .draining))
  | renewed {now : Nat} : r.pc = .renewing → lease.owner = some owner →
      ReaderStep u owner shard lease r (.renew now)
        { lease with expires := some (now + leaseTtl) } (u.goto r .stamping)
  | fenced {now : Nat} : r.pc = .renewing → lease.owner ≠ some owner →
      ReaderStep u owner shard lease r (.renew now) lease (u.exit r r.reading.rewind)
  | renewFails : r.pc = .renewing →
      ReaderStep u owner shard lease r .renewFails lease (u.exit r r.reading.rewind)
  | notDue : r.pc = .renewing →
      ReaderStep u owner shard lease r .notDue lease (u.goto r .stamping)
  | stamp {epoch : Nat} : r.pc = .stamping → u.gates[r.gate]? = some epoch →
      ReaderStep u owner shard lease r .stamp lease (u.goto r (.reading epoch))
  | gotRecords {epoch count : Nat} {last : Bool} : r.pc = .reading epoch →
      r.iterator + count ≤ shard.log.length →
      (last = true → shard.closed = true ∧ r.iterator + count = shard.log.length) →
      ReaderStep u owner shard lease r (.getRecords count last) lease
        { u with reader := some { r with
          pc := .forwarding epoch r.iterator (r.iterator + count) last (count == 0)
          failures := 0 } }
  | throttled {epoch : Nat} : r.pc = .reading epoch →
      ReaderStep u owner shard lease r (.readFails .throttled) lease (u.goto r .head)
  | expired {epoch : Nat} : r.pc = .reading epoch → r.failures + 1 ≤ maxFailures →
      ReaderStep u owner shard lease r (.readFails .expired) lease
        { u with reader := some { r with pc := .opening true, failures := r.failures + 1 } }
  | gaveUpExpired {epoch : Nat} : r.pc = .reading epoch →
      ReaderStep u owner shard lease r (.readFails .expired) lease
        (u.goto r (.releasing r.reading.rewind))
  | readClosed {epoch : Nat} {error : ReadError} : r.pc = .reading epoch → u.closed = true →
      ReaderStep u owner shard lease r (.readFails error) lease (u.exit r none)
  | fatal {epoch : Nat} : r.pc = .reading epoch → u.room = true →
      ReaderStep u owner shard lease r (.readFails .fatal) lease
        ((u.push ⟨none, .error⟩).goto r (.releasing none))
  | gaveUp {epoch : Nat} : r.pc = .reading epoch → u.room = true →
      ReaderStep u owner shard lease r (.readFails .other) lease
        ((u.push ⟨none, .error⟩).goto r (.releasing r.reading.rewind))
  | retry {epoch : Nat} : r.pc = .reading epoch → u.room = true →
      r.failures + 1 ≤ maxFailures →
      ReaderStep u owner shard lease r (.readFails .other) lease
        { u.push ⟨none, .error⟩ with reader := some { r with
          pc := .head
          failures := r.failures + 1 } }
  | recorded {epoch next stop : Nat} {last idle : Bool} :
      r.pc = .forwarding epoch next stop last idle → next < stop → r.reading.unrecorded = true →
      lease.owner = some owner →
      ReaderStep u owner shard lease r (.recordOpening true)
        { lease with openedAt := some next }
        { u with reader := some { r with
          reading := { r.reading.noteFirst next with unrecorded := false } } }
  | notRecorded {epoch next stop : Nat} {last idle ok : Bool} :
      r.pc = .forwarding epoch next stop last idle → next < stop → r.reading.unrecorded = true →
      ReaderStep u owner shard lease r (.recordOpening ok) lease
        (u.exit { r with reading := r.reading.noteFirst next } (r.reading.noteFirst next).rewind)
  | refusedRecord {epoch next stop : Nat} {last idle : Bool} {record : Record} :
      r.pc = .forwarding epoch next stop last idle → next < stop → r.reading.unrecorded = false →
      shard.log[next]? = some record → record.aggregated = true → u.room = true →
      ReaderStep u owner shard lease r .handOut lease
        { (u.push ⟨some (epoch, r.gate), .aggregatedRecord⟩).goto
            { r with reading := r.reading.noteFirst next }
            (.forwarding epoch (next + 1) stop last idle) with
          refused := u.refused ++ [next] }
  | handClosedRefused {epoch next stop : Nat} {last idle : Bool} :
      r.pc = .forwarding epoch next stop last idle → next < stop → u.closed = true →
      ReaderStep u owner shard lease r .handOut lease
        (u.exit { r with reading := r.reading.noteFirst next } none)
  | handClosed {epoch next stop : Nat} {last idle : Bool} :
      r.pc = .forwarding epoch next stop last idle → next < stop → u.closed = true →
      ReaderStep u owner shard lease r .handOut lease
        (u.goto { r with reading := r.reading.noteFirst next } (.releasing none))
  | handedOut {epoch next stop : Nat} {last idle : Bool} {record : Record} {tracker : Watermark} :
      r.pc = .forwarding epoch next stop last idle → next < stop → r.reading.unrecorded = false →
      shard.log[next]? = some record → record.aggregated = false → u.room = true →
      u.closed = false → u.trackers[r.tracker]? = some tracker →
      ReaderStep u owner shard lease r .handOut lease
        { (u.push ⟨some (epoch, r.gate), .delivery u.deliveries.length⟩).goto
            { r with reading := r.reading.noteFirst next }
            (.forwarding epoch (next + 1) stop last idle) with
          trackers := u.trackers.set r.tracker (tracker.deliver next)
          deliveries := u.deliveries ++ [{
            sequence := next
            tracker := r.tracker
            index := tracker.nextIndex
            gate := r.gate
            epoch := epoch
            via := u.applied
            phase := .queued }] }
  | batchEnd {epoch stop : Nat} {idle : Bool} : r.pc = .forwarding epoch stop stop true idle →
      ReaderStep u owner shard lease r .batchDone lease (u.goto r (.ending stop))
  | batchDone {epoch stop : Nat} {idle : Bool} : r.pc = .forwarding epoch stop stop false idle →
      ReaderStep u owner shard lease r .batchDone lease
        { u with reader := some { r with
          pc := if idle then .idle else .head
          iterator := stop } }
  | wake : r.pc = .idle → ReaderStep u owner shard lease r .wake lease (u.goto r .head)
  | markedEnd {stop : Nat} {tracker : Watermark} : r.pc = .ending stop →
      u.trackers[r.tracker]? = some tracker → tracker.drained = true → lease.owner = some owner →
      ReaderStep u owner shard lease r (.markEnd true)
        { lease with checkpoint := some .shardEnd } (u.goto r (.releasing none))
  | leftEnd {stop : Nat} {ok : Bool} : r.pc = .ending stop → (u.closed = true ∨
      ∃ tracker, u.trackers[r.tracker]? = some tracker ∧ tracker.drained = true) →
      ReaderStep u owner shard lease r (.markEnd ok) lease (u.goto r (.releasing none))
  | release {rewind : Option ShardStart} : r.pc = .releasing rewind →
      ReaderStep u owner shard lease r .release (lease.release owner) (u.exit r rewind)
  | crash : r.exited = false → ReaderStep u owner shard lease r .crash lease (u.exit r none)

/-- The outcomes of a step of the subscription. -/
inductive Step (u : Subscription) (owner : Owner) (shard : Shard) (lease : MemoryLease Owner) :
    SubAct → MemoryLease Owner → Subscription → Prop where
  | nothingFinished {inBudget : Bool} : Step u owner shard lease (.forgetFinished inBudget) lease u
  | forgot {r : Reader} {rewind : Option ShardStart} {inBudget : Bool} : u.reader = some r →
      r.pc = .exited rewind → Step u owner shard lease (.forgetFinished inBudget) lease
        { u with reader := none, rewind := (if inBudget then rewind else none).or u.rewind }
  | acquired {lineage : Lineage} {now : Nat} : u.reader = none → lease.held owner now = false →
      Step u owner shard lease (.acquire lineage now)
        { lease with owner := some owner, expires := some (now + leaseTtl) } (u.spawn lineage)
  | notAcquired {lineage : Lineage} {now : Nat} : u.reader = none →
      lease.held owner now = true → Step u owner shard lease (.acquire lineage now) lease u
  | reported : u.room = true → Step u owner shard lease .report lease (u.push ⟨none, .error⟩)
  | reportClosed : u.closed = true → Step u owner shard lease .report lease u
  | leave : Step u owner shard lease .leave lease u.leave
  | reader {r : Reader} {act : ReaderAct} {lease' : MemoryLease Owner} {u' : Subscription} :
      u.reader = some r → ReaderStep u owner shard lease r act lease' u' →
      Step u owner shard lease (.reader act) lease' u'
  | pollDelivery {id : Nat} {d : Delivery} {stamped : Stamped} {rest : List Stamped} :
      u.closed = false → u.queue = stamped :: rest → stamped.item = .delivery id →
      u.deliveries[id]? = some d → d.phase = .queued →
      Step u owner shard lease .poll lease
        { u.setPhase id d (if stamped.current u.gates then .held else .discarded) with
          queue := rest }
  | pollOther {stamped : Stamped} {rest : List Stamped} :
      u.closed = false → u.queue = stamped :: rest → (∀ id, stamped.item ≠ .delivery id) →
      Step u owner shard lease .poll lease { u with queue := rest }
  | ackCurrent {id : Nat} {d : Delivery} : u.deliveries[id]? = some d → d.phase = .held →
      u.gates[d.gate]? = some d.epoch →
      Step u owner shard lease (.ack id) lease (u.setPhase id d .checked)
  | ackStale {id : Nat} {d : Delivery} : u.deliveries[id]? = some d → d.phase = .held →
      u.gates[d.gate]? ≠ some d.epoch →
      Step u owner shard lease (.ack id) lease (u.setPhase id d .stale)
  | settled {id : Nat} {d : Delivery} {tracker : Watermark} : u.deliveries[id]? = some d →
      u.trackers[d.tracker]? = some tracker → d.phase = .checked →
      Step u owner shard lease (.settle id) lease
        { u.setPhase id d (.told (tracker.settle d.index).1) with
          trackers := u.trackers.set d.tracker (tracker.settle d.index).2 }
  | written {id sequence : Nat} {d : Delivery} : u.deliveries[id]? = some d →
      d.phase = .writing sequence → lease.owner = some owner →
      Step u owner shard lease (.write id true)
        { lease with checkpoint := some (.sequence sequence) }
        (u.setPhase id d (.settled (some sequence)))
  | notWritten {id sequence : Nat} {d : Delivery} {ok : Bool} : u.deliveries[id]? = some d →
      d.phase = .writing sequence →
      Step u owner shard lease (.write id ok) lease (u.setPhase id d (.settled (some sequence)))
  | refuse {id : Nat} {d : Delivery} : u.deliveries[id]? = some d → d.phase = .held →
      Step u owner shard lease (.refuse id) lease (u.setPhase id d .unsettled)
  | install {start : StreamStart} :
      Step u owner shard lease (.install start) lease { u with installed := some start }
  | findLive {start : ShardStart} {gate : Nat} : u.handle = some gate →
      Step u owner shard lease (.find start) lease
        { u with calls := u.calls ++ [⟨gate, start, 0, .found⟩] }
  | findNone {start : ShardStart} : u.handle = none →
      Step u owner shard lease (.find start) lease
        { u with calls := u.calls ++ [⟨u.gates.length, start, 0, .returned .noReader⟩] }
  | bump {call epoch : Nat} {c : SeekCall} : u.calls[call]? = some c → c.phase = .found →
      u.gates[c.gate]? = some epoch →
      Step u owner shard lease (.bump call) lease
        { u with
          gates := u.gates.set c.gate (epoch + 1)
          calls := u.calls.set call { c with before := u.deliveries.length, phase := .bumped } }
  | sent {call : Nat} {c : SeekCall} {r : Reader} : u.calls[call]? = some c → c.phase = .bumped →
      u.reader = some r → r.gate = c.gate → r.exited = false →
      Step u owner shard lease (.send call) lease
        { u.setCall call c .sent with
          reader := some { r with commands := r.commands ++ [call] } }
  | sendGone {call : Nat} {c : SeekCall} : u.calls[call]? = some c → c.phase = .bumped →
      u.live c.gate = false →
      Step u owner shard lease (.send call) lease (u.setCall call c (.returned .shutDown))
  | answered {call : Nat} {c : SeekCall} {outcome : Outcome} : u.calls[call]? = some c →
      c.phase = .answered outcome →
      Step u owner shard lease (.answer call) lease (u.setCall call c (.returned outcome))
  | answerGone {call : Nat} {c : SeekCall} : u.calls[call]? = some c → c.phase = .sent →
      u.live c.gate = false →
      Step u owner shard lease (.answer call) lease (u.setCall call c (.returned .shutDown))

variable {u u' : Subscription} {owner : Owner} {shard : Shard} {lease lease' : MemoryLease Owner}
variable {r : Reader}

theorem readRow_cases {ok : Bool} (h : u.readRow lease r ok = some u') :
    ReaderStep u owner shard lease r (.readRow ok) lease u' := by
  unfold readRow at h
  split at h
  · rename_i again hpc
    split at h
    · rename_i hok
      obtain rfl := hok
      split at h
      · obtain rfl := Option.some.inj h
        exact .rowEnd hpc ‹_›
      · obtain rfl := Option.some.inj h
        exact .rowCheckpoint hpc ‹_›
      · obtain rfl := Option.some.inj h
        exact .rowBlank hpc ‹_›
    · rename_i hok
      obtain rfl : ok = false := by simpa using hok
      unfold fetchFailed at h
      split at h
      · rename_i ha
        subst ha
        obtain rfl := Option.some.inj h
        exact .rowRetry hpc
      · rename_i ha
        obtain rfl : again = false := by simpa using ha
        split at h
        · obtain rfl := Option.some.inj h
          exact .rowFailClosed hpc ‹_›
        · split at h
          · obtain rfl := Option.some.inj h
            exact .rowFail hpc ‹_›
          · cases h
  · cases h

theorem openIterator_cases {reply : Reply} (h : u.openIterator shard r reply = some u') :
    ReaderStep u owner shard lease r (.openIterator reply) lease u' := by
  unfold openIterator at h
  split at h
  · rename_i start recorded again hpc
    split at h
    · obtain ⟨p, hp, rfl⟩ := Option.map_eq_some_iff.mp h
      exact .opened hpc hp
    · obtain rfl := Option.some.inj h
      exact .openNone hpc
    · unfold fetchFailed at h
      split at h
      · rename_i ha
        subst ha
        obtain rfl := Option.some.inj h
        exact .openRetry hpc
      · rename_i ha
        obtain rfl : again = false := by simpa using ha
        split at h
        · obtain rfl := Option.some.inj h
          exact .openFailClosed hpc ‹_›
        · split at h
          · obtain rfl := Option.some.inj h
            exact .openFail hpc ‹_›
          · cases h
  · cases h

theorem applySeek_cases {reply : Reply} (h : u.applySeek shard r reply = some u') :
    ReaderStep u owner shard lease r (.applySeek reply) lease u' := by
  unfold applySeek at h
  split at h
  · rename_i call idle hpc
    obtain ⟨c, hc, h⟩ := Option.bind_eq_some_iff.mp h
    unfold applyShardSeek at h
    split at h
    · obtain ⟨p, hp, rfl⟩ := Option.map_eq_some_iff.mp h
      exact .sought hpc hc hp
    · obtain rfl := Option.some.inj h
      exact .seekFailed hpc hc ‹_›
  · cases h

theorem readFails_cases {error : ReadError} (h : u.readFails r error = some u') :
    ReaderStep u owner shard lease r (.readFails error) lease u' := by
  unfold readFails at h
  split at h
  · rename_i epoch hpc
    split at h
    · obtain rfl := Option.some.inj h
      exact .throttled hpc
    · split at h
      · obtain rfl := Option.some.inj h
        exact .gaveUpExpired hpc
      · obtain rfl := Option.some.inj h
        exact .expired hpc (Nat.not_lt.mp ‹_›)
    · split at h
      · obtain rfl := Option.some.inj h
        exact .readClosed hpc ‹_›
      · split at h
        · obtain rfl := Option.some.inj h
          exact .fatal hpc ‹_›
        · cases h
    · split at h
      · obtain rfl := Option.some.inj h
        exact .readClosed hpc ‹_›
      · split at h
        · split at h
          · obtain rfl := Option.some.inj h
            exact .gaveUp hpc ‹_›
          · obtain rfl := Option.some.inj h
            exact .retry hpc ‹_› (Nat.not_lt.mp ‹_›)
        · cases h
  · cases h

theorem recordOpening_cases {ok : Bool}
    (h : u.recordOpening owner lease r ok = some (lease', u')) :
    ReaderStep u owner shard lease r (.recordOpening ok) lease' u' := by
  unfold recordOpening at h
  split at h
  · rename_i hpc
    split at h
    · rename_i hg
      split at h
      · rename_i hok
        subst hok
        by_cases hown : lease.owner = some owner
        · simp only [MemoryLease.recordOpenedAt, if_pos hown, if_true] at h
          obtain ⟨rfl, rfl⟩ := Prod.mk.inj (Option.some.inj h)
          exact .recorded hpc hg.1 hg.2 hown
        · simp only [MemoryLease.recordOpenedAt, hown, if_false, Bool.false_eq_true] at h
          obtain ⟨rfl, rfl⟩ := Prod.mk.inj (Option.some.inj h)
          exact .notRecorded hpc hg.1 hg.2
      · obtain ⟨rfl, rfl⟩ := Prod.mk.inj (Option.some.inj h)
        exact .notRecorded hpc hg.1 hg.2
    · cases h
  · cases h

theorem handOut_cases (h : u.handOut shard r = some u') :
    ReaderStep u owner shard lease r .handOut lease u' := by
  unfold handOut at h
  split at h
  · rename_i epoch next stop last idle hpc
    split at h
    · rename_i hg
      have hrec : r.reading.unrecorded = false := by simpa using hg.2
      obtain ⟨record, hlog, h⟩ := Option.bind_eq_some_iff.mp h
      obtain ⟨tracker, ht, h⟩ := Option.bind_eq_some_iff.mp h
      dsimp only at h
      split at h
      · split at h
        · obtain rfl := Option.some.inj h
          exact .handClosedRefused hpc hg.1 ‹_›
        · split at h
          · obtain rfl := Option.some.inj h
            exact .refusedRecord hpc hg.1 hrec hlog ‹_› ‹_›
          · cases h
      · rename_i hagg
        split at h
        · obtain rfl := Option.some.inj h
          exact .handClosed hpc hg.1 ‹_›
        · rename_i hcl
          split at h
          · obtain rfl := Option.some.inj h
            exact .handedOut hpc hg.1 hrec hlog (by simpa using hagg) ‹_› (by simpa using hcl) ht
          · cases h
    · cases h
  · cases h

theorem markEnd_cases {ok : Bool} (h : u.markEnd owner lease r ok = some (lease', u')) :
    ReaderStep u owner shard lease r (.markEnd ok) lease' u' := by
  unfold markEnd at h
  split at h
  · rename_i stop hpc
    obtain ⟨tracker, ht, h⟩ := Option.bind_eq_some_iff.mp h
    split at h
    · rename_i hd
      cases ok with
      | false =>
        obtain ⟨rfl, rfl⟩ := Prod.mk.inj (Option.some.inj h)
        exact .leftEnd hpc (.inr ⟨tracker, ht, hd⟩)
      | true =>
        obtain ⟨hl, rfl⟩ := Prod.mk.inj (Option.some.inj h)
        simp only [if_true, MemoryLease.saveCheckpoint] at hl
        split at hl
        · obtain rfl := hl
          exact .markedEnd hpc ht hd ‹_›
        · obtain rfl := hl
          exact .leftEnd hpc (.inr ⟨tracker, ht, hd⟩)
    · split at h
      · obtain ⟨rfl, rfl⟩ := Prod.mk.inj (Option.some.inj h)
        exact .leftEnd hpc (.inl ‹_›)
      · cases h
  · cases h

theorem readerStep_cases {act : ReaderAct}
    (h : u.readerStep owner shard lease r act = some (lease', u')) :
    ReaderStep u owner shard lease r act lease' u' := by
  cases act with
  | readRow ok =>
    obtain ⟨v, hv, he⟩ := Option.map_eq_some_iff.mp h
    obtain ⟨rfl, rfl⟩ := Prod.mk.inj he
    exact readRow_cases hv
  | openIterator reply =>
    obtain ⟨v, hv, he⟩ := Option.map_eq_some_iff.mp h
    obtain ⟨rfl, rfl⟩ := Prod.mk.inj he
    exact openIterator_cases hv
  | applySeek reply =>
    obtain ⟨v, hv, he⟩ := Option.map_eq_some_iff.mp h
    obtain ⟨rfl, rfl⟩ := Prod.mk.inj he
    exact applySeek_cases hv
  | readFails error =>
    obtain ⟨v, hv, he⟩ := Option.map_eq_some_iff.mp h
    obtain ⟨rfl, rfl⟩ := Prod.mk.inj he
    exact readFails_cases hv
  | handOut =>
    obtain ⟨v, hv, he⟩ := Option.map_eq_some_iff.mp h
    obtain ⟨rfl, rfl⟩ := Prod.mk.inj he
    exact handOut_cases hv
  | recordOpening ok => exact recordOpening_cases h
  | markEnd ok => exact markEnd_cases h
  | checkClosed =>
    obtain ⟨v, hv, he⟩ := Option.map_eq_some_iff.mp h
    obtain ⟨rfl, rfl⟩ := Prod.mk.inj he
    unfold checkClosed at hv
    split at hv
    · obtain rfl := Option.some.inj hv
      split
      · rename_i hpc hcl
        exact .sawClosed hpc hcl
      · rename_i hpc hcl
        exact .sawOpen hpc (by simpa using hcl)
    · cases hv
  | takeSeek =>
    obtain ⟨v, hv, he⟩ := Option.map_eq_some_iff.mp h
    obtain ⟨rfl, rfl⟩ := Prod.mk.inj he
    unfold takeSeek at hv
    split at hv
    · obtain rfl := Option.some.inj hv
      exact .takeDraining ‹_› ‹_›
    · obtain rfl := Option.some.inj hv
      exact .takeIdle ‹_› ‹_›
    · cases hv
  | drained =>
    obtain ⟨v, hv, he⟩ := Option.map_eq_some_iff.mp h
    obtain ⟨rfl, rfl⟩ := Prod.mk.inj he
    unfold drained at hv
    split at hv
    · obtain rfl := Option.some.inj hv
      exact .drained ‹_› ‹_›
    · cases hv
  | renew now =>
    simp only [readerStep, renew, MemoryLease.renew] at h
    split at h
    · split at h
      · obtain ⟨rfl, rfl⟩ := Prod.mk.inj (Option.some.inj h)
        exact .renewed ‹_› ‹_›
      · obtain ⟨rfl, rfl⟩ := Prod.mk.inj (Option.some.inj h)
        exact .fenced ‹_› ‹_›
    · cases h
  | renewFails =>
    obtain ⟨v, hv, he⟩ := Option.map_eq_some_iff.mp h
    obtain ⟨rfl, rfl⟩ := Prod.mk.inj he
    unfold renewFails at hv
    split at hv
    · obtain rfl := Option.some.inj hv
      exact .renewFails ‹_›
    · cases hv
  | notDue =>
    obtain ⟨v, hv, he⟩ := Option.map_eq_some_iff.mp h
    obtain ⟨rfl, rfl⟩ := Prod.mk.inj he
    unfold notDue at hv
    split at hv
    · obtain rfl := Option.some.inj hv
      exact .notDue ‹_›
    · cases hv
  | stamp =>
    obtain ⟨v, hv, he⟩ := Option.map_eq_some_iff.mp h
    obtain ⟨rfl, rfl⟩ := Prod.mk.inj he
    unfold stamp at hv
    split at hv
    · obtain ⟨epoch, hepoch, rfl⟩ := Option.map_eq_some_iff.mp hv
      exact .stamp ‹_› hepoch
    · cases hv
  | getRecords count last =>
    obtain ⟨v, hv, he⟩ := Option.map_eq_some_iff.mp h
    obtain ⟨rfl, rfl⟩ := Prod.mk.inj he
    unfold getRecords at hv
    split at hv
    · dsimp only at hv
      split at hv
      · rename_i hg
        obtain rfl := Option.some.inj hv
        exact .gotRecords ‹_› hg.1 hg.2
      · cases hv
    · cases hv
  | batchDone =>
    obtain ⟨v, hv, he⟩ := Option.map_eq_some_iff.mp h
    obtain ⟨rfl, rfl⟩ := Prod.mk.inj he
    unfold batchDone at hv
    split at hv
    · rename_i next stop last idle hpc
      split at hv
      · rename_i hs
        subst hs
        split at hv
        · rename_i hl
          subst hl
          obtain rfl := Option.some.inj hv
          exact .batchEnd hpc
        · rename_i hl
          obtain rfl : last = false := by simpa using hl
          obtain rfl := Option.some.inj hv
          exact .batchDone hpc
      · cases hv
    · cases hv
  | wake =>
    obtain ⟨v, hv, he⟩ := Option.map_eq_some_iff.mp h
    obtain ⟨rfl, rfl⟩ := Prod.mk.inj he
    unfold wake at hv
    split at hv
    · obtain rfl := Option.some.inj hv
      exact .wake ‹_›
    · cases hv
  | release =>
    simp only [readerStep, release] at h
    split at h
    · obtain ⟨rfl, rfl⟩ := Prod.mk.inj (Option.some.inj h)
      exact .release ‹_›
    · cases h
  | crash =>
    obtain ⟨v, hv, he⟩ := Option.map_eq_some_iff.mp h
    obtain ⟨rfl, rfl⟩ := Prod.mk.inj he
    unfold crash at hv
    split at hv
    · cases hv
    · obtain rfl := Option.some.inj hv
      rename_i hex
      exact .crash (by simpa using hex)

theorem step_cases {a : SubAct} (h : u.step owner shard lease a = some (lease', u')) :
    Step u owner shard lease a lease' u' := by
  cases a with
  | forgetFinished inBudget =>
    obtain ⟨rfl, rfl⟩ := Prod.mk.inj (Option.some.inj h)
    unfold Subscription.forgetFinished
    split
    · rename_i r hr
      split
      · rename_i rewind hpc
        cases inBudget with
        | true => exact Step.forgot hr hpc
        | false => exact Step.forgot hr hpc
      · rename_i hpc
        cases inBudget with
        | true => exact Step.forgot hr hpc
        | false => exact Step.forgot hr hpc
      · exact Step.nothingFinished
    · exact Step.nothingFinished
  | acquire lineage now =>
    simp only [step, acquire, MemoryLease.acquire] at h
    split at h
    · rename_i hnone
      have hr : u.reader = none := Option.isNone_iff_eq_none.mp hnone
      split at h
      · obtain ⟨rfl, rfl⟩ := Prod.mk.inj (Option.some.inj h)
        exact .notAcquired hr ‹_›
      · rename_i hheld
        obtain ⟨rfl, rfl⟩ := Prod.mk.inj (Option.some.inj h)
        exact .acquired hr (by simpa using hheld)
    · cases h
  | report =>
    obtain ⟨v, hv, he⟩ := Option.map_eq_some_iff.mp h
    obtain ⟨rfl, rfl⟩ := Prod.mk.inj he
    unfold report at hv
    split at hv
    · obtain rfl := Option.some.inj hv
      exact .reportClosed ‹_›
    · split at hv
      · obtain rfl := Option.some.inj hv
        exact .reported ‹_›
      · cases hv
  | leave =>
    obtain ⟨rfl, rfl⟩ := Prod.mk.inj (Option.some.inj h)
    exact .leave
  | reader act =>
    obtain ⟨r, hr, h⟩ := Option.bind_eq_some_iff.mp h
    exact .reader hr (readerStep_cases h)
  | poll =>
    obtain ⟨v, hv, he⟩ := Option.map_eq_some_iff.mp h
    obtain ⟨rfl, rfl⟩ := Prod.mk.inj he
    unfold poll at hv
    split at hv
    · rename_i stamped rest hcl hq
      split at hv
      · rename_i id hid
        obtain ⟨d, hd, hv⟩ := Option.bind_eq_some_iff.mp hv
        split at hv
        · rename_i hqueued
          obtain rfl := Option.some.inj hv
          exact .pollDelivery hcl hq hid hd hqueued
        · cases hv
      · rename_i hid
        obtain rfl := Option.some.inj hv
        exact .pollOther hcl hq hid
    · cases hv
  | ack id =>
    obtain ⟨v, hv, he⟩ := Option.map_eq_some_iff.mp h
    obtain ⟨rfl, rfl⟩ := Prod.mk.inj he
    obtain ⟨d, hd, hv⟩ := Option.bind_eq_some_iff.mp hv
    split at hv
    · rename_i hheld
      obtain rfl := Option.some.inj hv
      split
      · exact .ackCurrent hd hheld ‹_›
      · exact .ackStale hd hheld ‹_›
    · cases hv
  | settle id =>
    obtain ⟨v, hv, he⟩ := Option.map_eq_some_iff.mp h
    obtain ⟨rfl, rfl⟩ := Prod.mk.inj he
    obtain ⟨d, hd, hv⟩ := Option.bind_eq_some_iff.mp hv
    obtain ⟨tracker, ht, hv⟩ := Option.bind_eq_some_iff.mp hv
    split at hv
    · obtain rfl := Option.some.inj hv
      exact .settled hd ht ‹_›
    · cases hv
  | write id ok =>
    obtain ⟨d, hd, h⟩ := Option.bind_eq_some_iff.mp h
    split at h
    · rename_i sequence hphase
      by_cases hw : ok = true ∧ lease.owner = some owner
      · obtain ⟨rfl, hown⟩ := hw
        simp only [if_true, MemoryLease.saveCheckpoint, if_pos hown] at h
        obtain ⟨rfl, rfl⟩ := Prod.mk.inj (Option.some.inj h)
        exact .written hd hphase hown
      · have hl : (if ok = true then (lease.saveCheckpoint owner (.sequence sequence)).2
            else lease) = lease := by
          unfold MemoryLease.saveCheckpoint
          split
          · rename_i hok
            rw [if_neg fun ho => hw ⟨hok, ho⟩]
          · rfl
        rw [hl] at h
        obtain ⟨rfl, rfl⟩ := Prod.mk.inj (Option.some.inj h)
        exact .notWritten hd hphase
    · cases h
  | refuse id =>
    obtain ⟨v, hv, he⟩ := Option.map_eq_some_iff.mp h
    obtain ⟨rfl, rfl⟩ := Prod.mk.inj he
    obtain ⟨d, hd, hv⟩ := Option.bind_eq_some_iff.mp hv
    split at hv
    · obtain rfl := Option.some.inj hv
      exact .refuse hd ‹_›
    · cases hv
  | install start =>
    obtain ⟨rfl, rfl⟩ := Prod.mk.inj (Option.some.inj h)
    exact .install
  | find start =>
    obtain ⟨rfl, rfl⟩ := Prod.mk.inj (Option.some.inj h)
    unfold find
    split
    · exact .findLive ‹_›
    · exact .findNone ‹_›
  | bump call =>
    obtain ⟨v, hv, he⟩ := Option.map_eq_some_iff.mp h
    obtain ⟨rfl, rfl⟩ := Prod.mk.inj he
    obtain ⟨c, hc, hv⟩ := Option.bind_eq_some_iff.mp hv
    obtain ⟨epoch, hepoch, hv⟩ := Option.bind_eq_some_iff.mp hv
    split at hv
    · obtain rfl := Option.some.inj hv
      exact .bump hc ‹_› hepoch
    · cases hv
  | send call =>
    obtain ⟨v, hv, he⟩ := Option.map_eq_some_iff.mp h
    obtain ⟨rfl, rfl⟩ := Prod.mk.inj he
    obtain ⟨c, hc, hv⟩ := Option.bind_eq_some_iff.mp hv
    split at hv
    · rename_i hphase
      split at hv
      · rename_i r hr
        split at hv
        · rename_i hlive
          obtain rfl := Option.some.inj hv
          simp only [live, hr, Option.any_some, Bool.and_eq_true, beq_iff_eq,
            Bool.not_eq_true'] at hlive
          exact .sent hc hphase hr hlive.1 hlive.2
        · rename_i hlive
          obtain rfl := Option.some.inj hv
          exact .sendGone hc hphase (by simpa using hlive)
      · rename_i hr
        obtain rfl := Option.some.inj hv
        exact .sendGone hc hphase (by simp [live, hr])
    · cases hv
  | answer call =>
    obtain ⟨v, hv, he⟩ := Option.map_eq_some_iff.mp h
    obtain ⟨rfl, rfl⟩ := Prod.mk.inj he
    obtain ⟨c, hc, hv⟩ := Option.bind_eq_some_iff.mp hv
    split at hv
    · obtain rfl := Option.some.inj hv
      exact .answered hc ‹_›
    · split at hv
      · cases hv
      · rename_i hphase hlive
        obtain rfl := Option.some.inj hv
        exact .answerGone hc hphase (by simpa using hlive)
    · cases hv

end Subscription

end RuststreamKinesis
