import RuststreamKinesis.Lib.Simulation
import RuststreamKinesis.Lib.Tape
import RuststreamKinesis.System

/-!
# A shard is read as a tape

What an instance does of a shard is what a cursor in an append-only log does: a cursor is put
where a fetched iterator stands, and a record that is handed out, or refused as aggregated, is the
one under the cursor. `shown` reads the events of the tape off the steps.
-/

namespace RuststreamKinesis

set_option autoImplicit false

open Runs

/-- What a step of the reader does to the cursor. -/
def Reader.shown (r : Reader) (u : Subscription) (shard : Shard) :
    ReaderAct → List (Tape.Event Record)
  | .openIterator .iterator =>
    match r.pc with
    | .fetching start _ _ => (shard.getShardIterator (iteratorAt start)).toList.map .move
    | _ => []
  | .applySeek .iterator =>
    match r.pc with
    | .seeking call _ =>
      ((u.calls[call]?).bind fun c =>
        shard.getShardIterator (iteratorAt c.start)).toList.map .move
    | _ => []
  | .handOut =>
    match r.pc with
    | .forwarding _ next _ _ _ =>
      if u.closed then [] else (shard.log[next]?).toList.map (.take next)
    | _ => []
  | _ => []

/-- The steps that fetch a cursor or hand a record out; the others leave the cursor alone. -/
def ReaderAct.moves : ReaderAct → Bool
  | .openIterator .iterator | .applySeek .iterator | .handOut => true
  | _ => false

/-- The reader fetches a cursor. -/
def SubAct.fetches : SubAct → Bool
  | .reader (.openIterator .iterator) | .reader (.applySeek .iterator) => true
  | _ => false

/-- A record that is taken is handed out as a delivery, or refused as aggregated. -/
def Reader.handsOut : Tape.Event Record → List Nat
  | .take n record => if record.aggregated then [] else [n]
  | _ => []

def Reader.refuses : Tape.Event Record → List Nat
  | .take n record => if record.aggregated then [n] else []
  | _ => []

namespace Subscription

variable {Owner : Type} [DecidableEq Owner]

def shown (u : Subscription) (shard : Shard) : SubAct → List (Tape.Event Record)
  | .reader act => u.reader.elim [] fun r => r.shown u shard act
  | _ => []

/-- Where a reader stands, the cursor does. -/
def At (u : Subscription) (cursor : Nat) : Prop :=
  ∀ r p, u.reader = some r → r.position = some p → p = cursor

/-- The sequence numbers of the deliveries, in the order they were handed out. -/
def sequences (u : Subscription) : List Nat := u.deliveries.map Delivery.sequence

variable {u u' : Subscription} {owner : Owner} {shard : Shard} {lease lease' : MemoryLease Owner}
variable {r r' : Reader} {act : ReaderAct} {a : SubAct} {p : Nat} {t : Tape Record}

theorem sequences_setPhase {id : Nat} {d : Delivery} {phase : Phase}
    (h : u.deliveries[id]? = some d) : (u.setPhase id d phase).sequences = u.sequences := by
  have hget : u.sequences[id]? = some d.sequence := by rw [sequences, List.getElem?_map, h]; rfl
  obtain ⟨hlt, hat⟩ := List.getElem?_eq_some_iff.mp hget
  calc (u.setPhase id d phase).sequences = u.sequences.set id d.sequence := List.map_set
    _ = u.sequences := by rw [← hat, List.set_getElem_self]

theorem sequences_leave : u.leave.sequences = u.sequences := by
  simp only [sequences, leave, List.map_map]
  refine List.map_congr_left fun d _ => ?_
  simp only [Function.comp]
  split <;> rfl

theorem ReaderStep.still (h : ReaderStep u owner shard lease r act lease' u')
    (hact : act.moves = false) (hr' : u'.reader = some r') (hp : r'.position = some p) :
    r.position = some p := by
  cases h with
  | opened | sought | refusedRecord | handClosedRefused | handClosed | handedOut => cases hact
  | recorded hpc =>
    obtain rfl := Option.some.inj hr'
    simpa only [Reader.position, hpc] using hp
  | @batchDone epoch stop idle hpc =>
    obtain rfl := Option.some.inj hr'
    simp only [Reader.position, hpc]
    cases idle <;> exact hp
  | @seekFailed call idle c reply hpc =>
    obtain rfl := Option.some.inj hr'
    simp only [Reader.position, hpc]
    cases idle <;> exact hp
  | @rowCheckpoint again c hpc =>
    obtain rfl := Option.some.inj hr'
    simp only [Reader.position, hpc]
    cases again <;> exact hp
  | @rowBlank again hpc =>
    obtain rfl := Option.some.inj hr'
    simp only [Reader.position, hpc]
    cases again <;> exact hp
  | rowRetry hpc | openRetry hpc | sawOpen hpc | takeDraining hpc | takeIdle hpc | drained hpc
  | renewed hpc | notDue hpc | stamp hpc | gotRecords hpc | throttled hpc
  | expired hpc | retry hpc | batchEnd hpc | wake hpc =>
    obtain rfl := Option.some.inj hr'
    simp only [Reader.position, hpc]
    exact hp
  | _ =>
    obtain rfl := Option.some.inj hr'
    cases hp

theorem ReaderStep.quiet (h : ReaderStep u owner shard lease r act lease' u')
    (hact : act.moves = false) : u'.sequences = u.sequences ∧ u'.refused = u.refused := by
  cases h with
  | refusedRecord | handClosedRefused | handClosed | handedOut => cases hact
  | _ => exact ⟨rfl, rfl⟩

theorem shown_nil (h : act.moves = false) : r.shown u shard act = [] := by
  unfold ReaderAct.moves at h
  unfold Reader.shown
  split at h
  · cases h
  · cases h
  · cases h
  · rfl

/-- The record under the cursor is handed out, unless the consumer is gone. -/
theorem handOut_shown (h : u.handOut shard r = some u') :
    (r.shown u shard .handOut = [] ∧ u'.sequences = u.sequences ∧ u'.refused = u.refused ∧
      ∀ r', u'.reader = some r' → r'.position = none) ∨
    ∃ n record, r.position = some n ∧ shard.log[n]? = some record ∧
      r.shown u shard .handOut = [.take n record] ∧
      u'.sequences = u.sequences ++ Reader.handsOut (.take n record) ∧
      u'.refused = u.refused ++ Reader.refuses (.take n record) ∧
      ∀ r', u'.reader = some r' → r'.position = some (n + 1) := by
  unfold handOut at h
  split at h
  · rename_i epoch next stop last idle hpc
    split at h
    · obtain ⟨record, hlog, h⟩ := Option.bind_eq_some_iff.mp h
      obtain ⟨tracker, -, h⟩ := Option.bind_eq_some_iff.mp h
      have hpos : r.position = some next := Reader.position_forwarding hpc
      cases hclosed : u.closed with
      | true =>
        left
        simp only [hclosed, ite_true] at h
        refine ⟨by simp only [Reader.shown, hpc, hclosed, ite_true], ?_⟩
        split at h <;> obtain rfl := Option.some.inj h
        · exact ⟨rfl, rfl, fun r' hr' => by obtain rfl := Option.some.inj hr'; rfl⟩
        · exact ⟨rfl, rfl, fun r' hr' => by obtain rfl := Option.some.inj hr'; rfl⟩
      | false =>
        right
        simp only [hclosed, Bool.false_eq_true, ite_false] at h
        refine ⟨next, record, hpos, hlog, by simp [Reader.shown, hpc, hclosed, hlog], ?_⟩
        cases hagg : record.aggregated with
        | true =>
          simp only [hagg, ite_true] at h
          split at h
          · obtain rfl := Option.some.inj h
            refine ⟨?_, ?_, fun r' hr' => by obtain rfl := Option.some.inj hr'; rfl⟩
            · simp [Reader.handsOut, hagg, sequences, goto, push]
            · simp [Reader.refuses, hagg]
          · cases h
        | false =>
          simp only [hagg, Bool.false_eq_true, ite_false] at h
          split at h
          · obtain rfl := Option.some.inj h
            refine ⟨?_, ?_, fun r' hr' => by obtain rfl := Option.some.inj hr'; rfl⟩
            · simp [Reader.handsOut, hagg, sequences]
            · simp [Reader.refuses, hagg, goto, push]
          · cases h
    · cases h
  · cases h

/-- A step of the reader does to the cursor what it shows, and to the records handed out and
refused too. -/
theorem readerStep_shown (hr : u.reader = some r) (hat : u.At t.cursor) (hlog : t.log = shard.log)
    (h : u.readerStep owner shard lease r act = some (lease', u')) :
    (∃ t', exec Tape.step t (r.shown u shard act) = some t' ∧ t'.log = shard.log ∧
      u'.At t'.cursor) ∧
    u'.sequences = u.sequences ++ (r.shown u shard act).flatMap Reader.handsOut ∧
    u'.refused = u.refused ++ (r.shown u shard act).flatMap Reader.refuses := by
  cases hact : act.moves with
  | false =>
    have hstep := readerStep_cases h
    obtain ⟨hseq, href⟩ := hstep.quiet hact
    rw [shown_nil hact]
    refine ⟨⟨t, rfl, hlog, fun r' p hr' hp => hat r p hr (hstep.still hact hr' hp)⟩, ?_, ?_⟩
    · simpa using hseq
    · simpa using href
  | true =>
    unfold ReaderAct.moves at hact
    split at hact
    · have hstep := readerStep_cases h
      cases hstep with
      | @opened start recorded again q hpc hget =>
        have hshown : r.shown u shard (.openIterator .iterator) = [.move q] := by
          simp [Reader.shown, hpc, hget]
        rw [hshown]
        refine ⟨⟨{ t with cursor := q }, ?_, hlog, ?_⟩, ?_, ?_⟩
        · simp [exec, Tape.step_move (hlog ▸ Shard.getShardIterator_le hget)]
        · intro r' p hr' hp
          obtain rfl := Option.some.inj hr'
          exact (Option.some.inj hp).symm
        · exact (List.append_nil _).symm
        · exact (List.append_nil _).symm
    · have hstep := readerStep_cases h
      cases hstep with
      | @sought call idle c q hpc hc hget =>
        have hshown : r.shown u shard (.applySeek .iterator) = [.move q] := by
          simp [Reader.shown, hpc, hc, hget]
        rw [hshown]
        refine ⟨⟨{ t with cursor := q }, ?_, hlog, ?_⟩, ?_, ?_⟩
        · simp [exec, Tape.step_move (hlog ▸ Shard.getShardIterator_le hget)]
        · intro r' p hr' hp
          obtain rfl := Option.some.inj hr'
          cases idle <;> exact (Option.some.inj hp).symm
        · exact (List.append_nil _).symm
        · exact (List.append_nil _).symm
      | seekFailed _ _ hne => exact absurd rfl hne
    · obtain ⟨v, hv, he⟩ := Option.map_eq_some_iff.mp h
      obtain ⟨-, rfl⟩ := Prod.mk.inj he
      rcases handOut_shown hv with ⟨hshown, hseq, href, hnone⟩ |
        ⟨n, record, hpos, hget, hshown, hseq, href, hnext⟩
      · rw [hshown]
        refine ⟨⟨t, rfl, hlog, ?_⟩, by simpa using hseq, by simpa using href⟩
        intro r' p hr' hp
        cases (hnone r' hr').symm.trans hp
      · have hcursor : n = t.cursor := hat r n hr hpos
        rw [hshown]
        refine ⟨⟨{ t with cursor := n + 1 }, ?_, hlog, ?_⟩, by simpa using hseq,
          by simpa using href⟩
        · simp [exec, Tape.step_take hcursor.symm (hlog ▸ hget)]
        · intro r' p hr' hp
          exact (Option.some.inj ((hnext r' hr').symm.trans hp)).symm
    · cases hact

/-- Only a cursor that is fetched moves the one there is. -/
theorem shown_still (hact : a.fetches = false) : ∀ event ∈ u.shown shard a, event.still = true := by
  intro event hevent
  cases a with
  | reader act =>
    simp only [shown] at hevent
    cases hr : u.reader with
    | none =>
      rw [hr] at hevent
      cases hevent
    | some r =>
      rw [hr, Option.elim_some] at hevent
      unfold Reader.shown at hevent
      split at hevent
      · cases hact
      · cases hact
      · split at hevent
        · split at hevent
          · cases hevent
          · obtain ⟨record, -, rfl⟩ := List.mem_map.mp hevent
            rfl
        · cases hevent
      · cases hevent
  | _ => cases hevent

theorem At.same (hat : u.At p) (hr : u'.reader = u.reader) : u'.At p :=
  fun r q h => hat r q (hr ▸ h)

theorem At.absent (hr : ∀ r, u'.reader = some r → r.position = none) : u'.At p := by
  intro r q h hq
  cases (hr r h).symm.trans hq

theorem Step.unseen (h : Step u owner shard lease a lease' u') (ha : ∀ act, a ≠ .reader act)
    (hat : u.At p) : u'.At p := by
  cases h with
  | reader => exact absurd rfl (ha _)
  | forgot => exact .absent (by simp)
  | acquired =>
    refine .absent ?_
    intro r hr
    obtain rfl := Option.some.inj hr
    rfl
  | sent _ _ hr =>
    intro r' q hr' hq
    obtain rfl := Option.some.inj hr'
    exact hat _ q hr hq
  | _ => exact hat.same rfl

theorem Step.unhanded (h : Step u owner shard lease a lease' u') (ha : ∀ act, a ≠ .reader act) :
    u'.sequences = u.sequences ∧ u'.refused = u.refused := by
  cases h with
  | reader => exact absurd rfl (ha _)
  | leave => exact ⟨sequences_leave, rfl⟩
  | pollDelivery _ _ _ hd | ackCurrent hd | ackStale hd | settled hd | written hd
  | notWritten hd | refuse hd => exact ⟨sequences_setPhase hd, rfl⟩
  | _ => exact ⟨rfl, rfl⟩

theorem step_shown (hat : u.At t.cursor) (hlog : t.log = shard.log)
    (h : u.step owner shard lease a = some (lease', u')) :
    (∃ t', exec Tape.step t (u.shown shard a) = some t' ∧ t'.log = shard.log ∧
      u'.At t'.cursor) ∧
    u'.sequences = u.sequences ++ (u.shown shard a).flatMap Reader.handsOut ∧
    u'.refused = u.refused ++ (u.shown shard a).flatMap Reader.refuses := by
  by_cases ha : ∀ act, a ≠ .reader act
  · have hshown : u.shown shard a = [] := by
      cases a with
      | reader act => exact absurd rfl (ha act)
      | _ => rfl
    have hstep := step_cases h
    obtain ⟨hseq, href⟩ := hstep.unhanded ha
    rw [hshown]
    exact ⟨⟨t, rfl, hlog, hstep.unseen ha hat⟩, by simpa using hseq, by simpa using href⟩
  · obtain ⟨act, hact⟩ := not_forall.mp ha
    obtain rfl := not_not.mp hact
    obtain ⟨r, hr, hstep⟩ := Option.bind_eq_some_iff.mp h
    have hshown : u.shown shard (.reader act) = r.shown u shard act := by
      simp only [shown, hr, Option.elim_some]
    rw [hshown]
    exact readerStep_shown hr hat hlog hstep

end Subscription

namespace System

variable {Owner : Type} [DecidableEq Owner] {owner : Nat → Owner} {s s' : System Owner} {act : Act}
variable {as : List Act} {x : Nat} {t : Tape Record}

/-- What a step shows of the shard and of the cursor of instance `x` in it. -/
def shown (x : Nat) (s : System Owner) : Act → List (Tape.Event Record)
  | .append data => [.append ⟨data, s.shard.clock⟩]
  | .sub y act => if y = x then (s.subs x).shown s.shard act else []
  | _ => []

/-- The tape has the shard's records, with its cursor where the instance's reader stands. -/
structure Follows (x : Nat) (s : System Owner) (t : Tape Record) : Prop where
  log : t.log = s.shard.log
  cursor : (s.subs x).At t.cursor

theorem step_follows (h : s.step owner act = some s') (hf : Follows x s t) :
    (∃ t', exec Tape.step t (shown x s act) = some t' ∧ Follows x s' t') ∧
    (s'.subs x).sequences = (s.subs x).sequences ++ (shown x s act).flatMap Reader.handsOut ∧
    (s'.subs x).refused = (s.subs x).refused ++ (shown x s act).flatMap Reader.refuses := by
  cases act with
  | tick =>
    obtain rfl := Option.some.inj h
    exact ⟨⟨t, rfl, hf.log, hf.cursor⟩, by simp [shown], by simp [shown]⟩
  | close =>
    obtain rfl := Option.some.inj h
    exact ⟨⟨t, rfl, hf.log, hf.cursor⟩, by simp [shown], by simp [shown]⟩
  | append data =>
    simp only [step] at h
    split at h
    · cases h
    · obtain rfl := Option.some.inj h
      refine ⟨⟨{ t with log := t.log ++ [⟨data, s.shard.clock⟩] }, rfl, ?_, hf.cursor⟩, ?_, ?_⟩
      · simp only [hf.log, Shard.append]
      · exact (List.append_nil _).symm
      · exact (List.append_nil _).symm
  | sub y a =>
    obtain ⟨⟨lease, u⟩, hu, rfl⟩ := Option.map_eq_some_iff.mp h
    by_cases hy : y = x
    · subst hy
      obtain ⟨⟨t', ht, hlog, hat⟩, hseq, href⟩ := Subscription.step_shown hf.cursor hf.log hu
      simp only [shown, ite_true, Function.update_self]
      refine ⟨⟨t', ht, hlog, ?_⟩, hseq, href⟩
      simpa using hat
    · have hsub : Function.update s.subs y u x = s.subs x := Function.update_of_ne (Ne.symm hy) _ _
      simp only [shown, if_neg hy, hsub]
      refine ⟨⟨t, rfl, hf.log, ?_⟩, by simp, by simp⟩
      simpa only [hsub] using hf.cursor

/-- Of every run, what it shows of an instance is a run of the tape, and tells what the instance
handed out and refused. -/
theorem run_follows (h : exec (step owner) s as = some s') (hf : Follows x s t) :
    (∃ t', exec Tape.step t (labels (step owner) (shown x) s as) = some t' ∧ Follows x s' t') ∧
    (s'.subs x).sequences = (s.subs x).sequences ++
      (labels (step owner) (shown x) s as).flatMap Reader.handsOut ∧
    (s'.subs x).refused = (s.subs x).refused ++
      (labels (step owner) (shown x) s as).flatMap Reader.refuses := by
  induction as generalizing s t with
  | nil =>
    obtain rfl := Option.some.inj h
    exact ⟨⟨t, rfl, hf⟩, (List.append_nil _).symm, (List.append_nil _).symm⟩
  | cons act as ih =>
    obtain ⟨m, hm, hrest⟩ := Option.bind_eq_some_iff.mp h
    obtain ⟨⟨t₁, ht₁, hf₁⟩, hseq₁, href₁⟩ := step_follows hm hf
    obtain ⟨⟨t₂, ht₂, hf₂⟩, hseq₂, href₂⟩ := ih hrest hf₁
    rw [labels_cons hm, List.flatMap_append, List.flatMap_append]
    refine ⟨⟨t₂, by rw [exec_append ht₁, ht₂], hf₂⟩, ?_, ?_⟩
    · rw [hseq₂, hseq₁, List.append_assoc]
    · rw [href₂, href₁, List.append_assoc]

/-- Every run of instances over one shard is, for each of them, a run of a cursor in the shard's
log: it is put where a fetched iterator stands and takes what is handed out or refused. -/
theorem reads_as_tape {shard : Shard} {lease : MemoryLease Owner}
    (h : exec (step owner) (fresh shard lease) as = some s) (x : Nat) :
    ∃ c, exec Tape.step ⟨shard.log, 0⟩ (labels (step owner) (shown x) (fresh shard lease) as) =
        some ⟨s.shard.log, c⟩ ∧
      (∀ r p, (s.subs x).reader = some r → r.position = some p → p = c) ∧
      (s.subs x).sequences =
        (labels (step owner) (shown x) (fresh shard lease) as).flatMap Reader.handsOut ∧
      (s.subs x).refused =
        (labels (step owner) (shown x) (fresh shard lease) as).flatMap Reader.refuses := by
  have hstart : Follows x (fresh shard lease) (⟨shard.log, 0⟩ : Tape Record) :=
    ⟨rfl, .absent (by simp [fresh])⟩
  obtain ⟨⟨⟨log, c⟩, ht, hf⟩, hseq, href⟩ := run_follows h hstart
  obtain rfl : log = s.shard.log := hf.log
  exact ⟨c, ht, hf.cursor, hseq, href⟩

/-- The tip is opened, three records arrive, the second of them aggregated, and are handed out. -/
def handingOut : List Act :=
  [.append [7]] ++ opening 0 .opens 0 ++
    [.append [1], .append (kplMagic ++ [0]), .append [2]] ++ reading 0 3 false ++
    [.sub 0 (.reader (.recordOpening true)), .sub 0 (.reader .handOut),
      .sub 0 (.reader .handOut), .sub 0 (.reader .handOut)]

/-- The cursor of that run: put at the tip, then over the three records. -/
theorem reads_as_tape_handingOut : ∃ (s : System Nat) (c : Nat),
    exec (step id) (fresh {} {}) handingOut = some s ∧
    exec Tape.step {} (labels (step id) (shown 0) (fresh {} {}) handingOut) =
      some ⟨s.shard.log, c⟩ ∧ (s.subs 0).sequences = [1, 3] ∧ (s.subs 0).refused = [2] := by
  obtain ⟨s, hexec, hseq, href⟩ : ∃ s : System Nat,
      exec (step id) (fresh {} {}) handingOut = some s ∧ (s.subs 0).sequences = [1, 3] ∧
      (s.subs 0).refused = [2] := ⟨_, rfl, rfl, rfl⟩
  obtain ⟨c, ht, -⟩ := reads_as_tape hexec 0
  exact ⟨s, c, hexec, ht, hseq, href⟩

/-- The steps in which instance `x` fetches a cursor. -/
def fetches (x : Nat) : Act → Bool
  | .sub y act => y == x && act.fetches
  | _ => false

omit [DecidableEq Owner] in
theorem shown_still (hact : fetches x act = false) :
    ∀ event ∈ shown x s act, event.still = true := by
  intro event hevent
  cases act with
  | tick | close => cases hevent
  | append data =>
    obtain rfl := List.mem_singleton.mp hevent
    rfl
  | sub y a =>
    simp only [shown] at hevent
    split at hevent
    · rename_i hy
      refine Subscription.shown_still ?_ event hevent
      simpa [fetches, hy] using hact
    · cases hevent

theorem labels_still (h : exec (step owner) s as = some s')
    (hact : ∀ act ∈ as, fetches x act = false) :
    ∀ event ∈ labels (step owner) (shown x) s as, event.still = true := by
  induction as generalizing s with
  | nil => simp [labels]
  | cons act as ih =>
    obtain ⟨m, hm, hrest⟩ := Option.bind_eq_some_iff.mp h
    rw [labels_cons hm]
    intro event hevent
    rcases List.mem_append.mp hevent with he | he
    · exact shown_still (hact act List.mem_cons_self) event he
    · exact ih hrest (fun act ha => hact act (List.mem_cons_of_mem _ ha)) event he

/-- The record at a place of the shard is one that is refused. -/
def refusedAt (s : System Owner) (n : Nat) : Bool := (s.shard.log[n]?).any Record.aggregated

omit [DecidableEq Owner] in
theorem handsOut_taken {events : List (Tape.Event Record)}
    (hlog : ∀ n record, (n, record) ∈ events.flatMap Tape.Event.taken →
      s.shard.log[n]? = some record) :
    events.flatMap Reader.handsOut =
        ((events.flatMap Tape.Event.taken).map Prod.fst).filter (fun n => !s.refusedAt n) ∧
      events.flatMap Reader.refuses =
        ((events.flatMap Tape.Event.taken).map Prod.fst).filter s.refusedAt := by
  induction events with
  | nil => exact ⟨rfl, rfl⟩
  | cons event events ih =>
    have hrest := ih fun n record hmem => hlog n record (by
      rw [List.flatMap_cons]
      exact List.mem_append_right _ hmem)
    rw [List.flatMap_cons, List.flatMap_cons, List.flatMap_cons, List.map_append,
      List.filter_append, List.filter_append, hrest.1, hrest.2]
    cases event with
    | take n record =>
      have hget := hlog n record (by
        rw [List.flatMap_cons]
        exact List.mem_append_left _ List.mem_cons_self)
      have hat : s.refusedAt n = record.aggregated := by
        rw [refusedAt, hget, Option.any_some]
      cases hagg : record.aggregated <;>
        simp [Reader.handsOut, Reader.refuses, Tape.Event.taken, hat, hagg]
    | append | move => exact ⟨rfl, rfl⟩

omit [DecidableEq Owner] in
/-- What is handed out and refused while the cursor is left to the records that are taken. -/
theorem handsOut_stretch {t' : Tape Record} {events : List (Tape.Event Record)}
    (ht : exec Tape.step t events = some t') (hlog : t'.log = s.shard.log)
    (hstill : ∀ event ∈ events, event.still = true) :
    t.cursor ≤ t'.cursor ∧
      events.flatMap Reader.handsOut =
        (List.range' t.cursor (t'.cursor - t.cursor)).filter (fun n => !s.refusedAt n) ∧
      events.flatMap Reader.refuses =
        (List.range' t.cursor (t'.cursor - t.cursor)).filter s.refusedAt := by
  obtain ⟨hle, hrange⟩ := Tape.exec_still ht hstill
  have hout := handsOut_taken (s := s) fun n record hmem => hlog ▸ Tape.taken_in_log ht hmem
  rw [hrange] at hout
  exact ⟨hle, hout⟩

omit [DecidableEq Owner] in
/-- A tape to follow an instance from where its reader stands. -/
theorem Follows.from {r : Reader} {p : Nat} (hr : (s.subs x).reader = some r)
    (hp : r.position = some p) : Follows x s ⟨s.shard.log, p⟩ := by
  refine ⟨rfl, ?_⟩
  intro r' q hr' hq
  obtain rfl := Option.some.inj (hr.symm.trans hr')
  exact Option.some.inj (hq.symm.trans hp)

/-- Between two cursors that a reader fetches it hands out the shard's records from where it stood
on, each once and in the shard's order, with those that are aggregated refused in their place. -/
theorem hands_out_in_order {r : Reader} {p : Nat} (h : exec (step owner) s as = some s')
    (hact : ∀ act ∈ as, fetches x act = false) (hr : (s.subs x).reader = some r)
    (hp : r.position = some p) :
    ∃ p', p ≤ p' ∧
      (∀ r' q, (s'.subs x).reader = some r' → r'.position = some q → q = p') ∧
      (s'.subs x).sequences = (s.subs x).sequences ++
        (List.range' p (p' - p)).filter (fun n => !s'.refusedAt n) ∧
      (s'.subs x).refused = (s.subs x).refused ++
        (List.range' p (p' - p)).filter s'.refusedAt := by
  obtain ⟨⟨t', ht, hf⟩, hseq, href⟩ := run_follows h (Follows.from hr hp)
  obtain ⟨hle, hout, hrefused⟩ := handsOut_stretch ht hf.log (labels_still h hact)
  exact ⟨t'.cursor, hle, hf.cursor, hout ▸ hseq, hrefused ▸ href⟩

/-- The three records of that run, handed out from the tip on. -/
theorem hands_out_in_order_handingOut : ∃ (s s' : System Nat) (p' : Nat),
    exec (step id) (fresh {} {}) (handingOut.take 4) = some s ∧
    exec (step id) s (handingOut.drop 4) = some s' ∧ 1 ≤ p' ∧
    (s'.subs 0).sequences = (s.subs 0).sequences ++
      (List.range' 1 (p' - 1)).filter (fun n => !s'.refusedAt n) ∧
    (s'.subs 0).sequences = [1, 3] := by
  obtain ⟨s, s', hs, hs', hr, hseq⟩ : ∃ s s' : System Nat,
      exec (step id) (fresh {} {}) (handingOut.take 4) = some s ∧
      exec (step id) s (handingOut.drop 4) = some s' ∧
      (∃ r, (s.subs 0).reader = some r ∧ r.position = some 1) ∧
      (s'.subs 0).sequences = [1, 3] := ⟨_, _, rfl, rfl, ⟨_, rfl, rfl⟩, rfl⟩
  obtain ⟨r, hr, hp⟩ := hr
  obtain ⟨p', hle, -, hout, -⟩ := hands_out_in_order hs' (by decide) hr hp
  exact ⟨s, s', p', hs, hs', hle, hout, hseq⟩

end System

end RuststreamKinesis
