import RuststreamKinesis.Order
import RuststreamKinesis.Progress

/-!
# After the consumer has left

A reader finds out at the head of its loop, or when it hands a record out, that the consumer
dropped the subscription (`read_shard`). From then on it hands nothing out, reads the shard once
more at most, and comes to its end in a number of steps of its own that only seeks add to.
-/

namespace RuststreamKinesis

set_option autoImplicit false

open Runs

/-- How many steps a reader whose consumer has left takes at most. A command that is applied brings
it back to where it looks for the next one. -/
def Reader.toExit (r : Reader) : Nat :=
  match r.pc with
  | .exited _ => 0
  | .releasing _ => 1
  | .head | .ending _ => 2
  | .fetching _ _ _ => 3
  | .opening _ => 4
  | .idle | .seeking _ true => 3 + 2 * r.commands.length
  | .forwarding _ _ _ _ _ => (if r.reading.unrecorded then 5 else 4) + 2 * r.commands.length
  | .reading _ => 6 + 2 * r.commands.length
  | .stamping => 7 + 2 * r.commands.length
  | .renewing => 8 + 2 * r.commands.length
  | .draining => 9 + 2 * r.commands.length
  | .seeking _ false => 10 + 2 * r.commands.length

/-- Whether the reader still comes to a read of the shard when its consumer has left. -/
def Reader.toRead (r : Reader) : Nat :=
  match r.pc with
  | .draining | .seeking _ false | .renewing | .stamping | .reading _ => 1
  | _ => 0

theorem Reader.toExit_le (r : Reader) : r.toExit ≤ 10 + 2 * r.commands.length := by
  unfold toExit
  split <;> (try split) <;> omega

theorem Reader.toRead_le (r : Reader) : r.toRead ≤ 1 := by
  unfold toRead
  split <;> omega

theorem Reader.toExit_pos {r : Reader} (h : r.exited = false) : 0 < r.toExit := by
  unfold toExit
  split
  · rename_i hpc
    simp [exited, hpc] at h
  all_goals try split
  all_goals omega

theorem Reader.toExit_forwarding {r : Reader} {epoch next stop : Nat} {last idle : Bool}
    (h : r.pc = .forwarding epoch next stop last idle) :
    4 + 2 * r.commands.length ≤ r.toExit := by
  simp only [toExit, h]
  split <;> omega

/-- The step is a `GetRecords` that the service answered with records. -/
def ReaderAct.isRead : ReaderAct → Bool
  | .getRecords _ _ => true
  | _ => false

/-- A step of the shard's reader. -/
def SubAct.ofReader : SubAct → Bool
  | .reader _ => true
  | _ => false

def SubAct.isRead : SubAct → Bool
  | .reader act => act.isRead
  | _ => false

/-- A seek sends its command. -/
def SubAct.isSend : SubAct → Bool
  | .send _ => true
  | _ => false

/-- The coordinator takes the lease for a reader. -/
def SubAct.isAcquire : SubAct → Bool
  | .acquire _ _ => true
  | _ => false

namespace Subscription

variable {Owner : Type} [DecidableEq Owner] {u u' : Subscription} {owner : Owner} {shard : Shard}
variable {lease lease' : MemoryLease Owner} {r r' : Reader} {act : ReaderAct} {a : SubAct}

/-- A record that nobody will receive ends the reader. -/
theorem handOut_closed (hclosed : u.closed = true) (h : u.handOut shard r = some u') :
    (∃ epoch next stop last idle, r.pc = .forwarding epoch next stop last idle) ∧
      ∃ r', (u' = u.exit r' none ∨ u' = u.goto r' (.releasing none)) := by
  unfold handOut at h
  split at h
  · rename_i epoch next stop last idle hpc
    refine ⟨⟨epoch, next, stop, last, idle, hpc⟩, ?_⟩
    split at h
    · obtain ⟨record, -, h⟩ := Option.bind_eq_some_iff.mp h
      obtain ⟨tracker, -, h⟩ := Option.bind_eq_some_iff.mp h
      simp only at h
      split at h
      · exact ⟨_, .inl (Option.some.inj h).symm⟩
      · exact ⟨_, .inr (Option.some.inj h).symm⟩
    · cases h
  · cases h

/-- What a step of the reader leaves behind when its consumer has left. -/
structure Nearer (u u' : Subscription) (r r' : Reader) (act : ReaderAct) : Prop where
  reader : u'.reader = some r'
  closed : u'.closed = true
  sequences : u'.sequences = u.sequences
  refused : u'.refused = u.refused
  exit : r'.toExit + 1 ≤ r.toExit
  read : r'.toRead + act.isRead.toNat ≤ r.toRead

theorem handOut_nearer (hclosed : u.closed = true) (h : u.handOut shard r = some u') :
    ∃ r', Nearer u u' r r' .handOut := by
  obtain ⟨⟨epoch, next, stop, last, idle, hpc⟩, r', he⟩ := handOut_closed hclosed h
  have hfar := Reader.toExit_forwarding hpc
  rcases he with rfl | rfl
  · refine ⟨_, rfl, hclosed, rfl, rfl, ?_, Nat.zero_le _⟩
    change 0 + 1 ≤ r.toExit
    omega
  · refine ⟨_, rfl, hclosed, rfl, rfl, ?_, Nat.zero_le _⟩
    change 1 + 1 ≤ r.toExit
    omega

/-- Every step of the reader brings it closer to its end. -/
theorem ReaderStep.nearer (h : ReaderStep u owner shard lease r act lease' u')
    (hclosed : u.closed = true) (hact : act ≠ .handOut) : ∃ r', Nearer u u' r r' act := by
  cases h with
  | refusedRecord | handClosedRefused | handClosed | handedOut => exact absurd rfl hact
  | sawOpen _ hopen => cases hclosed.symm.trans hopen
  | rowEnd hpc | rowCheckpoint hpc | rowBlank hpc | rowRetry hpc | rowFailClosed hpc | rowFail hpc
  | opened hpc | openNone hpc | openRetry hpc | openFailClosed hpc | openFail hpc | sawClosed hpc
  | drained hpc | renewed hpc | fenced hpc | renewFails hpc | notDue hpc | stamp hpc
  | throttled hpc | expired hpc | gaveUpExpired hpc | readClosed hpc | fatal hpc | gaveUp hpc
  | retry hpc | wake hpc | markedEnd hpc | leftEnd hpc | release hpc =>
    refine ⟨_, rfl, hclosed, rfl, rfl, ?_, ?_⟩
    · simp only [Reader.toExit, hpc]
      omega
    · simp [Reader.toRead, hpc, ReaderAct.isRead]
  | takeDraining hpc hcommands | takeIdle hpc hcommands =>
    refine ⟨_, rfl, hclosed, rfl, rfl, ?_, ?_⟩
    · simp only [Reader.toExit, hpc, hcommands, List.length_cons]
      omega
    · simp [Reader.toRead, hpc, ReaderAct.isRead]
  | @sought call idle c p hpc =>
    refine ⟨_, rfl, hclosed, rfl, rfl, ?_, ?_⟩
    · cases idle <;> simp only [Reader.toExit, hpc] <;> simp
    · cases idle <;> simp [Reader.toRead, hpc, ReaderAct.isRead]
  | @seekFailed call idle c reply hpc =>
    refine ⟨_, rfl, hclosed, rfl, rfl, ?_, ?_⟩
    · cases idle <;> simp only [Reader.toExit, hpc] <;> simp
    · cases idle <;> simp [Reader.toRead, hpc, ReaderAct.isRead]
  | gotRecords hpc =>
    refine ⟨_, rfl, hclosed, rfl, rfl, ?_, ?_⟩
    · simp only [Reader.toExit, hpc]
      split <;> omega
    · simp [Reader.toRead, hpc, ReaderAct.isRead]
  | recorded hpc _ hun =>
    refine ⟨_, rfl, hclosed, rfl, rfl, ?_, ?_⟩
    · simp only [Reader.toExit, hpc, hun]
      simp
    · simp [Reader.toRead, hpc, ReaderAct.isRead]
  | notRecorded hpc | batchEnd hpc =>
    have hfar := Reader.toExit_forwarding hpc
    refine ⟨_, rfl, hclosed, rfl, rfl, ?_, ?_⟩
    · simp only [Reader.toExit] at hfar ⊢
      omega
    · simp [Reader.toRead, hpc, ReaderAct.isRead]
  | @batchDone epoch stop idle hpc =>
    have hfar := Reader.toExit_forwarding hpc
    refine ⟨_, rfl, hclosed, rfl, rfl, ?_, ?_⟩
    · cases idle
      · change 2 + 1 ≤ r.toExit
        omega
      · change 3 + 2 * r.commands.length + 1 ≤ r.toExit
        omega
    · cases idle <;> simp [Reader.toRead, hpc, ReaderAct.isRead]
  | crash hx =>
    refine ⟨_, rfl, hclosed, rfl, rfl, ?_, ?_⟩
    · exact Reader.toExit_pos hx
    · simp [Reader.toRead, ReaderAct.isRead]

/-- Any other step leaves the reader where it is, or sends it one command more. -/
inductive Bystands (u u' : Subscription) (a : SubAct) : Prop where
  | same (hr : u'.reader = u.reader)
  | gone (hr : u'.reader = none)
  | told {call : Nat} {r : Reader} (ha : a = .send call) (hr : u.reader = some r)
      (hr' : u'.reader = some { r with commands := r.commands ++ [call] })

theorem Step.bystands (h : Step u owner shard lease a lease' u') (hact : ∀ act, a ≠ .reader act)
    (hspawn : ∀ lineage now, a ≠ .acquire lineage now) : Bystands u u' a := by
  cases h with
  | reader => exact absurd rfl (hact _)
  | acquired => exact absurd rfl (hspawn _ _)
  | forgot => exact .gone rfl
  | sent _ _ hr => exact .told rfl hr rfl
  | _ => exact .same rfl

theorem Step.stays_closed (h : Step u owner shard lease a lease' u') (hclosed : u.closed = true) :
    u'.closed = true := by
  cases h with
  | leave => rfl
  | reader _ h => cases h <;> exact hclosed
  | _ => exact hclosed

/-- Of a subscription whose consumer has left: the steps its reader takes at most, and the reads it
still comes to. -/
def toExit (u : Subscription) : Nat := u.reader.elim 0 Reader.toExit

def toRead (u : Subscription) : Nat := u.reader.elim 0 Reader.toRead

/-- What a step does once the consumer has left. -/
structure Left (u u' : Subscription) (a : SubAct) : Prop where
  closed : u'.closed = true
  sequences : u'.sequences = u.sequences
  refused : u'.refused = u.refused
  exit : u'.toExit + a.ofReader.toNat ≤ u.toExit + 2 * a.isSend.toNat
  read : u'.toRead + a.isRead.toNat ≤ u.toRead

theorem Nearer.left (h : Nearer u u' r r' act) (hr : u.reader = some r) :
    Left u u' (.reader act) where
  closed := h.closed
  sequences := h.sequences
  refused := h.refused
  exit := by
    simp only [toExit, h.reader, hr, Option.elim_some]
    exact h.exit
  read := by
    simp only [toRead, h.reader, hr, Option.elim_some]
    exact h.read

theorem Bystands.left (h : Bystands u u' a) (ha : a.ofReader = false) :
    u'.toExit + a.ofReader.toNat ≤ u.toExit + 2 * a.isSend.toNat ∧
      u'.toRead + a.isRead.toNat ≤ u.toRead := by
  have hread : a.isRead = false := by
    cases a with
    | reader => cases ha
    | _ => rfl
  rw [ha, hread]
  cases h with
  | same hr => simp [toExit, toRead, hr]
  | gone hr => simp [toExit, toRead, hr]
  | @told call r hact hr hr' =>
    subst hact
    have hexit : Reader.toExit { r with commands := r.commands ++ [call] } ≤ r.toExit + 2 := by
      simp only [Reader.toExit, List.length_append, List.length_singleton]
      split <;> omega
    have hsame : Reader.toRead { r with commands := r.commands ++ [call] } = r.toRead := rfl
    simp only [toExit, toRead, hr, hr', Option.elim_some, hsame]
    exact ⟨hexit, Nat.le_refl _⟩

/-- What a step of the subscription does when its consumer has left. -/
theorem left_step (hclosed : u.closed = true) (hspawn : a.isAcquire = false)
    (h : u.step owner shard lease a = some (lease', u')) : Left u u' a := by
  by_cases ha : ∃ act, a = .reader act
  · obtain ⟨act, rfl⟩ := ha
    obtain ⟨r, hr, hstep⟩ := Option.bind_eq_some_iff.mp h
    by_cases hact : act = .handOut
    · subst hact
      obtain ⟨v, hv, he⟩ := Option.map_eq_some_iff.mp hstep
      obtain ⟨-, rfl⟩ := Prod.mk.inj he
      obtain ⟨r', hn⟩ := handOut_nearer hclosed hv
      exact hn.left hr
    · obtain ⟨r', hn⟩ := (readerStep_cases hstep).nearer hclosed hact
      exact hn.left hr
  · have hnot : ∀ act, a ≠ .reader act := fun act he => ha ⟨act, he⟩
    have hstep := step_cases h
    obtain ⟨hseq, href⟩ := hstep.unhanded hnot
    have hother : a.ofReader = false := by
      cases a with
      | reader act => exact absurd rfl (hnot act)
      | _ => rfl
    have hby := hstep.bystands hnot (by rintro lineage now rfl; cases hspawn)
    obtain ⟨hexit, hread⟩ := hby.left hother
    exact ⟨hstep.stays_closed hclosed, hseq, href, hexit, hread⟩

/-- The reader of a subscription that was left can go on, whoever else does not. -/
theorem goes_on (hord : Orderly shard u) (hclosed : u.closed = true) (hr : u.reader = some r)
    (hx : r.exited = false) (owner : Owner) (lease : MemoryLease Owner) :
    ∃ act, act ≠ .crash ∧ (u.readerStep owner shard lease r act).isSome = true := by
  obtain ⟨htracker, hgate⟩ := hord.sound.seated r hr
  have hw : ∃ w, u.trackers[r.tracker]? = some w := ⟨_, List.getElem?_eq_getElem htracker⟩
  obtain ⟨w, hw⟩ := hw
  cases hpc : r.pc with
  | opening again =>
    refine ⟨.readRow false, by simp, ?_⟩
    cases again <;> simp [readerStep, readRow, hpc, fetchFailed, hclosed]
  | fetching start recorded again =>
    exact ⟨.openIterator .noIterator, by simp, by simp [readerStep, openIterator, hpc]⟩
  | head => exact ⟨.checkClosed, by simp, by simp [readerStep, checkClosed, hpc]⟩
  | draining =>
    cases hc : r.commands with
    | nil => exact ⟨.drained, by simp, by simp [readerStep, drained, hpc, hc]⟩
    | cons call rest => exact ⟨.takeSeek, by simp, by simp [readerStep, takeSeek, hpc, hc]⟩
  | seeking call idle =>
    obtain ⟨c, hc, -⟩ := hord.commanded.sent r call hr (by simp [Reader.waiting, hpc])
    exact ⟨.applySeek .fails, by simp, by simp [readerStep, applySeek, applyShardSeek, hpc, hc]⟩
  | renewing => exact ⟨.notDue, by simp, by simp [readerStep, notDue, hpc]⟩
  | stamping =>
    exact ⟨.stamp, by simp, by simp [readerStep, stamp, hpc, List.getElem?_eq_getElem hgate]⟩
  | reading epoch =>
    exact ⟨.readFails .throttled, by simp, by simp [readerStep, readFails, hpc]⟩
  | forwarding epoch next stop last idle =>
    obtain ⟨hle, hlen⟩ := hord.inLog r epoch next stop last idle hr hpc
    rcases Nat.lt_or_eq_of_le hle with hlt | rfl
    · cases hun : r.reading.unrecorded with
      | true =>
        exact ⟨.recordOpening false, by simp, by simp [readerStep, recordOpening, hpc, hlt, hun]⟩
      | false =>
        obtain ⟨record, hrecord⟩ : ∃ record, shard.log[next]? = some record :=
          ⟨_, List.getElem?_eq_getElem (Nat.lt_of_lt_of_le hlt hlen)⟩
        refine ⟨.handOut, by simp, ?_⟩
        cases hagg : record.aggregated <;>
          simp [readerStep, handOut, hpc, hlt, hun, hrecord, hw, hclosed, hagg]
    · refine ⟨.batchDone, by simp, ?_⟩
      cases last <;> simp [readerStep, batchDone, hpc]
  | idle => exact ⟨.wake, by simp, by simp [readerStep, wake, hpc]⟩
  | ending stop =>
    refine ⟨.markEnd false, by simp, ?_⟩
    cases w.drained <;> simp [readerStep, markEnd, hpc, hw, hclosed]
  | releasing rewind => exact ⟨.release, by simp, by simp [readerStep, release, hpc]⟩
  | exited rewind => simp [Reader.exited, hpc] at hx

end Subscription

namespace System

variable {Owner : Type} [DecidableEq Owner] {owner : Nat → Owner} {s s' : System Owner} {act : Act}
variable {as bs : List Act} {x : Nat} {shard : Shard} {lease : MemoryLease Owner}

/-- The step is one of instance `x`, of a kind. -/
def does (kind : SubAct → Bool) (x : Nat) : Act → Bool
  | .sub y a => y == x && kind a
  | _ => false

theorem left_step (h : s.step owner act = some s') (hclosed : (s.subs x).closed = true)
    (hspawn : does SubAct.isAcquire x act = false) :
    (s'.subs x).closed = true ∧ (s'.subs x).sequences = (s.subs x).sequences ∧
      (s'.subs x).refused = (s.subs x).refused ∧
      (s'.subs x).toExit + (does SubAct.ofReader x act).toNat ≤
        (s.subs x).toExit + 2 * (does SubAct.isSend x act).toNat ∧
      (s'.subs x).toRead + (does SubAct.isRead x act).toNat ≤ (s.subs x).toRead := by
  cases act with
  | tick | close =>
    obtain rfl := Option.some.inj h
    exact ⟨hclosed, rfl, rfl, Nat.le_refl _, Nat.le_refl _⟩
  | append data =>
    simp only [step] at h
    split at h
    · cases h
    · obtain rfl := Option.some.inj h
      exact ⟨hclosed, rfl, rfl, Nat.le_refl _, Nat.le_refl _⟩
  | sub y a =>
    obtain ⟨⟨lease', u⟩, hu, rfl⟩ := Option.map_eq_some_iff.mp h
    by_cases hy : y = x
    · subst hy
      simp only [does, beq_self_eq_true, Bool.true_and] at hspawn
      obtain ⟨hc, hseq, href, hexit, hread⟩ := Subscription.left_step hclosed hspawn hu
      simp only [does, beq_self_eq_true, Bool.true_and, Function.update_self]
      exact ⟨hc, hseq, href, hexit, hread⟩
    · have hsub : Function.update s.subs y u x = s.subs x := Function.update_of_ne (Ne.symm hy) _ _
      have hother : ∀ kind, does kind x (.sub y a) = false := by
        intro kind
        simp [does, hy]
      simp only [hsub, hother]
      exact ⟨hclosed, trivial, trivial, Nat.le_refl _, Nat.le_refl _⟩

theorem left_run (h : exec (step owner) s as = some s') (hclosed : (s.subs x).closed = true)
    (hspawn : ∀ act ∈ as, does SubAct.isAcquire x act = false) :
    (s'.subs x).closed = true ∧ (s'.subs x).sequences = (s.subs x).sequences ∧
      (s'.subs x).refused = (s.subs x).refused ∧
      (s'.subs x).toExit + as.countP (does SubAct.ofReader x) ≤
        (s.subs x).toExit + 2 * as.countP (does SubAct.isSend x) ∧
      (s'.subs x).toRead + as.countP (does SubAct.isRead x) ≤ (s.subs x).toRead := by
  induction as generalizing s with
  | nil =>
    obtain rfl := Option.some.inj h
    simpa using hclosed
  | cons act as ih =>
    obtain ⟨m, hm, hrest⟩ := Option.bind_eq_some_iff.mp h
    obtain ⟨hc, hseq, href, hexit, hread⟩ := left_step hm hclosed (hspawn _ List.mem_cons_self)
    obtain ⟨hc', hseq', href', hexit', hread'⟩ :=
      ih hrest hc fun act ha => hspawn act (List.mem_cons_of_mem _ ha)
    have hcount : ∀ kind : Act → Bool,
        (act :: as).countP kind = (kind act).toNat + as.countP kind := by
      intro kind
      rw [List.countP_cons]
      cases kind act <;> simp [Nat.add_comm]
    rw [hcount, hcount, hcount]
    exact ⟨hc', hseq'.trans hseq, href'.trans href, by omega, by omega⟩

/-- Once its consumer has left, a reader hands nothing out and reads its shard once more at most. It
comes to its end within ten steps, beside two for each seek that waits for it or is sent to it, and
it can always go on. -/
theorem leaving_ends (h : exec (step owner) (fresh shard lease) as = some s)
    (hclosed : (s.subs x).closed = true) (h' : exec (step owner) s bs = some s')
    (hspawn : ∀ act ∈ bs, does SubAct.isAcquire x act = false) :
    ((s'.subs x).sequences = (s.subs x).sequences ∧ (s'.subs x).refused = (s.subs x).refused) ∧
    bs.countP (does SubAct.isRead x) ≤ 1 ∧
    bs.countP (does SubAct.ofReader x) ≤ 10 + 2 * ((s.subs x).reader.elim 0
      fun r => r.commands.length) + 2 * bs.countP (does SubAct.isSend x) ∧
    ∀ r, (s'.subs x).reader = some r → r.exited = false →
      ∃ act, act ≠ .crash ∧ (s'.step owner (.sub x (.reader act))).isSome = true := by
  obtain ⟨hclosed', hseq, href, hexit, hread⟩ := left_run h' hclosed hspawn
  have hbound : (s.subs x).toExit ≤
      10 + 2 * ((s.subs x).reader.elim 0 fun r => r.commands.length) := by
    unfold Subscription.toExit
    cases (s.subs x).reader with
    | none => exact Nat.zero_le _
    | some r => exact r.toExit_le
  have honce : (s.subs x).toRead ≤ 1 := by
    unfold Subscription.toRead
    cases (s.subs x).reader with
    | none => exact Nat.zero_le _
    | some r => exact r.toRead_le
  refine ⟨⟨hseq, href⟩, by omega, by omega, ?_⟩
  intro r hr hx
  have hrun : exec (step owner) (fresh shard lease) (as ++ bs) = some s' := by
    rw [exec_append h, h']
  have hord := orderly_run (Run.of_exec (fun _ _ => trivial) hrun) x
  obtain ⟨act, hact, hsome⟩ := Subscription.goes_on hord hclosed' hr hx (owner x) s'.lease
  obtain ⟨⟨lease', u'⟩, hstep⟩ := Option.isSome_iff_exists.mp hsome
  refine ⟨act, hact, ?_⟩
  have hsub : (s'.subs x).step (owner x) s'.shard s'.lease (.reader act) = some (lease', u') :=
    Option.bind_eq_some_iff.mpr ⟨r, hr, hstep⟩
  rw [sub_step hsub]
  rfl

/-- The consumer leaves while its reader has a record to hand out. -/
def leavingBatch : List Act :=
  opening 0 .opens 0 ++ [.append [1]] ++ reading 0 1 false ++ [.sub 0 .leave]

theorem leaving_ends_batch : ∃ s s' : System Nat,
    exec (step id) (fresh {} {}) leavingBatch = some s ∧
    exec (step id) s [.sub 0 (.reader (.recordOpening true)), .sub 0 (.reader .handOut),
      .sub 0 (.reader .release)] = some s' ∧
    (s'.subs 0).sequences = (s.subs 0).sequences ∧ (s'.subs 0).reader.any Reader.exited = true := by
  obtain ⟨s, s', hs, hs', hclosed, hexited⟩ : ∃ s s' : System Nat,
      exec (step id) (fresh {} {}) leavingBatch = some s ∧
      exec (step id) s [.sub 0 (.reader (.recordOpening true)), .sub 0 (.reader .handOut),
        .sub 0 (.reader .release)] = some s' ∧
      (s.subs 0).closed = true ∧ (s'.subs 0).reader.any Reader.exited = true :=
    ⟨_, _, rfl, rfl, rfl, rfl⟩
  have hleft := leaving_ends (x := 0) hs hclosed hs' (by decide)
  exact ⟨s, s', hs, hs', hleft.1.1, hexited⟩

end System

end RuststreamKinesis
