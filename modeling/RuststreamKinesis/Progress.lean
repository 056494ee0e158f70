import RuststreamKinesis.Ending

/-!
# Seeks come to an end

A seek that waits at a reader that is not wedged can be answered: some step of the reader, of the
consumer or of a settlement brings the reader closer to the command, or the end of the shard
closer to being marked.
-/

namespace RuststreamKinesis

set_option autoImplicit false

open Runs

/-- How far a reader is from its commands, or from its exit. -/
def Pc.rank : Pc → Nat
  | .exited _ | .releasing _ | .seeking _ _ => 0
  | .ending _ | .draining => 1
  | .head => 2
  | .idle | .reading _ => 3
  | .stamping => 4
  | .renewing => 5
  | .fetching _ _ _ => 6
  | .opening _ => 7
  | .forwarding _ _ _ _ _ => 8

/-- What is left to do until a delivery is told to its tracker. -/
def Phase.left : Phase → Nat
  | .queued => 3
  | .held => 2
  | .checked => 1
  | _ => 0

namespace Subscription

variable {Owner : Type} [DecidableEq Owner] {u u' : Subscription} {owner : Owner}
variable {shard : Shard} {lease lease' : MemoryLease Owner} {r r' : Reader} {act : ReaderAct}
variable {a : SubAct} {t call : Nat}

def left (u : Subscription) : Nat := (u.deliveries.map fun d => d.phase.left).sum

/-- What the reader has to do where it stands. -/
def todo (u : Subscription) (r : Reader) : Nat :=
  match r.pc with
  | .forwarding _ next stop _ _ => 2 * (stop - next) + r.reading.unrecorded.toNat
  | .ending _ => u.left
  | _ => 0

def variant (call : Nat) (u : Subscription) (r : Reader) : Nat × Nat × Nat × Nat :=
  (r.waiting.idxOf call, r.pc.rank, u.todo r, u.queue.length)

/-- The lexicographic order of variants. -/
def Smaller : Nat × Nat × Nat × Nat → Nat × Nat × Nat × Nat → Prop :=
  Prod.Lex (· < ·) (Prod.Lex (· < ·) (Prod.Lex (· < ·) (· < ·)))

theorem smaller_wf : WellFounded Smaller :=
  WellFounded.prod_lex Nat.lt_wfRel.wf (WellFounded.prod_lex Nat.lt_wfRel.wf
    (WellFounded.prod_lex Nat.lt_wfRel.wf Nat.lt_wfRel.wf))

theorem smaller_rank (hw : r'.waiting = r.waiting) (h : r'.pc.rank < r.pc.rank) :
    Smaller (variant call u' r') (variant call u r) := by
  unfold variant
  rw [hw]
  exact .right _ (.left _ _ h)

theorem smaller_todo (hw : r'.waiting = r.waiting) (hrank : r'.pc.rank = r.pc.rank)
    (h : u'.todo r' < u.todo r) : Smaller (variant call u' r') (variant call u r) := by
  unfold variant
  rw [hw, hrank]
  exact .right _ (.right _ (.left _ _ h))

theorem smaller_queue (hle : u'.todo r ≤ u.todo r) (h : u'.queue.length < u.queue.length) :
    Smaller (variant call u' r) (variant call u r) := by
  unfold variant
  rcases hle.lt_or_eq with hlt | heq
  · exact .right _ (.right _ (.left _ _ hlt))
  · rw [heq]
    exact .right _ (.right _ (.right _ h))

/-- The seek learns how it ended as soon as it is scheduled. -/
def Answerable (u : Subscription) (call : Nat) : Prop :=
  ∃ c, u.calls[call]? = some c ∧
    ((∃ outcome, c.phase = .answered outcome) ∨ (c.phase = .sent ∧ u.live c.gate = false))

theorem Answerable.returns (h : Answerable u call) (owner : Owner) (shard : Shard)
    (lease : MemoryLease Owner) : ∃ u' c outcome,
      u.step owner shard lease (.answer call) = some (lease, u') ∧ u'.calls[call]? = some c ∧
      c.phase = .returned outcome := by
  obtain ⟨c, hc, ⟨outcome, hp⟩ | ⟨hp, hlive⟩⟩ := h
  · exact ⟨_, _, outcome, by simp [step, answer, hc, hp]; rfl, Cells.get_set_self hc, rfl⟩
  · exact ⟨_, _, .shutDown, by simp [step, answer, hc, hp, hlive]; rfl, Cells.get_set_self hc, rfl⟩

theorem Awaits.step (h : Awaits u call r) (hs : Step u owner shard lease a lease' u')
    (ha : proceeds a = true) : (∃ r', Awaits u' call r') ∨ Answerable u' call := by
  obtain ⟨hr, hlive, c, hc, hp, hg⟩ := h
  have aside : u'.reader = some r → u'.calls[call]? = some c →
      (∃ r', Awaits u' call r') ∨ Answerable u' call :=
    fun hr' hc' => .inl ⟨r, hr', hlive, c, hc', hp, hg⟩
  cases hs with
  | reader hr₀ hs =>
    obtain rfl := Option.some.inj (hr.symm.trans hr₀)
    obtain ⟨r', hr'⟩ := hs.reader_isSome
    have hgate := (hs.seat hr').1
    have hatt := hs.attends hr'
    cases hatt with
    | same _ hcs hx => exact .inl ⟨r', hr', hx, c, hcs ▸ hc, hp, hg.trans hgate.symm⟩
    | gone _ hcs hx =>
      refine .inr ⟨c, hcs ▸ hc, .inr ⟨hp, ?_⟩⟩
      simp [Subscription.live, hr', hx]
    | @answered j idle c₀ outcome hpc hget hcs _ hx =>
      by_cases hj : call = j
      · subst hj
        exact .inr ⟨_, hcs ▸ Cells.get_set_self hget, .inl ⟨outcome, rfl⟩⟩
      · exact .inl ⟨r', hr', hx, c, hcs ▸ (Cells.get_set_ne hj).trans hc, hp, hg.trans hgate.symm⟩
  | @answered j c₀ outcome hj hphase =>
    refine aside hr ((Cells.get_set_ne ?_).trans hc)
    rintro rfl
    obtain rfl := Option.some.inj (hc.symm.trans hj)
    exact absurd (hp.symm.trans hphase) (by simp)
  | answerGone hj _ hgone =>
    refine aside hr ((Cells.get_set_ne ?_).trans hc)
    rintro rfl
    obtain rfl := Option.some.inj (hc.symm.trans hj)
    exact absurd (hlive.symm.trans (live_eq_false hgone hr hg.symm)) (by simp)
  | pollDelivery | pollOther | ackCurrent | ackStale | settled | written | notWritten | refuse =>
    exact aside hr hc
  | _ => cases ha

/-- Some step brings the call closer to its answer. -/
def Advances (shard : Shard) (owner : Owner) (lease : MemoryLease Owner) (u : Subscription)
    (call : Nat) (r : Reader) : Prop :=
  ∃ a lease' u', proceeds a = true ∧ u.step owner shard lease a = some (lease', u') ∧
    u'.closed = false ∧ (Answerable u' call ∨ ∃ r', Awaits u' call r' ∧ ¬ Wedged shard u' r' ∧
      Smaller (variant call u' r') (variant call u r))

theorem Awaits.advances (h : Awaits u call r) (ha : proceeds a = true)
    (hstep : u.step owner shard lease a = some (lease', u')) (hopen : u'.closed = false)
    (hr' : ∀ r', Awaits u' call r' → ¬ Wedged shard u' r' ∧
      Smaller (variant call u' r') (variant call u r)) : Advances shard owner lease u call r := by
  refine ⟨a, lease', u', ha, hstep, hopen, ?_⟩
  rcases h.step (step_cases hstep) ha with ⟨r', haw⟩ | hgone
  · obtain ⟨hw, hs⟩ := hr' r' haw
    exact .inr ⟨r', haw, hw, hs⟩
  · exact .inl hgone

theorem Awaits.acts (h : Awaits u call r) (hopen : u.closed = false)
    (hstep : u.readerStep owner shard lease r act = some (lease', u')) (hact : act ≠ .crash)
    (hu' : u'.reader = some r' ∧ u'.closed = u.closed)
    (hr' : Awaits u' call r' → ¬ Wedged shard u' r' ∧
      Smaller (variant call u' r') (variant call u r)) : Advances shard owner lease u call r := by
  have ha : proceeds (.reader act) = true := by
    cases act <;> first | rfl | exact absurd rfl hact
  have hstep' : u.step owner shard lease (.reader act) = some (lease', u') := by
    simp [Subscription.step, h.reader, hstep]
  refine h.advances ha hstep' (hu'.2.trans hopen) ?_
  intro r₀ haw
  obtain rfl := Option.some.inj (hu'.1.symm.trans haw.reader)
  exact hr' haw

theorem not_wedged (hf : ∀ epoch next stop idle, r.pc ≠ .forwarding epoch next stop true idle)
    (he : ∀ stop, r.pc ≠ .ending stop) : ¬ Wedged shard u r := by
  rintro (⟨hpc, _⟩ | ⟨hpc, _, _⟩)
  · exact he _ hpc
  · exact hf _ _ _ _ hpc

theorem Awaits.goes {pc : Pc} (h : Awaits u call r) (hopen : u.closed = false)
    (hstep : u.readerStep owner shard lease r act = some (lease', u.goto r pc))
    (hact : act ≠ .crash) (hpc : ∀ call idle, pc ≠ .seeking call idle)
    (hpc₀ : ∀ call idle, r.pc ≠ .seeking call idle)
    (hf : ∀ epoch next stop idle, pc ≠ .forwarding epoch next stop true idle)
    (he : ∀ stop, pc ≠ .ending stop) (hrank : pc.rank < r.pc.rank) :
    Advances shard owner lease u call r := by
  refine h.acts hopen hstep hact ⟨rfl, rfl⟩ fun _ => ⟨not_wedged hf he, smaller_rank ?_ hrank⟩
  have waiting : ∀ r : Reader, (∀ call idle, r.pc ≠ .seeking call idle) →
      r.waiting = r.commands := by
    intro r hne
    unfold Reader.waiting
    split
    · exact absurd ‹_› (hne _ _)
    · rfl
  rw [waiting _ hpc, waiting _ hpc₀]

theorem Awaits.mem_waiting (h : Awaits u call r) (hc : Commanded u) : call ∈ r.waiting := by
  obtain ⟨hr, hlive, c, hget, hp, hg⟩ := h
  exact hc.waiting r call c hr hget hp hg hlive

theorem Awaits.answers {j : Nat} {idle : Bool} (h : Awaits u call r) (hord : Orderly shard u)
    (hopen : u.closed = false) (hpc : r.pc = .seeking j idle) :
    Advances shard owner lease u call r := by
  have hmem := h.mem_waiting hord.commanded
  have hwait : r.waiting = j :: r.commands := by simp [Reader.waiting, hpc]
  obtain ⟨c, hget, -, -⟩ := hord.commanded.sent r j h.reader (hwait ▸ List.mem_cons_self)
  have smaller : ∀ {u' r' outcome}, u'.calls = u.calls.set j { c with phase := .answered outcome } →
      r'.pc = (if idle then .head else .draining) → r'.commands = r.commands →
      Awaits u' call r' →
      ¬ Wedged shard u' r' ∧ Smaller (variant call u' r') (variant call u r) := by
    intro u' r' outcome hcs hpc' hcmds haw
    have hw : r'.waiting = r.commands := by cases idle <;> simp [Reader.waiting, hpc', hcmds]
    refine ⟨not_wedged (by cases idle <;> simp [hpc']) (by cases idle <;> simp [hpc']), ?_⟩
    have hne : j ≠ call := by
      rintro rfl
      obtain ⟨_, _, c', hget', hp', _⟩ := haw
      rw [hcs, Cells.get_set_self hget] at hget'
      obtain rfl := Option.some.inj hget'
      cases hp'
    refine .left _ _ ?_
    rw [hw, hwait, List.idxOf_cons_ne _ hne]
    exact Nat.lt_succ_self _
  cases hi : shard.getShardIterator (iteratorAt c.start) with
  | some p =>
    have hstep : u.readerStep owner shard lease r (.applySeek .iterator) = some (lease,
        { u.setCall j c (.answered (.moved (u.applied + 1))) with
          reader := some { r with
            pc := if idle then .head else .draining
            iterator := p
            tracker := u.trackers.length
            reading := { rewind := rewindTo c.start, unrecorded := true } }
          trackers := u.trackers ++ [{}]
          applied := u.applied + 1 }) := by
      simp [readerStep, applySeek, hpc, hget, applyShardSeek, hi]
    exact h.acts hopen hstep (by simp) ⟨rfl, rfl⟩ (smaller rfl rfl rfl)
  | none =>
    have hstep : u.readerStep owner shard lease r (.applySeek .fails) = some (lease,
        (u.setCall j c (.answered .failed)).goto r (if idle then .head else .draining)) := by
      simp [readerStep, applySeek, hpc, hget, applyShardSeek]
    exact h.acts hopen hstep (by simp) ⟨rfl, rfl⟩ (smaller rfl rfl rfl)

theorem Awaits.takes (h : Awaits u call r) (hord : Orderly shard u) (hopen : u.closed = false)
    (hpc : r.pc = .draining ∨ r.pc = .idle) : Advances shard owner lease u call r := by
  have hmem := h.mem_waiting hord.commanded
  have hwait : r.waiting = r.commands := by
    rcases hpc with hpc | hpc <;> simp [Reader.waiting, hpc]
  rw [hwait] at hmem
  obtain ⟨j, rest, hcmds⟩ := List.exists_cons_of_ne_nil (List.ne_nil_of_mem hmem)
  have hstep : ∃ idle, u.readerStep owner shard lease r .takeSeek = some (lease,
      { u with reader := some { r with pc := .seeking j idle, commands := rest } }) := by
    rcases hpc with hpc | hpc
    · exact ⟨false, by simp [readerStep, takeSeek, hpc, hcmds]⟩
    · exact ⟨true, by simp [readerStep, takeSeek, hpc, hcmds]⟩
  obtain ⟨idle, hstep⟩ := hstep
  refine h.acts hopen hstep (by simp) ⟨rfl, rfl⟩ fun _ => ⟨not_wedged (by simp) (by simp), ?_⟩
  refine smaller_rank (by rw [hwait, hcmds]; rfl) ?_
  rcases hpc with hpc | hpc <;> simp [Pc.rank, hpc]

theorem Hopeless.same_gates {d : Delivery} (h : Hopeless u' d) (hg : u'.gates = u.gates) :
    Hopeless u d := by
  cases h with
  | lost hp => exact .lost hp
  | behind hp hb =>
    refine .behind hp ?_
    rw [Behind, hg] at hb
    exact hb

theorem Stuck.same (h : Stuck u' t) (hd : u'.deliveries = u.deliveries)
    (hg : u'.gates = u.gates) : Stuck u t := by
  obtain ⟨d, hmem, ht, hopeless⟩ := h
  exact ⟨d, hd ▸ hmem, ht, hopeless.same_gates hg⟩

theorem Stuck.of_set {id : Nat} {d : Delivery} {phase : Phase} (h : Stuck u' t)
    (hget : u.deliveries[id]? = some d)
    (hds : u'.deliveries = u.deliveries.set id { d with phase := phase })
    (hg : u'.gates = u.gates) (hnew : Hopeless u { d with phase := phase } → Hopeless u d) :
    Stuck u t := by
  obtain ⟨d', hmem, ht, hopeless⟩ := h
  rcases Cells.mem_set (hds ▸ hmem) with rfl | hmem
  · exact ⟨d, List.mem_of_getElem? hget, ht, hnew (hopeless.same_gates hg)⟩
  · exact ⟨d', hmem, ht, hopeless.same_gates hg⟩

theorem left_set {id : Nat} {d : Delivery} {phase : Phase} (hget : u.deliveries[id]? = some d)
    (hds : u'.deliveries = u.deliveries.set id { d with phase := phase }) :
    u'.left + d.phase.left = u.left + phase.left := by
  unfold left
  rw [hds]
  exact Cells.sum_set hget

theorem left_le {id : Nat} {d : Delivery} {phase : Phase} (hget : u.deliveries[id]? = some d)
    (hds : u'.deliveries = u.deliveries.set id { d with phase := phase })
    (hle : phase.left ≤ d.phase.left) : u'.left ≤ u.left := by
  have hset := left_set hget hds
  omega

theorem left_lt {id : Nat} {d : Delivery} {phase : Phase} (hget : u.deliveries[id]? = some d)
    (hds : u'.deliveries = u.deliveries.set id { d with phase := phase })
    (hlt : phase.left < d.phase.left) : u'.left < u.left := by
  have hset := left_set hget hds
  omega

theorem Orderly.polls (hord : Orderly shard u) (hopen : u.closed = false) (hq : u.queue ≠ []) :
    ∃ u', u.poll = some u' ∧ u'.reader = u.reader ∧ u'.closed = false ∧ u'.gates = u.gates ∧
      u'.queue.length < u.queue.length ∧ u'.left ≤ u.left ∧ ∀ t, Stuck u' t → Stuck u t := by
  obtain ⟨stamped, rest, hqueue⟩ := List.exists_cons_of_ne_nil hq
  have hlt : rest.length < u.queue.length := by simp [hqueue]
  have other : (∀ id, stamped.item ≠ .delivery id) → u.poll = some { u with queue := rest } := by
    intro hitem
    unfold poll
    rw [hopen, hqueue]
    cases hi : stamped.item with
    | delivery id => exact absurd hi (hitem id)
    | aggregatedRecord | error => simp [hi]
  cases hitem : stamped.item with
  | aggregatedRecord | error =>
    exact ⟨_, other (by simp [hitem]), rfl, hopen, rfl, hlt, le_rfl,
      fun t ht => ht.same rfl rfl⟩
  | delivery id =>
    have hmem : stamped ∈ u.queue := hqueue ▸ List.mem_cons_self
    have hid : id ∈ u.waitingIds :=
      List.mem_filterMap.mpr ⟨stamped, hmem, by simp [Stamped.id, hitem]⟩
    obtain ⟨d, hd, hp⟩ := (hord.channel.mem id).mp hid
    obtain ⟨d₀, hd₀, hstamp⟩ := hord.generations.queued stamped hmem id hitem
    obtain rfl := Option.some.inj (hd.symm.trans hd₀)
    obtain ⟨phase, hphase, hcase⟩ : ∃ phase,
        (if stamped.current u.gates then Phase.held else .discarded) = phase ∧
          (phase = .held ∨ phase = .discarded ∧ Behind u d.gate d.epoch) := by
      by_cases hcur : stamped.current u.gates = true
      · exact ⟨.held, if_pos hcur, .inl rfl⟩
      · refine ⟨.discarded, if_neg hcur, .inr ⟨rfl, ?_⟩⟩
        refine (hord.generations.delivered d (List.mem_of_getElem? hd)).behind ?_
        simpa [Stamped.current, hstamp] using hcur
    refine ⟨{ u.setPhase id d phase with queue := rest }, ?_, rfl, hopen, rfl, hlt, ?_, ?_⟩
    · simp [poll, hopen, hqueue, hitem, hd, hp, hphase]
    · refine left_le hd rfl ?_
      rcases hcase with rfl | ⟨rfl, _⟩ <;> simp [Phase.left, hp]
    · intro t ht
      refine ht.of_set hd rfl rfl fun hnew => .behind (.inl hp) ?_
      rcases hcase with rfl | ⟨rfl, hb⟩
      · cases hnew with
        | lost hp => simp at hp
        | behind _ hb => exact hb
      · exact hb

theorem Awaits.polls (h : Awaits u call r) (hord : Orderly shard u) (hopen : u.closed = false)
    (hw : ¬ Wedged shard u r) (hq : u.queue ≠ []) : Advances shard owner lease u call r := by
  obtain ⟨u', hpoll, hr, hopen', hgates, hlt, hleft, hstuck⟩ := hord.polls hopen hq
  refine h.advances (a := .poll) rfl (by simp [Subscription.step, hpoll]; rfl) hopen' ?_
  intro r' haw
  obtain rfl := Option.some.inj (h.reader.symm.trans (hr.symm.trans haw.reader))
  refine ⟨fun hw' => hw ?_, smaller_queue ?_ hlt⟩
  · cases hw' with
    | ending hpc h => exact .ending hpc (hstuck _ h)
    | forwarding hpc hrec h =>
      refine .forwarding hpc hrec (h.imp (hstuck _) (And.imp_left fun hb => ?_))
      rw [Behind, hgates] at hb
      exact hb
  · unfold todo
    split
    · exact le_rfl
    · exact hleft
    · exact le_rfl

theorem room_or_queue (u : Subscription) : u.room = true ∨ u.queue ≠ [] := by
  cases hq : u.queue with
  | nil => exact .inl (by simp [room, hq, channelCapacity])
  | cons => exact .inr (by simp)

theorem Awaits.opens {again : Bool} (h : Awaits u call r) (hopen : u.closed = false)
    (hpc : r.pc = .opening again) : Advances shard owner lease u call r := by
  have fetches : ∀ start recorded, u.readRow lease r true =
      some (u.goto r (.fetching start recorded again)) → Advances shard owner lease u call r := by
    intro start recorded hread
    have hstep : u.readerStep owner shard lease r (.readRow true) =
        some (lease, u.goto r (.fetching start recorded again)) := by simp [readerStep, hread]
    exact h.goes hopen hstep (by simp) (by simp) (by simp [hpc]) (by simp) (by simp)
      (by simp [Pc.rank, hpc])
  cases hck : lease.checkpoint with
  | none => exact fetches _ _ (by simp [readRow, hpc, hck]; rfl)
  | some checkpoint =>
    cases checkpoint with
    | sequence c => exact fetches _ _ (by simp [readRow, hpc, hck]; rfl)
    | shardEnd =>
      have hstep : u.readerStep owner shard lease r (.readRow true) =
          some (lease, u.exit r none) := by simp [readerStep, readRow, hpc, hck]
      exact h.acts hopen hstep (by simp) ⟨rfl, rfl⟩ fun haw =>
        absurd haw.live (by simp [Reader.exited])

theorem Awaits.fetches {start : ShardStart} {recorded again : Bool} (h : Awaits u call r)
    (hord : Orderly shard u) (hopen : u.closed = false) (hw : ¬ Wedged shard u r)
    (hpc : r.pc = .fetching start recorded again) : Advances shard owner lease u call r := by
  have hwait : r.waiting = r.commands := by simp [Reader.waiting, hpc]
  cases hi : shard.getShardIterator (iteratorAt start) with
  | some p =>
    have hstep : u.readerStep owner shard lease r (.openIterator .iterator) = some (lease,
        { u with reader := some { r with
            pc := .head
            iterator := p
            reading := { rewind := rewindTo start, unrecorded := !recorded } } }) := by
      simp [readerStep, openIterator, hpc, hi]
    exact h.acts hopen hstep (by simp) ⟨rfl, rfl⟩ fun _ =>
      ⟨not_wedged (by simp) (by simp), smaller_rank hwait.symm (by simp [Pc.rank, hpc])⟩
  | none =>
    cases again with
    | true =>
      have hstep : u.readerStep owner shard lease r (.openIterator .fails) =
          some (lease, u.goto r .head) := by simp [readerStep, openIterator, fetchFailed, hpc]
      exact h.goes hopen hstep (by simp) (by simp) (by simp [hpc]) (by simp) (by simp)
        (by simp [Pc.rank, hpc])
    | false =>
      rcases room_or_queue u with hroom | hqueue
      · have hstep : u.readerStep owner shard lease r (.openIterator .fails) =
            some (lease, (u.push ⟨none, .error⟩).exit r r.reading.rewind) := by
          simp [readerStep, openIterator, fetchFailed, hpc, hopen, hroom]
        exact h.acts hopen hstep (by simp) ⟨rfl, rfl⟩ fun haw =>
          absurd haw.live (by simp [Reader.exited])
      · exact h.polls hord hopen hw hqueue

theorem Awaits.loops (h : Awaits u call r) (hord : Orderly shard u) (hopen : u.closed = false)
    (hpc : r.pc = .head ∨ r.pc = .renewing ∨ r.pc = .stamping ∨ ∃ epoch, r.pc = .reading epoch) :
    Advances shard owner lease u call r := by
  rcases hpc with hpc | hpc | hpc | ⟨epoch, hpc⟩
  · have hstep : u.readerStep owner shard lease r .checkClosed =
        some (lease, u.goto r .draining) := by simp [readerStep, checkClosed, hpc, hopen]
    exact h.goes hopen hstep (by simp) (by simp) (by simp [hpc]) (by simp) (by simp)
      (by simp [Pc.rank, hpc])
  · have hstep : u.readerStep owner shard lease r .notDue =
        some (lease, u.goto r .stamping) := by simp [readerStep, notDue, hpc]
    exact h.goes hopen hstep (by simp) (by simp) (by simp [hpc]) (by simp) (by simp)
      (by simp [Pc.rank, hpc])
  · have hlt := (hord.sound.seated r h.reader).2
    have hstep : u.readerStep owner shard lease r .stamp =
        some (lease, u.goto r (.reading u.gates[r.gate])) := by
      simp [readerStep, stamp, hpc, List.getElem?_eq_getElem hlt]
    exact h.goes hopen hstep (by simp) (by simp) (by simp [hpc]) (by simp) (by simp)
      (by simp [Pc.rank, hpc])
  · have hstep : u.readerStep owner shard lease r (.readFails .throttled) =
        some (lease, u.goto r .head) := by simp [readerStep, readFails, hpc]
    exact h.goes hopen hstep (by simp) (by simp) (by simp [hpc]) (by simp) (by simp)
      (by simp [Pc.rank, hpc])

theorem Awaits.records {epoch next stop : Nat} {last idle : Bool} (h : Awaits u call r)
    (hopen : u.closed = false) (hpc : r.pc = .forwarding epoch next stop last idle)
    (hlt : next < stop) (hun : r.reading.unrecorded = true) :
    Advances shard owner lease u call r := by
  by_cases hrecord : last = false ∧ lease.owner = some owner
  · obtain ⟨rfl, hown⟩ := hrecord
    have hstep : u.readerStep owner shard lease r (.recordOpening true) =
        some ({ lease with openedAt := some next }, { u with reader := some { r with
          reading := { r.reading.noteFirst next with unrecorded := false } } }) := by
      simp [readerStep, recordOpening, hpc, hlt, hun, MemoryLease.recordOpenedAt, hown]
    refine h.acts hopen hstep (by simp) ⟨rfl, rfl⟩ fun _ =>
      ⟨not_wedged (by simp [hpc]) (by simp [hpc]), smaller_todo rfl rfl ?_⟩
    simp [todo, hpc, hun]
  · -- at the last batch, or without the lease, the store does not record it
    have hstep : ∃ ok, u.readerStep owner shard lease r (.recordOpening ok) = some (lease,
        u.exit { r with reading := r.reading.noteFirst next }
          (r.reading.noteFirst next).rewind) := by
      by_cases hown : lease.owner = some owner
      · exact ⟨false, by simp [readerStep, recordOpening, hpc, hlt, hun]⟩
      · exact ⟨true, by
          simp [readerStep, recordOpening, hpc, hlt, hun, MemoryLease.recordOpenedAt, hown]⟩
    obtain ⟨ok, hstep⟩ := hstep
    exact h.acts hopen hstep (by simp) ⟨rfl, rfl⟩ fun haw =>
      absurd haw.live (by simp [Reader.exited])

theorem Awaits.hands {epoch next stop : Nat} {last idle : Bool} (h : Awaits u call r)
    (hord : Orderly shard u) (hopen : u.closed = false) (hw : ¬ Wedged shard u r)
    (hpc : r.pc = .forwarding epoch next stop last idle) (hlt : next < stop)
    (hun : r.reading.unrecorded = false) : Advances shard owner lease u call r := by
  have hlen := (hord.inLog r epoch next stop last idle h.reader hpc).2
  obtain ⟨record, hlog⟩ : ∃ record, shard.log[next]? = some record :=
    ⟨_, List.getElem?_eq_getElem (hlt.trans_le hlen)⟩
  obtain ⟨tracker, htr⟩ : ∃ tracker, u.trackers[r.tracker]? = some tracker :=
    ⟨_, List.getElem?_eq_getElem (hord.sound.seated r h.reader).1⟩
  have hwait : r.waiting = r.commands := by simp [Reader.waiting, hpc]
  have smaller : ∀ {u' : Subscription}, Smaller
      (variant call u' { r with
        reading := r.reading.noteFirst next, pc := .forwarding epoch (next + 1) stop last idle })
      (variant call u r) := by
    intro u'
    refine smaller_todo hwait.symm (by simp [Pc.rank, hpc]) ?_
    simp only [todo, hpc, Reading.noteFirst]
    omega
  rcases room_or_queue u with hroom | hqueue
  · cases hagg : record.aggregated with
    | true =>
      have hstep : u.readerStep owner shard lease r .handOut = some (lease,
          { (u.push ⟨some (epoch, r.gate), .aggregatedRecord⟩).goto
              { r with reading := r.reading.noteFirst next }
              (.forwarding epoch (next + 1) stop last idle) with
            refused := u.refused ++ [next] }) := by
        simp [readerStep, handOut, hpc, hlt, hun, hlog, htr, hagg, hopen, hroom]
      refine h.acts hopen hstep (by simp) ⟨rfl, rfl⟩ fun _ => ⟨fun hw' => hw ?_, smaller⟩
      cases hw' with
      | ending hpc' => cases hpc'
      | forwarding hpc' _ hor =>
        obtain ⟨rfl, rfl, rfl, rfl, _⟩ := Pc.forwarding.inj hpc'
        refine .forwarding hpc (.inr hun) (hor.imp (·.same rfl rfl) ?_)
        rintro ⟨hb, n, rec', hn, hrest⟩
        exact ⟨hb, n, rec', Nat.le_of_succ_le hn, hrest⟩
    | false =>
      have hstep : u.readerStep owner shard lease r .handOut = some (lease,
          { (u.push ⟨some (epoch, r.gate), .delivery u.deliveries.length⟩).goto
              { r with reading := r.reading.noteFirst next }
              (.forwarding epoch (next + 1) stop last idle) with
            trackers := u.trackers.set r.tracker (tracker.deliver next)
            deliveries := u.deliveries ++ [{
              sequence := next
              tracker := r.tracker
              index := tracker.nextIndex
              gate := r.gate
              epoch := epoch
              via := u.applied
              phase := .queued }] }) := by
        simp [readerStep, handOut, hpc, hlt, hun, hlog, htr, hagg, hopen, hroom]
      refine h.acts hopen hstep (by simp) ⟨rfl, rfl⟩ fun _ => ⟨fun hw' => hw ?_, smaller⟩
      cases hw' with
      | ending hpc' => cases hpc'
      | forwarding hpc' _ hor =>
        obtain ⟨rfl, rfl, rfl, rfl, _⟩ := Pc.forwarding.inj hpc'
        refine .forwarding hpc (.inr hun) ?_
        rcases hor with ⟨d, hmem, ht, hopeless⟩ | ⟨hb, n, rec', hn, hrest⟩
        · rcases Cells.mem_push hmem with hmem | rfl
          · exact .inl ⟨d, hmem, ht, hopeless.same_gates rfl⟩
          · cases hopeless with
            | lost hp => simp at hp
            | behind _ hb => exact .inr ⟨hb, next, record, le_rfl, hlt, hlog, hagg⟩
        · exact .inr ⟨hb, n, rec', Nat.le_of_succ_le hn, hrest⟩
  · exact h.polls hord hopen hw hqueue

theorem Awaits.forwards {epoch next stop : Nat} {last idle : Bool} (h : Awaits u call r)
    (hord : Orderly shard u) (hopen : u.closed = false) (hw : ¬ Wedged shard u r)
    (hpc : r.pc = .forwarding epoch next stop last idle) : Advances shard owner lease u call r := by
  rcases (hord.inLog r epoch next stop last idle h.reader hpc).1.lt_or_eq with hlt | rfl
  · cases hun : r.reading.unrecorded with
    | true => exact h.records hopen hpc hlt hun
    | false => exact h.hands hord hopen hw hpc hlt hun
  · have hwait : r.waiting = r.commands := by simp [Reader.waiting, hpc]
    cases last with
    | true =>
      have hstep : u.readerStep owner shard lease r .batchDone =
          some (lease, u.goto r (.ending next)) := by simp [readerStep, batchDone, hpc]
      refine h.acts hopen hstep (by simp) ⟨rfl, rfl⟩ fun _ => ⟨fun hw' => hw ?_,
        smaller_rank hwait.symm (by simp [Pc.rank, hpc])⟩
      cases hw' with
      | ending _ hstuck => exact .forwarding hpc (.inl rfl) (.inl (hstuck.same rfl rfl))
      | forwarding hpc' => cases hpc'
    | false =>
      have hstep : u.readerStep owner shard lease r .batchDone =
          some (lease, { u with reader := some { r with
            pc := if idle then .idle else .head
            iterator := next } }) := by simp [readerStep, batchDone, hpc]
      refine h.acts hopen hstep (by simp) ⟨rfl, rfl⟩ fun _ => ⟨?_, smaller_rank ?_ ?_⟩
      · exact not_wedged (by cases idle <;> simp) (by cases idle <;> simp)
      · rw [hwait]
        cases idle <;> rfl
      · cases idle <;> simp [Pc.rank, hpc]

theorem Orderly.drained {w : Watermark} (hord : Orderly shard u) (hw : u.trackers[t]? = some w)
    (hacked : ∀ d ∈ u.deliveries, d.tracker = t → d.phase.acked = true) : w.drained = true := by
  cases hp : w.pending with
  | nil => simp [Watermark.drained, hp]
  | cons e es =>
    have hfront := hord.outstanding.front t w e es hw hp
    have he : e ∈ w.pending := hp ▸ List.mem_cons_self
    obtain ⟨d, hd, rfl, hix, _⟩ := hord.sound.linked.entry t w hw e he
    have hdone := hord.outstanding.told d hd (hacked d hd rfl) w hw e he hix.symm
    exact absurd (hfront.symm.trans hdone) (by simp)

theorem Awaits.settles {id : Nat} {d : Delivery} {phase : Phase} {stop : Nat} (h : Awaits u call r)
    (hw : ¬ Wedged shard u r) (hpc : r.pc = .ending stop) (ha : proceeds a = true)
    (hstep : u.step owner shard lease a = some (lease', u')) (hopen : u'.closed = false)
    (hr : u'.reader = u.reader) (hd : u.deliveries[id]? = some d)
    (hds : u'.deliveries = u.deliveries.set id { d with phase := phase })
    (hg : u'.gates = u.gates) (hnew : ¬ Hopeless u { d with phase := phase })
    (hlt : phase.left < d.phase.left) : Advances shard owner lease u call r := by
  refine h.advances ha hstep hopen ?_
  intro r' haw
  obtain rfl := Option.some.inj (h.reader.symm.trans (hr.symm.trans haw.reader))
  refine ⟨fun hw' => hw ?_, smaller_todo rfl rfl ?_⟩
  · cases hw' with
    | ending hpc hstuck => exact .ending hpc (hstuck.of_set hd hds hg fun h => absurd h hnew)
    | forwarding hpc' => exact absurd (hpc.symm.trans hpc') (by simp)
  · simp only [todo, hpc]
    exact left_lt hd hds hlt

theorem Awaits.ends {stop : Nat} (h : Awaits u call r) (hord : Orderly shard u)
    (hopen : u.closed = false) (hw : ¬ Wedged shard u r) (hpc : r.pc = .ending stop) :
    Advances shard owner lease u call r := by
  obtain ⟨tracker, htr⟩ : ∃ tracker, u.trackers[r.tracker]? = some tracker :=
    ⟨_, List.getElem?_eq_getElem (hord.sound.seated r h.reader).1⟩
  by_cases hqueue : u.queue = []
  · by_cases hall : ∀ d ∈ u.deliveries, d.tracker = r.tracker → d.phase.acked = true
    · have hdrained := hord.drained htr hall
      have hstep : u.readerStep owner shard lease r (.markEnd true) =
          some ((lease.saveCheckpoint owner .shardEnd).2, u.goto r (.releasing none)) := by
        simp [readerStep, markEnd, hpc, htr, hdrained]
      exact h.goes hopen hstep (by simp) (by simp) (by simp [hpc]) (by simp) (by simp)
        (by simp [Pc.rank, hpc])
    · obtain ⟨d, hmem, ht, hacked⟩ : ∃ d ∈ u.deliveries, d.tracker = r.tracker ∧
          d.phase.acked = false := by simpa using hall
      obtain ⟨id, hid⟩ := List.mem_iff_getElem?.mp hmem
      have hhope : ¬ Hopeless u d := fun hd => hw (.ending hpc ⟨d, hmem, ht, hd⟩)
      cases hp : d.phase with
      | queued =>
        have hwaits := (hord.channel.mem id).mpr ⟨d, hid, hp⟩
        rw [waitingIds, hqueue] at hwaits
        cases hwaits
      | held =>
        have hcur : u.gates[d.gate]? = some d.epoch := by
          by_contra hne
          exact hhope (.behind (.inr hp) ((hord.generations.delivered d hmem).behind hne))
        have hstep : u.step owner shard lease (.ack id) =
            some (lease, u.setPhase id d .checked) := by
          simp [Subscription.step, ack, hid, hp, hcur]
        exact h.settles hw hpc rfl hstep hopen rfl hid rfl rfl (by rintro (hp | hp) <;> simp at hp)
          (by simp [Phase.left, hp])
      | checked =>
        have hstep : u.step owner shard lease (.settle id) = some (lease,
            { u.setPhase id d (.told (tracker.settle d.index).1) with
              trackers := u.trackers.set d.tracker (tracker.settle d.index).2 }) := by
          simp [Subscription.step, settle, hid, hp, ht, htr]
        refine h.settles hw hpc rfl hstep hopen rfl hid rfl rfl ?_ ?_
        · rintro (hp | hp) <;> cases hadv : (tracker.settle d.index).1 <;>
            simp [hadv, Phase.told] at hp
        · cases hadv : (tracker.settle d.index).1 <;> simp [Phase.told, Phase.left, hp]
      | writing | settled => simp [hp, Phase.acked] at hacked
      | stale | unsettled | discarded => exact absurd (.lost (by simp [hp])) hhope
  · exact h.polls hord hopen hw hqueue

/-- The progress lemma, by where the reader stands. -/
theorem Awaits.progress (h : Awaits u call r) (hord : Orderly shard u) (hopen : u.closed = false)
    (hw : ¬ Wedged shard u r) (owner : Owner) (lease : MemoryLease Owner) :
    Advances shard owner lease u call r := by
  cases hpc : r.pc with
  | opening again => exact h.opens hopen hpc
  | fetching => exact h.fetches hord hopen hw hpc
  | head => exact h.loops hord hopen (.inl hpc)
  | draining => exact h.takes hord hopen (.inl hpc)
  | seeking => exact h.answers hord hopen hpc
  | renewing => exact h.loops hord hopen (.inr (.inl hpc))
  | stamping => exact h.loops hord hopen (.inr (.inr (.inl hpc)))
  | reading => exact h.loops hord hopen (.inr (.inr (.inr ⟨_, hpc⟩)))
  | forwarding => exact h.forwards hord hopen hw hpc
  | idle => exact h.takes hord hopen (.inr hpc)
  | ending => exact h.ends hord hopen hw hpc
  | releasing rewind =>
    have hstep : u.readerStep owner shard lease r .release =
        some (lease.release owner, u.exit r rewind) := by simp [readerStep, release, hpc]
    exact h.acts hopen hstep (by simp) ⟨rfl, rfl⟩ fun haw =>
      absurd haw.live (by simp [Reader.exited])
  | exited => exact absurd h.live (by simp [Reader.exited, hpc])

end Subscription

namespace System

open Subscription

variable {Owner : Type} [DecidableEq Owner] {owner : Nat → Owner} {s s' : System Owner} {act : Act}
variable {x call : Nat} {r : Reader}

/-- Only `x` goes on: its reader, its consumer, its settlements and the returns of its seeks. -/
def continues (x : Nat) (_ : System Owner) : Act → Bool
  | .sub y a => y == x && proceeds a
  | _ => false

/-- The subscription can go on so that the seek returns. -/
def Returns (owner : Nat → Owner) (x call : Nat) (s : System Owner) : Prop :=
  ∃ s' : System Owner, Run (step owner) (fun s act => s.continues x act = true) s s' ∧
    ∃ c outcome, (s'.subs x).calls[call]? = some c ∧ c.phase = .returned outcome

theorem sub_step {a : SubAct} {lease' : MemoryLease Owner} {u' : Subscription}
    (h : (s.subs x).step (owner x) s.shard s.lease a = some (lease', u')) :
    s.step owner (.sub x a) = some
      { s with lease := lease', subs := Function.update s.subs x u' } := by
  simp [step, h]

theorem orderly_run {shard : Shard} {lease : MemoryLease Owner}
    (h : Run (step owner) (fun _ _ => True) (fresh shard lease) s) (x : Nat) :
    Orderly s.shard (s.subs x) := by
  refine h.invariant (I := fun s => ∀ x, Orderly s.shard (s.subs x)) ?_ (fun _ => .init) x
  intro s act s' hs _ hstep y
  have hg := (step_cases hstep).grows
  rcases (step_cases hstep).at y with he | ⟨a, rfl, ha⟩
  · exact he ▸ (hs y).grows hg
  · exact ((hs y).step ha).grows hg

/-- What is left to do for the seek. -/
def remaining (x call : Nat) (s : System Owner) : Nat × Nat × Nat × Nat :=
  match (s.subs x).reader with
  | some r => variant call (s.subs x) r
  | none => (0, 0, 0, 0)

theorem returns_of_not_wedged (hord : Orderly s.shard (s.subs x))
    (hopen : (s.subs x).closed = false) (haw : Awaits (s.subs x) call r)
    (hw : ¬ Wedged s.shard (s.subs x) r) : s.Returns owner x call := by
  have hreach : ∃ t, Run (step owner) (fun s act => s.continues x act = true) s t ∧
      Answerable (t.subs x) call := by
    refine Run.reaches smaller_wf (m := remaining x call)
      (I := fun s => Orderly s.shard (s.subs x) ∧ (s.subs x).closed = false ∧
        (Answerable (s.subs x) call ∨
          ∃ r, Awaits (s.subs x) call r ∧ ¬ Wedged s.shard (s.subs x) r))
      ?_ ⟨hord, hopen, .inr ⟨r, haw, hw⟩⟩
    rintro s ⟨hord, hopen, hgoal | ⟨r, haw, hw⟩⟩
    · exact .inl hgoal
    · obtain ⟨a, lease', u', ha, hstep, hopen', hnext⟩ :=
        haw.progress hord hopen hw (owner x) s.lease
      refine .inr ⟨.sub x a, _, by simp [continues, ha], sub_step hstep, ?_, ?_⟩
      · simp only [Function.update_self]
        refine ⟨hord.step (Subscription.step_cases hstep), hopen', hnext.imp_right ?_⟩
        rintro ⟨r', haw', hw', _⟩
        exact ⟨r', haw', hw'⟩
      · simp only [Function.update_self]
        refine hnext.imp_right ?_
        rintro ⟨r', haw', _, hs⟩
        simpa [remaining, haw.reader, haw'.reader] using hs
  obtain ⟨t, hrun, hgoal⟩ := hreach
  obtain ⟨u', c, outcome, hstep, hc, hp⟩ := hgoal.returns (owner x) t.shard t.lease
  refine ⟨_, .tail hrun ?_ (sub_step hstep), c, outcome, ?_, hp⟩
  · simp [continues, proceeds]
  · simpa using hc

theorem not_returns_of_wedged (hord : Orderly s.shard (s.subs x))
    (hopen : (s.subs x).closed = false) (haw : Awaits (s.subs x) call r)
    (hw : Wedged s.shard (s.subs x) r) : ¬ s.Returns owner x call := by
  rintro ⟨s', hrun, c, outcome, hc, hp⟩
  have hinv := hrun.invariant (I := fun s => Orderly s.shard (s.subs x) ∧
      (s.subs x).closed = false ∧ ∃ r, Awaits (s.subs x) call r ∧ Wedged s.shard (s.subs x) r)
    ?_ ⟨hord, hopen, r, haw, hw⟩
  · obtain ⟨_, _, r', ⟨_, _, c', hc', hp', _⟩, _⟩ := hinv
    obtain rfl := Option.some.inj (hc.symm.trans hc')
    exact absurd (hp.symm.trans hp') (by simp)
  · rintro s act s' ⟨hord, hopen, r, haw, hw⟩ hok hstep
    cases step_cases hstep with
    | service _ hact =>
      cases act with
      | sub y a => exact absurd rfl (hact y a)
      | _ => cases hok
    | @sub y a lease' u' hs =>
      simp only [continues, Bool.and_eq_true, beq_iff_eq] at hok
      obtain ⟨rfl, ha⟩ := hok
      simp only [Function.update_self]
      obtain ⟨r', haw', hopen', hw'⟩ := hw.awaits haw hord hopen ha hs
      exact ⟨hord.step hs, hopen', r', haw', hw'⟩

/-- A seek that was sent to a live reader can return if and only if the reader is not wedged. -/
theorem seek_returns_iff {shard : Shard} {lease : MemoryLease Owner} {c : SeekCall}
    (hrun : Run (step owner) (fun _ _ => True) (fresh shard lease) s)
    (hopen : (s.subs x).closed = false) (hr : (s.subs x).reader = some r)
    (hlive : r.exited = false) (hc : (s.subs x).calls[call]? = some c) (hp : c.phase = .sent)
    (hg : c.gate = r.gate) : s.Returns owner x call ↔ ¬ Wedged s.shard (s.subs x) r := by
  have hord := orderly_run hrun x
  have haw : Awaits (s.subs x) call r := ⟨hr, hlive, c, hc, hp, hg⟩
  exact ⟨fun h hw => not_returns_of_wedged hord hopen haw hw h,
    returns_of_not_wedged hord hopen haw⟩

/-- The last record of a closed shard is handed out; then a seek bumps the gate and is sent. -/
def seekAtEnd : List Act :=
  opening 0 .opens 0 ++ [.append [1], .close] ++ reading 0 1 true ++
    [.sub 0 (.reader (.recordOpening true)), .sub 0 (.reader .handOut), .sub 0 .poll,
      .sub 0 (.reader .batchDone), .sub 0 (.find (.stream .horizon)), .sub 0 (.bump 0),
      .sub 0 (.send 0)]

theorem seek_never_returns : ∃ (s : System Nat) (r : Reader) (c : SeekCall),
    exec (step id) (init {}) seekAtEnd = some s ∧ (s.subs 0).closed = false ∧
      (s.subs 0).reader = some r ∧ r.exited = false ∧ (s.subs 0).calls[0]? = some c ∧
      c.phase = .sent ∧ c.gate = r.gate ∧ ¬ s.Returns id 0 0 := by
  have hrun : (check (step id) (fun _ _ => true) (init {}) seekAtEnd).bind (fun s =>
      (s.subs 0).reader.map fun r => ((s.subs 0).closed, r.pc, r.gate, r.tracker)) =
      some (false, .ending 1, 0, 0) := by decide
  have hsub : (check (step id) (fun _ _ => true) (init {}) seekAtEnd).map (fun s =>
      ((s.subs 0).gates, (s.subs 0).calls[0]?)) =
      some ([1], some ⟨0, .stream .horizon, 1, .sent⟩) := by decide
  have hdel : (check (step id) (fun _ _ => true) (init {}) seekAtEnd).map (fun s =>
      (s.subs 0).deliveries) = some [⟨0, 0, 0, 0, 0, 0, .held⟩] := by decide
  obtain ⟨s, hs, hrun⟩ := Option.bind_eq_some_iff.mp hrun
  obtain ⟨r, hr, hrun⟩ := Option.map_eq_some_iff.mp hrun
  simp only [hs, Option.map_some, Option.some.injEq] at hsub hdel
  obtain ⟨hopen, hrun⟩ := Prod.mk.inj hrun
  obtain ⟨hpc, hrun⟩ := Prod.mk.inj hrun
  obtain ⟨hgate, htracker⟩ := Prod.mk.inj hrun
  obtain ⟨hgates, hcall⟩ := Prod.mk.inj hsub
  have hlive : r.exited = false := by simp [Reader.exited, hpc]
  have hpre := (Run.of_check hs).mono fun (_ : System Nat) (_ : Act) _ => trivial
  refine ⟨s, r, _, exec_of_check hs, hopen, hr, hlive, hcall, rfl, hgate.symm, ?_⟩
  refine not_returns_of_wedged (orderly_run hpre 0) hopen ⟨hr, hlive, _, hcall, rfl, hgate.symm⟩
    (.ending hpc ⟨_, hdel ▸ List.mem_cons_self, htracker.symm, .behind (.inr rfl) ⟨1, ?_, ?_⟩⟩)
  · rw [hgates]
    rfl
  · exact Nat.one_pos

/-- The gate is bumped before the last batch is stamped, so its record can still settle. -/
def seekBeforeEnd : List Act :=
  opening 0 .opens 0 ++ [.append [1], .close, .sub 0 (.reader .checkClosed),
    .sub 0 (.reader .drained), .sub 0 (.find (.stream .horizon)), .sub 0 (.bump 0),
    .sub 0 (.send 0), .sub 0 (.reader .notDue), .sub 0 (.reader .stamp),
    .sub 0 (.reader (.getRecords 1 true)), .sub 0 (.reader (.recordOpening true)),
    .sub 0 (.reader .handOut), .sub 0 .poll, .sub 0 (.reader .batchDone)]

theorem seek_returns_before_end : ∃ s : System Nat,
    exec (step id) (init {}) seekBeforeEnd = some s ∧ s.Returns id 0 0 := by
  have hrun : (check (step id) (fun _ _ => true) (init {}) seekBeforeEnd).bind (fun s =>
      (s.subs 0).reader.map fun r => ((s.subs 0).closed, r.pc, r.gate, r.tracker)) =
      some (false, .ending 1, 0, 0) := by decide
  have hsub : (check (step id) (fun _ _ => true) (init {}) seekBeforeEnd).map (fun s =>
      ((s.subs 0).gates, (s.subs 0).calls[0]?)) =
      some ([1], some ⟨0, .stream .horizon, 0, .sent⟩) := by decide
  have hdel : (check (step id) (fun _ _ => true) (init {}) seekBeforeEnd).map (fun s =>
      (s.subs 0).deliveries) = some [⟨0, 0, 0, 0, 1, 0, .held⟩] := by decide
  obtain ⟨s, hs, hrun⟩ := Option.bind_eq_some_iff.mp hrun
  obtain ⟨r, hr, hrun⟩ := Option.map_eq_some_iff.mp hrun
  simp only [hs, Option.map_some, Option.some.injEq] at hsub hdel
  obtain ⟨hopen, hrun⟩ := Prod.mk.inj hrun
  obtain ⟨hpc, hrun⟩ := Prod.mk.inj hrun
  obtain ⟨hgate, htracker⟩ := Prod.mk.inj hrun
  obtain ⟨hgates, hcall⟩ := Prod.mk.inj hsub
  have hpre := (Run.of_check hs).mono fun (_ : System Nat) (_ : Act) _ => trivial
  refine ⟨s, exec_of_check hs, (seek_returns_iff hpre hopen hr (by simp [Reader.exited, hpc]) hcall
    rfl hgate.symm).mpr ?_⟩
  rintro (⟨_, d, hd, _, hopeless⟩ | ⟨hpc', _⟩)
  · rw [hdel] at hd
    obtain rfl := List.mem_singleton.mp hd
    cases hopeless with
    | lost hp => simp at hp
    | behind _ hb =>
      obtain ⟨e, he, hlt⟩ := hb
      rw [hgates] at he
      obtain rfl : 1 = e := by simpa using he
      exact absurd hlt (lt_irrefl _)
  · exact absurd (hpc.symm.trans hpc') (by simp)

end System

end RuststreamKinesis
