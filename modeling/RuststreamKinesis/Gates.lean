import RuststreamKinesis.System

/-!
# Gates and generations

Every reader has a gate, every delivery the gate and the epoch its batch was stamped with. Gates
only go up, so an epoch that is behind its gate stays behind: the delivery will neither be handed
to the consumer nor settle.
-/

namespace RuststreamKinesis

set_option autoImplicit false

/-- The epoch of the batch a reader is about to ask for or is forwarding. -/
def Pc.epoch : Pc → Option Nat
  | .reading epoch => some epoch
  | .forwarding epoch _ _ _ _ => some epoch
  | _ => none

namespace Subscription

variable {Owner : Type} [DecidableEq Owner]

/-- The gate was bumped after the epoch was loaded. -/
def Behind (u : Subscription) (gate epoch : Nat) : Prop :=
  ∃ e, u.gates[gate]? = some e ∧ epoch < e

/-- The epoch was loaded from the gate. -/
def Stamps (u : Subscription) (gate epoch : Nat) : Prop :=
  ∃ e, u.gates[gate]? = some e ∧ epoch ≤ e

/-- How a call moves on. -/
inductive Turn (a : SubAct) (call : Nat) (old : CallPhase) : CallPhase → Prop where
  | sent (h : old = .bumped) : Turn a call old .sent
  | gone : Turn a call old (.returned .shutDown)
  | failed : Turn a call old (.answered .failed)
  | returned {outcome : Outcome} (h : old = .answered outcome) (ha : a = .answer call) :
      Turn a call old (.returned outcome)

/-- What a step does to the gates and the calls. -/
inductive Gated (u u' : Subscription) (a : SubAct) : Prop where
  | quiet (hg : u'.gates = u.gates) (hc : u'.calls = u.calls)
  | fresh (hg : u'.gates = u.gates ++ [0]) (hc : u'.calls = u.calls)
  | found {c : SeekCall} (hg : u'.gates = u.gates) (hc : u'.calls = u.calls ++ [c])
      (hbefore : c.before = 0) (hp : c.phase = .found ∧ u.handle = some c.gate ∨
        c.phase = .returned .noReader ∧ u.handle = none ∧ c.gate = u.gates.length)
      (ha : a = .find c.start)
  | bumped {call epoch : Nat} {c : SeekCall} (hget : u.calls[call]? = some c)
      (hp : c.phase = .found) (he : u.gates[c.gate]? = some epoch)
      (hg : u'.gates = u.gates.set c.gate (epoch + 1))
      (hc : u'.calls = u.calls.set call
        { c with before := u.deliveries.length, phase := .bumped })
      (ha : a = .bump call)
  | applied {r : Reader} {call : Nat} {idle : Bool} {c : SeekCall} (hr : u.reader = some r)
      (hpc : r.pc = .seeking call idle) (hget : u.calls[call]? = some c) (hg : u'.gates = u.gates)
      (hc : u'.calls = u.calls.set call { c with phase := .answered (.moved (u.applied + 1)) })
      (ha : u'.applied = u.applied + 1)
  | turned {call : Nat} {c : SeekCall} {phase : CallPhase} (hget : u.calls[call]? = some c)
      (hg : u'.gates = u.gates) (hc : u'.calls = u.calls.set call { c with phase := phase })
      (hp : Turn a call c.phase phase)

variable {u u' : Subscription} {owner : Owner} {shard : Shard} {lease lease' : MemoryLease Owner}
variable {r r' : Reader} {act : ReaderAct} {a : SubAct} {gate epoch : Nat}

theorem ReaderStep.gated (hr : u.reader = some r)
    (h : ReaderStep u owner shard lease r act lease' u') : Gated u u' (.reader act) := by
  cases h with
  | sought hpc hc => exact .applied hr hpc hc rfl rfl rfl
  | seekFailed hpc hc => exact .turned hc rfl rfl .failed
  | _ => exact .quiet rfl rfl

theorem Step.gated (h : Step u owner shard lease a lease' u') : Gated u u' a := by
  cases h with
  | reader hr h => exact h.gated hr
  | acquired => exact .fresh rfl rfl
  | findLive hh => exact .found rfl rfl rfl (.inl ⟨rfl, hh⟩) rfl
  | findNone hh => exact .found rfl rfl rfl (.inr ⟨rfl, hh, rfl⟩) rfl
  | bump hc hp he => exact .bumped hc hp he rfl rfl rfl
  | sent hc hp => exact .turned hc rfl rfl (.sent hp)
  | sendGone hc => exact .turned hc rfl rfl .gone
  | answered hc hp => exact .turned hc rfl rfl (.returned hp rfl)
  | answerGone hc => exact .turned hc rfl rfl .gone
  | _ => exact .quiet rfl rfl

theorem Gated.gate_le (h : Gated u u' a) {e : Nat} (hg : u.gates[gate]? = some e) :
    ∃ e', u'.gates[gate]? = some e' ∧ e ≤ e' := by
  cases h with
  | quiet hgs | found hgs | applied _ _ _ hgs | turned _ hgs => exact ⟨e, hgs ▸ hg, le_rfl⟩
  | fresh hgs => exact ⟨e, hgs ▸ Cells.get_push_old hg, le_rfl⟩
  | @bumped call epoch c _ _ he hgs =>
    by_cases heq : gate = c.gate
    · subst heq
      obtain rfl : epoch = e := Option.some.inj (he ▸ hg)
      exact ⟨epoch + 1, hgs ▸ Cells.get_set_self hg, Nat.le_succ epoch⟩
    · exact ⟨e, hgs ▸ (Cells.get_set_ne heq).trans hg, le_rfl⟩

theorem Behind.gated (h : Behind u gate epoch) (hg : Gated u u' a) : Behind u' gate epoch := by
  obtain ⟨e, he, hlt⟩ := h
  obtain ⟨e', he', hle⟩ := hg.gate_le he
  exact ⟨e', he', Nat.lt_of_lt_of_le hlt hle⟩

theorem Stamps.gated (h : Stamps u gate epoch) (hg : Gated u u' a) : Stamps u' gate epoch := by
  obtain ⟨e, he, hle⟩ := h
  obtain ⟨e', he', hle'⟩ := hg.gate_le he
  exact ⟨e', he', Nat.le_trans hle hle'⟩

/-- Bumping the gate puts every epoch loaded from it behind. -/
theorem Stamps.bumped {e : Nat} (h : Stamps u gate epoch) (hg : u.gates[gate]? = some e)
    (hg' : u'.gates = u.gates.set gate (e + 1)) : Behind u' gate epoch := by
  obtain ⟨e₀, he₀, hle⟩ := h
  obtain rfl : e = e₀ := Option.some.inj (hg.symm.trans he₀)
  exact ⟨e + 1, hg' ▸ Cells.get_set_self hg, Nat.lt_succ_of_le hle⟩

theorem Stamps.behind (h : Stamps u gate epoch) (hne : u.gates[gate]? ≠ some epoch) :
    Behind u gate epoch := by
  obtain ⟨e, he, hle⟩ := h
  refine ⟨e, he, Nat.lt_of_le_of_ne hle ?_⟩
  rintro rfl
  exact hne he

theorem Behind.stale (h : Behind u gate epoch) : u.gates[gate]? ≠ some epoch := by
  obtain ⟨e, he, hlt⟩ := h
  intro hg
  obtain rfl := Option.some.inj (he ▸ hg)
  exact lt_irrefl _ hlt

theorem ReaderStep.batch (h : ReaderStep u owner shard lease r act lease' u')
    (hr' : u'.reader = some r') (he : r'.pc.epoch = some epoch) :
    r.pc.epoch = some epoch ∨
      (act = .stamp ∧ r.pc = .stamping ∧ u.gates[r.gate]? = some epoch) := by
  cases h with
  | stamp hpc hg =>
    obtain rfl := Option.some.inj hr'
    obtain rfl := Option.some.inj he
    exact .inr ⟨rfl, hpc, hg⟩
  | gotRecords hpc | refusedRecord hpc | handedOut hpc =>
    obtain rfl := Option.some.inj hr'
    rw [hpc]
    exact .inl he
  | recorded hpc =>
    obtain rfl := Option.some.inj hr'
    exact .inl he
  | @sought call idle | @seekFailed call idle =>
    obtain rfl := Option.some.inj hr'
    cases idle <;> cases he
  | @batchDone epoch stop idle =>
    obtain rfl := Option.some.inj hr'
    cases idle <;> cases he
  | _ =>
    obtain rfl := Option.some.inj hr'
    cases he

/-- Where the reader of the new state comes from. -/
inductive Succeeds (u u' : Subscription) (a : SubAct) (r' : Reader) : Prop where
  | same (hr : u.reader = some r')
  | task {r : Reader} {act : ReaderAct} (hr : u.reader = some r) (ha : a = .reader act)
      (hg : r'.gate = r.gate)
  | told {r : Reader} {call : Nat} (hr : u.reader = some r) (ha : a = .send call)
      (he : r' = { r with commands := r.commands ++ [call] })
  | spawned (hr : u.reader = none) (hpc : r'.pc = .opening false)
      (hg : r'.gate = u.gates.length) (hc : r'.commands = [])

theorem Step.succeeds (h : Step u owner shard lease a lease' u') (hr' : u'.reader = some r') :
    Succeeds u u' a r' := by
  cases h with
  | reader hr h => exact .task hr rfl (h.seat hr').1
  | forgot => cases hr'
  | acquired hr =>
    obtain rfl := Option.some.inj hr'
    exact .spawned hr rfl rfl rfl
  | sent _ _ hr =>
    obtain rfl := Option.some.inj hr'
    exact .told hr rfl rfl
  | _ => exact .same hr'

theorem Step.batch (h : Step u owner shard lease a lease' u') (hr' : u'.reader = some r')
    (he : r'.pc.epoch = some epoch) : ∃ r, u.reader = some r ∧ r'.gate = r.gate ∧
      (r.pc.epoch = some epoch ∨
        (a = .reader .stamp ∧ r.pc = .stamping ∧ u.gates[r.gate]? = some epoch)) := by
  cases h with
  | reader hr h =>
    refine ⟨_, hr, (h.seat hr').1, ?_⟩
    rcases h.batch hr' he with he | ⟨rfl, hpc, hg⟩
    · exact .inl he
    · exact .inr ⟨rfl, hpc, hg⟩
  | forgot => cases hr'
  | acquired hr =>
    obtain rfl := Option.some.inj hr'
    cases he
  | @sent call c r _ _ hr =>
    obtain rfl := Option.some.inj hr'
    exact ⟨r, hr, rfl, .inl he⟩
  | _ => exact ⟨r', hr', rfl, .inl he⟩

theorem Step.queue {id : Nat} {stamped : Stamped} (h : Step u owner shard lease a lease' u')
    (hst : stamped ∈ u'.queue) (hid : stamped.item = .delivery id) :
    stamped ∈ u.queue ∨ ∃ r epoch next stop last idle index, a = .reader .handOut ∧
      u.reader = some r ∧ r.pc = .forwarding epoch next stop last idle ∧
      stamped.stamp = some (epoch, r.gate) ∧
      u.deliveries.length = id ∧ u'.deliveries = u.deliveries ++ [{
        sequence := next, tracker := r.tracker, index := index, gate := r.gate,
        epoch := epoch, via := u.applied, phase := .queued }] := by
  have push : ∀ {st : Stamped}, (∀ id, st.item ≠ .delivery id) →
      stamped ∈ u.queue ++ [st] → stamped ∈ u.queue := by
    intro st hne hmem
    rcases Cells.mem_push hmem with hmem | rfl
    · exact hmem
    · exact absurd hid (hne id)
  cases h with
  | reader hr h =>
    cases h with
    | rowFail | openFail | fatal | gaveUp | retry => exact .inl (push (by simp) hst)
    | refusedRecord => exact .inl (push (by simp) hst)
    | handedOut hpc =>
      rcases Cells.mem_push hst with hst | rfl
      · exact .inl hst
      · obtain rfl := Item.delivery.inj hid
        exact .inr ⟨_, _, _, _, _, _, _, rfl, hr, hpc, rfl, rfl, rfl⟩
    | _ => exact .inl hst
  | reported => exact .inl (push (by simp) hst)
  | leave => cases hst
  | pollDelivery _ hq | pollOther _ hq => exact .inl (hq ▸ List.mem_cons_of_mem _ hst)
  | _ => exact .inl hst

/-- Deliveries, the batch in hand and the queue carry epochs of their gates, and no call claims
deliveries that are still to come. -/
structure Generations (u : Subscription) : Prop where
  delivered : ∀ d ∈ u.deliveries, Stamps u d.gate d.epoch
  batch : ∀ r epoch, u.reader = some r → r.pc.epoch = some epoch → Stamps u r.gate epoch
  queued : ∀ stamped ∈ u.queue, ∀ id, stamped.item = .delivery id → ∃ d,
    u.deliveries[id]? = some d ∧ stamped.stamp = some (d.epoch, d.gate)
  before : ∀ c ∈ u.calls, c.before ≤ u.deliveries.length

theorem Generations.init : Generations {} := by
  constructor <;> simp

theorem Books.length_le (h : Books shard u u') : u.deliveries.length ≤ u'.deliveries.length := by
  cases h with
  | quiet _ hd => exact le_of_eq hd.length.symm
  | fresh _ hd => exact le_of_eq (hd ▸ rfl)
  | handed _ _ _ _ _ _ _ _ hd => simp [hd]
  | settled _ _ _ _ hd => simp [hd]

theorem Generations.step (h : Generations u) (hs : Step u owner shard lease a lease' u') :
    Generations u' := by
  have hgated := hs.gated
  have hle := hs.books.length_le
  refine ⟨?_, ?_, ?_, ?_⟩
  · intro d' hd'
    have old : ∀ d ∈ u.deliveries, Stamps u' d.gate d.epoch :=
      fun d hd => (h.delivered d hd).gated hgated
    have hbooks := hs.books
    cases hbooks with
    | quiet _ hds =>
      obtain ⟨d, hd, he, _⟩ := hds.mem hd'
      rw [he]
      exact old d hd
    | fresh _ hds => exact old d' (hds ▸ hd')
    | handed hr hpc _ _ _ _ _ _ hds =>
      rw [hds] at hd'
      rcases Cells.mem_push hd' with hd' | rfl
      · exact old d' hd'
      · exact (h.batch _ _ hr (by rw [hpc]; rfl)).gated hgated
    | settled hget _ _ _ hds =>
      rw [hds] at hd'
      rcases Cells.mem_set hd' with rfl | hd'
      · exact (old _ (List.mem_of_getElem? hget) :)
      · exact old d' hd'
  · intro r' epoch hr' he
    obtain ⟨r, hr, hgate, hold | ⟨_, _, hload⟩⟩ := hs.batch hr' he
    · rw [hgate]
      exact (h.batch r epoch hr hold).gated hgated
    · rw [hgate]
      exact Stamps.gated ⟨epoch, hload, le_rfl⟩ hgated
  · intro stamped hst id hid
    rcases hs.queue hst hid with hold | ⟨r, epoch, next, stop, last, idle, index, _, _, _, hstamp,
      hlen, hds⟩
    · obtain ⟨d, hd, hstamp⟩ := h.queued stamped hold id hid
      obtain ⟨phase, hd', _⟩ := hs.books.get hd
      exact ⟨_, hd', hstamp⟩
    · subst hlen
      rw [hds, hstamp]
      exact ⟨_, List.getElem?_concat_length, rfl⟩
  · intro c' hc'
    have old : ∀ c ∈ u.calls, c.before ≤ u'.deliveries.length :=
      fun c hc => Nat.le_trans (h.before c hc) hle
    cases hgated with
    | quiet _ hc | fresh _ hc => exact old c' (hc ▸ hc')
    | found _ hc hb =>
      rw [hc] at hc'
      rcases Cells.mem_push hc' with hc' | rfl
      · exact old c' hc'
      · omega
    | bumped hget _ _ _ hc =>
      rw [hc] at hc'
      rcases Cells.mem_set hc' with rfl | hc'
      · exact hle
      · exact old c' hc'
    | applied _ _ hget _ hc | turned hget _ hc =>
      rw [hc] at hc'
      rcases Cells.mem_set hc' with rfl | hc'
      · exact (old _ (List.mem_of_getElem? hget) :)
      · exact old c' hc'

/-- The delivery waits in the channel. -/
def Waits (u : Subscription) (d : Delivery) : Prop :=
  ∃ stamped ∈ u.queue, ∃ id, stamped.item = .delivery id ∧ u.deliveries[id]? = some d

theorem Step.waits {d' : Delivery} (h : Step u owner shard lease a lease' u')
    (hgen : Generations u) (hw : Waits u' d') :
    (∃ d phase, Waits u d ∧ d' = { d with phase := phase }) ∨
      ∃ r epoch next stop last idle, a = .reader .handOut ∧ u.reader = some r ∧
        r.pc = .forwarding epoch next stop last idle ∧ d'.gate = r.gate ∧ d'.epoch = epoch ∧
        d'.via = u.applied := by
  obtain ⟨stamped, hst, id, hid, hget'⟩ := hw
  rcases h.queue hst hid with hold | ⟨r, epoch, next, stop, last, idle, index, ha, hr, hpc, _, hlen,
    hds⟩
  · obtain ⟨d, hget, _⟩ := hgen.queued stamped hold id hid
    obtain ⟨phase, hphase, _⟩ := h.books.get hget
    exact .inl ⟨d, phase, ⟨stamped, hold, id, hid, hget⟩,
      Option.some.inj (hget'.symm.trans hphase)⟩
  · rw [hds, ← hlen, List.getElem?_concat_length] at hget'
    obtain rfl := Option.some.inj hget'
    exact .inr ⟨r, epoch, next, stop, last, idle, ha, hr, hpc, rfl, rfl, rfl⟩

theorem Step.applied_le (h : Step u owner shard lease a lease' u') : u.applied ≤ u'.applied := by
  cases h with
  | reader hr h =>
    cases h with
    | sought => exact Nat.le_succ _
    | _ => exact le_rfl
  | _ => exact le_rfl

/-- What may become of a delivery. -/
inductive Fate (u : Subscription) (a : SubAct) (id : Nat) (d : Delivery) : Phase → Prop where
  | same {phase : Phase} (hp : phase = d.phase) : Fate u a id d phase
  | received {stamped : Stamped} {rest : List Stamped} (ha : a = .poll) (hp : d.phase = .queued)
      (hq : u.queue = stamped :: rest) (hid : stamped.item = .delivery id)
      (hcur : stamped.current u.gates = true) : Fate u a id d .held
  | discarded (ha : a = .poll ∨ a = .leave) (hp : d.phase = .queued) : Fate u a id d .discarded
  | checked (ha : a = .ack id) (hp : d.phase = .held) (hg : u.gates[d.gate]? = some d.epoch) :
      Fate u a id d .checked
  | stale (ha : a = .ack id) (hp : d.phase = .held) : Fate u a id d .stale
  | unsettled (ha : a = .refuse id) (hp : d.phase = .held) : Fate u a id d .unsettled
  | told {w : Watermark} (ha : a = .settle id) (hp : d.phase = .checked)
      (hw : u.trackers[d.tracker]? = some w) : Fate u a id d (.told (w.settle d.index).1)
  | settled {c : Nat} {ok : Bool} (ha : a = .write id ok) (hp : d.phase = .writing c) :
      Fate u a id d (.settled (some c))

theorem Step.fate {id : Nat} {d : Delivery} (h : Step u owner shard lease a lease' u')
    (hd : u.deliveries[id]? = some d) :
    ∃ phase, u'.deliveries[id]? = some { d with phase := phase } ∧ Fate u a id d phase := by
  have keep : u'.deliveries[id]? = some d →
      ∃ phase, u'.deliveries[id]? = some { d with phase := phase } ∧ Fate u a id d phase :=
    fun h => ⟨d.phase, h, .same rfl⟩
  have set : ∀ {j : Nat} {dj : Delivery} {phase : Phase}, u.deliveries[j]? = some dj →
      u'.deliveries = u.deliveries.set j { dj with phase := phase } →
      (id = j → dj = d → Fate u a id d phase) →
      ∃ phase, u'.deliveries[id]? = some { d with phase := phase } ∧ Fate u a id d phase := by
    intro j dj phase hj hds hf
    by_cases he : id = j
    · subst he
      obtain rfl : dj = d := Option.some.inj (hj ▸ hd)
      exact ⟨phase, hds ▸ Cells.get_set_self hd, hf rfl rfl⟩
    · exact keep (hds ▸ (Cells.get_set_ne he).trans hd)
  cases h with
  | reader hr h =>
    cases h with
    | handedOut => exact keep (Cells.get_push_old hd)
    | _ => exact keep hd
  | leave =>
    by_cases hq : d.phase = .queued
    · refine ⟨.discarded, ?_, .discarded (.inr rfl) hq⟩
      simp [Subscription.leave, hd, hq]
    · refine keep ?_
      simp [Subscription.leave, hd, hq]
  | pollDelivery _ hq hid hj hp =>
    refine set hj rfl ?_
    rintro rfl rfl
    split
    · rename_i hcur
      exact .received rfl hp hq hid hcur
    · exact .discarded (.inl rfl) hp
  | ackCurrent hj hp hg =>
    refine set hj rfl ?_
    rintro rfl rfl
    exact .checked rfl hp hg
  | ackStale hj hp =>
    refine set hj rfl ?_
    rintro rfl rfl
    exact .stale rfl hp
  | settled hj hw hp =>
    refine set hj rfl ?_
    rintro rfl rfl
    exact .told rfl hp hw
  | written hj hp =>
    refine set hj rfl ?_
    rintro rfl rfl
    exact .settled rfl hp
  | notWritten hj hp =>
    refine set hj rfl ?_
    rintro rfl rfl
    exact .settled rfl hp
  | refuse hj hp =>
    refine set hj rfl ?_
    rintro rfl rfl
    exact .unsettled rfl hp
  | _ => exact keep hd

/-- A delivery was there before the step, or the reader hands it out. -/
theorem Step.delivered {id : Nat} {d' : Delivery} (h : Step u owner shard lease a lease' u')
    (hd' : u'.deliveries[id]? = some d') :
    (∃ d phase, u.deliveries[id]? = some d ∧ d' = { d with phase := phase } ∧
        Fate u a id d phase) ∨
      ∃ r, u.reader = some r ∧ r.exited = false ∧ d'.gate = r.gate ∧ d'.via = u.applied := by
  cases hold : u.deliveries[id]? with
  | some d =>
    obtain ⟨phase, hget, hf⟩ := h.fate hold
    exact .inl ⟨d, phase, rfl, Option.some.inj (hd'.symm.trans hget), hf⟩
  | none =>
    cases h.books with
    | quiet _ hds =>
      obtain ⟨d, hd, -⟩ := hds.each id d' hd'
      cases hold.symm.trans hd
    | fresh _ hds => cases hold.symm.trans (hds ▸ hd')
    | handed hr hpc _ _ _ _ _ _ hds =>
      rcases Cells.get_push (hds ▸ hd') with hd | ⟨_, rfl⟩
      · cases hold.symm.trans hd
      · exact .inr ⟨_, hr, by simp [Reader.exited, hpc], rfl, rfl⟩
    | settled hget _ _ _ hds =>
      rcases Cells.get_set (hds ▸ hd') with ⟨rfl, _⟩ | ⟨_, hd⟩
      · cases hold.symm.trans hget
      · cases hold.symm.trans hd

end Subscription

end RuststreamKinesis
