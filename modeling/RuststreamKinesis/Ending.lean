import RuststreamKinesis.Outstanding

/-!
# Seeks at the end of a shard

A reader that has read its shard to the end waits until its tracker has drained and does not look
at its command channel. The bump of the seek that waits there makes a delivery of the old epoch
unable to settle, so the wait need not end.
-/

namespace RuststreamKinesis

set_option autoImplicit false

open Runs

namespace Subscription

variable {Owner : Type} [DecidableEq Owner] {u u' : Subscription} {owner : Owner}
variable {shard shard' : Shard} {lease lease' : MemoryLease Owner} {r r' : Reader}
variable {act : ReaderAct} {a : SubAct} {t call : Nat}

/-- The batch in hand lies in the log. -/
def InLog (shard : Shard) (u : Subscription) : Prop :=
  ∀ r epoch next stop last idle, u.reader = some r →
    r.pc = .forwarding epoch next stop last idle → next ≤ stop ∧ stop ≤ shard.log.length

theorem ReaderStep.inLog {epoch next stop : Nat} {last idle : Bool}
    (h : ReaderStep u owner shard lease r act lease' u') (hr' : u'.reader = some r')
    (hpc' : r'.pc = .forwarding epoch next stop last idle) :
    (next ≤ stop ∧ stop ≤ shard.log.length) ∨
      ∃ n last₀ idle₀, r.pc = .forwarding epoch n stop last₀ idle₀ ∧
        (next = n ∨ next = n + 1 ∧ n < stop) := by
  cases h with
  | gotRecords _ hle =>
    obtain rfl := Option.some.inj hr'
    obtain ⟨rfl, rfl, rfl, _⟩ := Pc.forwarding.inj hpc'
    exact .inl ⟨Nat.le_add_right _ _, hle⟩
  | recorded =>
    obtain rfl := Option.some.inj hr'
    exact .inr ⟨next, last, idle, hpc', .inl rfl⟩
  | refusedRecord hpc hlt | handedOut hpc hlt =>
    obtain rfl := Option.some.inj hr'
    obtain ⟨rfl, rfl, rfl, _⟩ := Pc.forwarding.inj hpc'
    exact .inr ⟨_, _, _, hpc, .inr ⟨rfl, hlt⟩⟩
  | sought | seekFailed | batchDone =>
    obtain rfl := Option.some.inj hr'
    dsimp only [goto] at hpc'
    split at hpc' <;> cases hpc'
  | _ =>
    obtain rfl := Option.some.inj hr'
    cases hpc'

theorem InLog.step (h : InLog shard u) (hs : Step u owner shard lease a lease' u') :
    InLog shard u' := by
  intro r' epoch next stop last idle hr' hpc'
  cases hs with
  | reader hr hs =>
    rcases hs.inLog hr' hpc' with hin | ⟨n, _, _, hpc, rfl | ⟨rfl, hlt⟩⟩
    · exact hin
    · exact h _ _ _ _ _ _ hr hpc
    · exact ⟨hlt, (h _ _ _ _ _ _ hr hpc).2⟩
  | forgot => cases hr'
  | acquired =>
    obtain rfl := Option.some.inj hr'
    cases hpc'
  | sent _ _ hr =>
    obtain rfl := Option.some.inj hr'
    exact h _ _ _ _ _ _ hr hpc'
  | _ => exact h _ _ _ _ _ _ hr' hpc'

/-- What holds of a subscription in every run. -/
structure Orderly (shard : Shard) (u : Subscription) : Prop where
  sound : Sound u
  commanded : Commanded u
  generations : Generations u
  outstanding : Outstanding u
  channel : Channel u
  inLog : InLog shard u

theorem Orderly.init : Orderly shard {} :=
  ⟨.init, .init, .init, .init, .init, by rintro r _ _ _ _ _ hr; cases hr⟩

theorem Orderly.step (h : Orderly shard u) (hs : Step u owner shard lease a lease' u') :
    Orderly shard u' :=
  ⟨h.sound.step hs, h.commanded.step hs, h.generations.step hs,
    h.outstanding.books h.sound.linked hs.books, h.channel.step hs, h.inLog.step hs⟩

theorem Orderly.grows (h : Orderly shard u) (hg : Shard.Grows shard shard') :
    Orderly shard' u := by
  refine ⟨h.sound, h.commanded, h.generations, h.outstanding, h.channel, ?_⟩
  intro r epoch next stop last idle hr hpc
  obtain ⟨hle, hlen⟩ := h.inLog r epoch next stop last idle hr hpc
  exact ⟨hle, hlen.trans hg.length_le⟩

/-- The delivery will not be told to its tracker. -/
inductive Hopeless (u : Subscription) (d : Delivery) : Prop where
  | lost (hp : d.phase = .stale ∨ d.phase = .unsettled ∨ d.phase = .discarded)
  | behind (hp : d.phase = .queued ∨ d.phase = .held) (hb : Behind u d.gate d.epoch)

/-- The tracker waits for a delivery that it will not be told of. -/
def Stuck (u : Subscription) (t : Nat) : Prop :=
  ∃ d ∈ u.deliveries, d.tracker = t ∧ Hopeless u d

theorem Hopeless.fate {id : Nat} {d : Delivery} {phase : Phase} (h : Hopeless u d)
    (hg : Gated u u' a) (hf : Fate u a id d phase) : Hopeless u' { d with phase := phase } := by
  cases hf with
  | same hp =>
    subst hp
    cases h with
    | lost hp => exact .lost hp
    | behind hp hb => exact .behind hp (hb.gated hg)
  | received _ hp =>
    cases h with
    | lost hp' => simp [hp] at hp'
    | behind _ hb => exact .behind (.inr rfl) (hb.gated hg)
  | checked _ hp hcur =>
    cases h with
    | lost hp' => simp [hp] at hp'
    | behind _ hb => exact absurd hcur hb.stale
  | told _ hp => cases h <;> simp_all
  | settled _ hp => cases h <;> simp_all
  | discarded | stale | unsettled => exact .lost (by simp)

theorem Stuck.step (h : Stuck u t) (hs : Step u owner shard lease a lease' u') : Stuck u' t := by
  obtain ⟨d, hd, ht, hopeless⟩ := h
  obtain ⟨i, hi⟩ := List.mem_iff_getElem?.mp hd
  obtain ⟨phase, hi', hf⟩ := hs.fate hi
  exact ⟨_, List.mem_of_getElem? hi', ht, hopeless.fate hs.gated hf⟩

theorem Stuck.not_drained {w : Watermark} (h : Stuck u t) (ho : Outstanding u)
    (hw : u.trackers[t]? = some w) : w.drained = false := by
  obtain ⟨d, hd, rfl, hopeless⟩ := h
  have hacked : d.phase.acked = false := by
    cases hopeless with
    | lost hp => rcases hp with hp | hp | hp <;> simp [hp, Phase.acked]
    | behind hp => rcases hp with hp | hp <;> simp [hp, Phase.acked]
  obtain ⟨w', hw', e, he, _⟩ := ho.waits d hd hacked
  obtain rfl := Option.some.inj (hw.symm.trans hw')
  cases hpend : w.pending with
  | nil =>
    rw [hpend] at he
    cases he
  | cons => simp [Watermark.drained, hpend]

/-- The reader waits at the end of its shard, or is about to, for what will not settle. -/
inductive Wedged (shard : Shard) (u : Subscription) (r : Reader) : Prop where
  | ending {stop : Nat} (hpc : r.pc = .ending stop) (h : Stuck u r.tracker)
  | forwarding {epoch next stop : Nat} {idle : Bool}
      (hpc : r.pc = .forwarding epoch next stop true idle)
      (hrec : next = stop ∨ r.reading.unrecorded = false)
      (h : Stuck u r.tracker ∨ (Behind u r.gate epoch ∧ ∃ n record, next ≤ n ∧ n < stop ∧
        shard.log[n]? = some record ∧ record.aggregated = false))

/-- A seek that was sent waits at the live reader. -/
structure Awaits (u : Subscription) (call : Nat) (r : Reader) : Prop where
  reader : u.reader = some r
  live : r.exited = false
  sent : ∃ c, u.calls[call]? = some c ∧ c.phase = .sent ∧ c.gate = r.gate

/-- Steps of the reader, of the consumer and of settlements, and returns of seeks. -/
def proceeds : SubAct → Bool
  | .reader .crash => false
  | .reader _ | .poll | .ack _ | .settle _ | .write _ _ | .refuse _ | .answer _ => true
  | _ => false

theorem Wedged.live (h : Wedged shard u r) : r.exited = false := by
  cases h with
  | ending hpc => simp [Reader.exited, hpc]
  | forwarding hpc => simp [Reader.exited, hpc]

theorem Wedged.step (h : Wedged shard u r) (hr : u.reader = some r) (hord : Orderly shard u)
    (hopen : u.closed = false) (ha : proceeds a = true)
    (hs : Step u owner shard lease a lease' u') :
    ∃ r', u'.reader = some r' ∧ r'.gate = r.gate ∧ u'.closed = false ∧ Wedged shard u' r' := by
  have hgated := hs.gated
  have hstuck : ∀ {t}, Stuck u t → Stuck u' t := fun h => h.step hs
  have aside : u'.reader = some r → u'.closed = false →
      ∃ r', u'.reader = some r' ∧ r'.gate = r.gate ∧ u'.closed = false ∧ Wedged shard u' r' := by
    intro hr' hopen'
    refine ⟨r, hr', rfl, hopen', ?_⟩
    cases h with
    | ending hpc h => exact .ending hpc (hstuck h)
    | forwarding hpc hrec h =>
      exact .forwarding hpc hrec (h.imp hstuck (And.imp_left (·.gated hgated)))
  cases hs with
  | reader hr₀ hs =>
    obtain rfl := Option.some.inj (hr.symm.trans hr₀)
    cases h with
    | ending hpc h =>
      cases hs with
      | markedEnd hpc' hw hd =>
        exact absurd (hd.symm.trans (h.not_drained hord.outstanding hw)) (by simp)
      | leftEnd hpc' hor =>
        rcases hor with hcl | ⟨w, hw, hd⟩
        · exact absurd (hcl.symm.trans hopen) (by simp)
        · exact absurd (hd.symm.trans (h.not_drained hord.outstanding hw)) (by simp)
      | crash => cases ha
      | _ => simp_all
    | forwarding hpc hrec h =>
      cases hs with
      | recorded hpc' hlt hun | notRecorded hpc' hlt hun =>
        obtain ⟨rfl, rfl, rfl, _⟩ := Pc.forwarding.inj (hpc.symm.trans hpc')
        rcases hrec with rfl | hrec
        · exact absurd hlt (lt_irrefl _)
        · exact absurd (hrec.symm.trans hun) (by simp)
      | handClosedRefused _ _ hcl | handClosed _ _ hcl =>
        exact absurd (hcl.symm.trans hopen) (by simp)
      | refusedRecord hpc' _ hun hlog hagg =>
        obtain ⟨rfl, rfl, rfl, rfl, rfl⟩ := Pc.forwarding.inj (hpc.symm.trans hpc')
        refine ⟨_, rfl, rfl, hopen, .forwarding rfl (.inr hun) ?_⟩
        rcases h with h | ⟨hb, n, record, hle, hlt, hn, hread⟩
        · exact .inl (hstuck h)
        · refine .inr ⟨hb.gated hgated, n, record, ?_, hlt, hn, hread⟩
          refine Nat.lt_of_le_of_ne hle ?_
          rintro rfl
          obtain rfl := Option.some.inj (hlog.symm.trans hn)
          exact absurd (hagg.symm.trans hread) (by simp)
      | handedOut hpc' _ hun =>
        obtain ⟨rfl, rfl, rfl, rfl, rfl⟩ := Pc.forwarding.inj (hpc.symm.trans hpc')
        refine ⟨_, rfl, rfl, hopen, .forwarding rfl (.inr hun) (.inl ?_)⟩
        rcases h with h | ⟨hb, _⟩
        · exact hstuck h
        · exact ⟨_, List.mem_append_right _ List.mem_cons_self, rfl,
            .behind (.inl rfl) (hb.gated hgated)⟩
      | batchEnd hpc' =>
        obtain ⟨rfl, rfl, rfl, _⟩ := Pc.forwarding.inj (hpc.symm.trans hpc')
        refine ⟨_, rfl, rfl, hopen, .ending rfl (hstuck ?_)⟩
        rcases h with h | ⟨_, n, _, hle, hlt, _⟩
        · exact h
        · omega
      | batchDone hpc' => exact absurd (Pc.forwarding.inj (hpc.symm.trans hpc')).2.2.2.1 (by simp)
      | crash => cases ha
      | _ => simp_all
  | pollDelivery | pollOther | ackCurrent | ackStale | settled | written | notWritten | refuse
  | answered | answerGone => exact aside hr hopen
  | _ => cases ha

theorem Wedged.awaits (h : Wedged shard u r) (haw : Awaits u call r) (hord : Orderly shard u)
    (hopen : u.closed = false) (ha : proceeds a = true)
    (hs : Step u owner shard lease a lease' u') :
    ∃ r', Awaits u' call r' ∧ u'.closed = false ∧ Wedged shard u' r' := by
  obtain ⟨hr, hlive, c, hc, hp, hg⟩ := haw
  obtain ⟨r', hr', hgate, hopen', h'⟩ := h.step hr hord hopen ha hs
  suffices hcall : u'.calls[call]? = some c from
    ⟨r', ⟨hr', h'.live, c, hcall, hp, hg.trans hgate.symm⟩, hopen', h'⟩
  have other : ∀ {j : Nat} {c₀ : SeekCall} {phase : CallPhase}, u.calls[j]? = some c₀ → j ≠ call →
      (u.setCall j c₀ phase).calls[call]? = some c :=
    fun hj hne => (Cells.get_set_ne (Ne.symm hne)).trans hc
  cases hs with
  | reader hr₀ hs =>
    obtain rfl := Option.some.inj (hr.symm.trans hr₀)
    have hatt := hs.attends hr'
    cases hatt with
    | same _ hcs => exact hcs ▸ hc
    | gone _ _ hx => exact absurd (h'.live.symm.trans hx) (by simp)
    | answered hpc =>
      cases h with
      | ending hpc₀ => exact absurd (hpc₀.symm.trans hpc) (by simp)
      | forwarding hpc₀ => exact absurd (hpc₀.symm.trans hpc) (by simp)
  | answered hj hphase =>
    refine other hj ?_
    rintro rfl
    obtain rfl := Option.some.inj (hc.symm.trans hj)
    exact absurd (hp.symm.trans hphase) (by simp)
  | answerGone hj _ hgone =>
    refine other hj ?_
    rintro rfl
    obtain rfl := Option.some.inj (hc.symm.trans hj)
    exact absurd (hlive.symm.trans (live_eq_false hgone hr hg.symm)) (by simp)
  | pollDelivery | pollOther | ackCurrent | ackStale | settled | written | notWritten | refuse =>
    exact hc
  | _ => cases ha

end Subscription

end RuststreamKinesis
