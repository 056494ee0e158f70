import RuststreamKinesis.Calls

/-!
# What the consumer receives after a seek

Between its bump and its answer a seek has everything behind it that the live reader read before,
so long as the reader loads no epoch in between and nothing of an earlier reader can be handed over
any more. The bump of another reader's gate, or none at all, does nothing about what that one left
in the channel.
-/

namespace RuststreamKinesis

set_option autoImplicit false

open Runs

namespace Subscription

variable {Owner : Type} [DecidableEq Owner] {u u' : Subscription} {owner : Owner} {shard : Shard}
variable {lease lease' : MemoryLease Owner} {a : SubAct} {c c' : SeekCall} {gate : Nat}

/-- The channel holds no current delivery of a reader before the gate. -/
def emptyBefore (u : Subscription) (gate : Nat) : Bool :=
  u.queue.all fun stamped =>
    match stamped.item, stamped.stamp with
    | .delivery _, some (_, g) => decide (gate ≤ g) || !stamped.current u.gates
    | _, _ => true

/-- A reader loads its epoch while no seek on its gate is under way; and a seek that bumps a live
reader's gate, or goes over the whole stream, finds no current delivery of an earlier reader in the
channel. -/
def readsInOrder (u : Subscription) : SubAct → Bool
  | .reader .stamp =>
    match u.reader with
    | some r => u.calls.all fun c => c.gate != r.gate || (c.phase != .bumped && c.phase != .sent)
    | none => true
  | .find start => !start.wide || u.handle.isSome || u.emptyBefore u.gates.length
  | .bump call =>
    match u.calls[call]? with
    | some c => !(c.start.wide || u.live c.gate) || u.emptyBefore c.gate
    | none => true
  | _ => true

theorem readsInOrder_stamp {r : Reader} (h : readsInOrder u (.reader .stamp) = true)
    (hr : u.reader = some r) (hc : c ∈ u.calls) (hg : c.gate = r.gate) : ¬ c.Pending := by
  simp only [readsInOrder, hr] at h
  have hc' := List.all_eq_true.mp h c hc
  rintro (hp | hp) <;> simp [hg, hp] at hc'

theorem Stamped.current_iff {gates : List Nat} {stamped : Stamped} {gate epoch : Nat}
    (h : stamped.stamp = some (epoch, gate)) :
    stamped.current gates = true ↔ gates[gate]? = some epoch := by
  simp [Stamped.current, h]

theorem emptyBefore_waits {d : Delivery} (h : u.emptyBefore gate = true) (hgen : Generations u)
    (hd : Waits u d) (hlt : d.gate < gate) : Behind u d.gate d.epoch := by
  obtain ⟨stamped, hst, id, hid, hget⟩ := hd
  obtain ⟨d₀, hget₀, hstamp⟩ := hgen.queued stamped hst id hid
  obtain rfl := Option.some.inj (hget.symm.trans hget₀)
  have hone := List.all_eq_true.mp h stamped hst
  simp only [hid, hstamp, Bool.or_eq_true, decide_eq_true_eq, Bool.not_eq_true'] at hone
  apply (hgen.delivered d (List.mem_of_getElem? hget)).behind
  intro hcur
  rcases hone with hle | hstale
  · omega
  · cases hstale.symm.trans ((Stamped.current_iff hstamp).mpr hcur)

/-- A seek that is under way concerns this shard's readers: it will not come back with an error for
the reader being gone. -/
def Concerns (u : Subscription) (c : SeekCall) : Prop :=
  c.start.wide = true ∨ u.live c.gate = true

structure Superseded (u : Subscription) : Prop where
  generations : Generations u
  ranked : Ranked u
  batch : ∀ c ∈ u.calls, c.Pending → ∀ r, u.reader = some r → r.gate = c.gate →
    r.exited = false → ∀ e, r.pc.epoch = some e → Behind u r.gate e
  queue : ∀ c ∈ u.calls, c.Pending → Concerns u c → ∀ d, Waits u d → d.gate ≤ c.gate →
    Behind u d.gate d.epoch
  fresh : ∀ c ∈ u.calls, c.fine = true → ∀ d, Waits u d → u.gates[d.gate]? = some d.epoch →
    c.old d = false

theorem Superseded.init : Superseded {} := ⟨.init, .init, by simp, by simp, by simp⟩

/-- A call under way was under way before the step, or it has just bumped its gate. -/
theorem Gated.pending (h : Gated u u' a) (hc' : c' ∈ u'.calls) (hp : c'.Pending) :
    (∃ c ∈ u.calls, c.Pending ∧ c.gate = c'.gate ∧ c.start = c'.start) ∨
      ∃ call c e, a = .bump call ∧ u.calls[call]? = some c ∧ c.phase = .found ∧
        c'.gate = c.gate ∧ c'.start = c.start ∧ u.gates[c.gate]? = some e ∧
        u'.gates = u.gates.set c.gate (e + 1) := by
  cases h with
  | quiet _ hcs | fresh _ hcs => exact .inl ⟨c', hcs ▸ hc', hp, rfl, rfl⟩
  | found _ hcs _ hf =>
    rw [hcs] at hc'
    rcases Cells.mem_push hc' with hc' | rfl
    · exact .inl ⟨c', hc', hp, rfl, rfl⟩
    · rcases hf with ⟨hf, _⟩ | ⟨hf, _⟩ <;> simp [SeekCall.Pending, hf] at hp
  | bumped hget hf he hgs hcs ha =>
    rw [hcs] at hc'
    rcases Cells.mem_set hc' with rfl | hc'
    · exact .inr ⟨_, _, _, ha, hget, hf, rfl, rfl, he, hgs⟩
    · exact .inl ⟨c', hc', hp, rfl, rfl⟩
  | applied _ _ _ _ hcs =>
    rw [hcs] at hc'
    rcases Cells.mem_set hc' with rfl | hc'
    · simp [SeekCall.Pending] at hp
    · exact .inl ⟨c', hc', hp, rfl, rfl⟩
  | turned hget _ hcs hturn =>
    rw [hcs] at hc'
    rcases Cells.mem_set hc' with rfl | hc'
    · cases hturn with
      | sent hb => exact .inl ⟨_, List.mem_of_getElem? hget, .inl hb, rfl, rfl⟩
      | gone | failed | returned => simp [SeekCall.Pending] at hp
    · exact .inl ⟨c', hc', hp, rfl, rfl⟩

theorem Step.concerns (hs : Step u owner shard lease a lease' u') (hg : c.gate = c'.gate)
    (hst : c.start = c'.start) (hlt : c.gate < u.gates.length) (h : Concerns u' c') :
    Concerns u c := by
  unfold Concerns at h ⊢
  rw [hst, hg] at *
  refine h.imp_right ?_
  intro hlive
  by_contra hdead
  cases hlive.symm.trans (hs.gone (by simpa using hdead) hlt)

theorem Superseded.batch_step (h : Superseded u) (hs : Step u owner shard lease a lease' u')
    (hord : readsInOrder u a = true) : ∀ c ∈ u'.calls, c.Pending → ∀ r, u'.reader = some r →
      r.gate = c.gate → r.exited = false → ∀ e, r.pc.epoch = some e → Behind u' r.gate e := by
  intro c' hc' hp r' hr' hg hx e he
  obtain ⟨r, hr, hgate, hload⟩ := hs.batch hr' he
  rcases hs.gated.pending hc' hp with ⟨c, hc, hpc, hcg, _⟩ |
    ⟨call, c, e', ha, hget, hf, hcg, _, hge, hgs⟩
  · have hlt := h.ranked.commanded.calls c hc (.inr hpc)
    obtain ⟨r₀, hr₀, _, hx₀⟩ := hs.reader_old hr' hx (hg.trans hcg.symm ▸ hlt)
    obtain rfl := Option.some.inj (hr.symm.trans hr₀)
    have hrc : r.gate = c.gate := hgate.symm.trans (hg.trans hcg.symm)
    rcases hload with hold | ⟨ha, _, _⟩
    · rw [hgate]
      exact (h.batch c hc hpc r hr hrc hx₀ e hold).gated hs.gated
    · exact absurd hpc (readsInOrder_stamp (ha ▸ hord) hr hc hrc.symm)
  · have hrc : r.gate = c.gate := hgate.symm.trans (hg.trans hcg)
    rcases hload with hold | ⟨ha', _⟩
    · rw [hgate]
      exact (h.generations.batch r e hr hold).bumped (hrc ▸ hge) (hrc ▸ hgs)
    · exact absurd (ha.symm.trans ha') (by simp)

theorem Superseded.queue_step (h : Superseded u) (hs : Step u owner shard lease a lease' u')
    (hord : readsInOrder u a = true) : ∀ c ∈ u'.calls, c.Pending → Concerns u' c →
      ∀ d, Waits u' d → d.gate ≤ c.gate → Behind u' d.gate d.epoch := by
  intro c' hc' hp hcon d' hd' hle
  have hgen := h.generations
  rcases hs.gated.pending hc' hp with ⟨c, hc, hpc, hcg, hst⟩ |
    ⟨call, c, e', ha, hget, hf, hcg, hst, hge, hgs⟩
  · have hlt := h.ranked.commanded.calls c hc (.inr hpc)
    rcases hs.waits hgen hd' with ⟨d, phase, hd, rfl⟩ |
      ⟨r, e, _, _, _, _, _, hr, hpc₀, hdg, hde, _⟩
    · have hcon' := hs.concerns hcg hst hlt hcon
      exact (h.queue c hc hpc hcon' d hd (hcg ▸ hle)).gated hs.gated
    · -- The reader is the last one: what it hands out carries no gate before its own.
      have hlast := h.ranked.latest r hr
      have hrc : r.gate = c.gate := by omega
      rw [hdg, hde]
      exact (h.batch c hc hpc r hr hrc (by simp [Reader.exited, hpc₀]) e
        (by rw [hpc₀]; rfl)).gated hs.gated
  · have hmem := List.mem_of_getElem? hget
    have hlt := h.ranked.commanded.calls c hmem (.inl hf)
    rcases hs.waits hgen hd' with ⟨d, phase, hd, rfl⟩ | ⟨_, _, _, _, _, _, ha', _⟩
    · rcases Nat.lt_or_eq_of_le (hcg ▸ hle) with hbefore | heq
      · have hcon' : (c.start.wide || u.live c.gate) = true :=
          Bool.or_eq_true_iff.mpr (hs.concerns hcg.symm hst.symm hlt hcon)
        have hempty : u.emptyBefore c.gate = true := by
          simpa only [ha, readsInOrder, hget, hcon', Bool.not_true, Bool.false_or] using hord
        exact (emptyBefore_waits hempty hgen hd hbefore).gated hs.gated
      · obtain ⟨st, _, id, _, hdget⟩ := hd
        have hstamps := hgen.delivered d (List.mem_of_getElem? hdget)
        exact hstamps.bumped (heq ▸ hge) (heq ▸ hgs)
    · exact absurd (ha.symm.trans ha') (by simp)

/-- What stays in the channel was current before the step if it is after. -/
theorem Step.current_before {d : Delivery} (hs : Step u owner shard lease a lease' u')
    (h : Stamps u d.gate d.epoch) (hcur : u'.gates[d.gate]? = some d.epoch) :
    u.gates[d.gate]? = some d.epoch := by
  by_contra hstale
  exact ((h.behind hstale).gated hs.gated).stale hcur

theorem Waits.stamps {d : Delivery} (hd : Waits u d) (hgen : Generations u) :
    Stamps u d.gate d.epoch := by
  obtain ⟨_, _, _, _, hget⟩ := hd
  exact hgen.delivered d (List.mem_of_getElem? hget)

theorem Superseded.fresh_step (h : Superseded u) (hs : Step u owner shard lease a lease' u')
    (hord : readsInOrder u a = true) : ∀ c ∈ u'.calls, c.fine = true → ∀ d, Waits u' d →
      u'.gates[d.gate]? = some d.epoch → c.old d = false := by
  intro c' hc' hfine d' hd' hcur
  have hgen := h.generations
  have hcom := h.ranked.commanded
  rcases hs.waits hgen hd' with ⟨d, phase, hd, rfl⟩ | ⟨r, _, _, _, _, _, ha, hr, hpc, hdg, _, hvia⟩
  · have hcur' := hs.current_before (hd.stamps hgen) hcur
    obtain ⟨outcome, ho⟩ := SeekCall.outcome_of_fine hfine
    cases hs.concluded hcom hc' ho with
    | @before c _ hc hoc hg hst =>
      have hfine' : c.fine = true := by simpa [SeekCall.fine, hoc, hst] using hfine
      exact (SeekCall.old_congr hoc hg).symm.trans (h.fresh c hc hfine' d hd hcur')
    | moved hc hp ha hr hg hx happ =>
      have hlive : u.live _ = true := live_iff.mpr ⟨_, hr, hg, hx⟩
      have hlast := h.ranked.latest _ hr
      have hlt := Cells.get_lt hcur'
      exact absurd hcur' (h.queue _ hc (.inr hp) (.inr hlive) d hd (by omega)).stale
    | failed => simp [SeekCall.fine, ho] at hfine
    | @gone c hc hp hlive hg hst =>
      have hwide : c.start.wide = true := by simpa [SeekCall.fine, ho, hst] using hfine
      have hnot : ¬ d.gate ≤ c.gate := by
        intro hle
        exact (h.queue c hc hp (.inl hwide) d hd hle).stale hcur'
      have hleft : c'.left = c.gate + 1 := by simp [SeekCall.left, ho, hg]
      rw [SeekCall.Gone.old_eq (.inl ho), hleft, decide_eq_false_iff_not]
      exact fun hlt => hnot (Nat.le_of_lt_succ hlt)
    | noReader ha hh hg =>
      have hwide : c'.start.wide = true := by simpa [SeekCall.fine, ho] using hfine
      have hempty : u.emptyBefore u.gates.length = true := by
        simpa [ha, readsInOrder, hwide, hh] using hord
      exact absurd hcur' (emptyBefore_waits hempty hgen hd (Cells.get_lt hcur')).stale
  · have hc : c' ∈ u.calls := by
      subst ha
      cases hs with
      | reader _ hs => cases hs <;> exact hc'
    exact h.ranked.handed hc hfine hr (by simp [Reader.exited, hpc]) hdg hvia

theorem Superseded.step (h : Superseded u) (hs : Step u owner shard lease a lease' u')
    (hord : readsInOrder u a = true) : Superseded u' :=
  ⟨h.generations.step hs, h.ranked.step hs, h.batch_step hs hord, h.queue_step hs hord,
    h.fresh_step hs hord⟩

end Subscription

namespace System

open Subscription

variable {Owner : Type} [DecidableEq Owner] {owner : Nat → Owner} {s s' : System Owner}

/-- Once a seek returned without an error, the consumer receives nothing that was read before. -/
def SeekFresh (owner : Nat → Owner) (s : System Owner) : Prop :=
  ∀ (x call id : Nat) (c : SeekCall) (d d' : Delivery) (s' : System Owner),
    (s.subs x).calls[call]? = some c → c.ok = true →
    (s.subs x).deliveries[id]? = some d → d.phase = .queued →
    s.step owner (.sub x .poll) = some s' →
    (s'.subs x).deliveries[id]? = some d' → d'.phase = .held → c.old d = false

/-- The seek isolates deliveries in every run whose reads are in order with the seeks. -/
theorem seek_isolates_deliveries {shard : Shard} {lease : MemoryLease Owner}
    (h : Run (step owner) (fun s act => s.each readsInOrder act = true) (fresh shard lease) s) :
    SeekFresh owner s := by
  intro x call id c d d' s' hcall hok hd hqueued hstep hd' hheld
  have hs : Superseded (s.subs x) := run_each .init (fun hu hp hs => hu.step hs hp) h x
  obtain ⟨phase, hget, hfate⟩ := (sub_cases hstep).fate hd
  obtain rfl := Option.some.inj (hd'.symm.trans hget)
  replace hheld : phase = .held := hheld
  cases hfate with
  | same hp => exact absurd (hheld.symm.trans (hp.trans hqueued)) (by simp)
  | told => exact absurd hheld (Phase.told_ne_held _)
  | @received stamped rest _ _ hq hid hcur =>
    have hst : stamped ∈ (s.subs x).queue := hq ▸ List.mem_cons_self
    obtain ⟨d₀, hget₀, hstamp⟩ := hs.generations.queued stamped hst id hid
    obtain rfl := Option.some.inj (hd.symm.trans hget₀)
    exact hs.fresh c (List.mem_of_getElem? hcall) (SeekCall.fine_of_ok hok) d
      ⟨stamped, hst, id, hid, hd⟩ ((Stamped.current_iff hstamp).mp hcur)
  | _ => cases hheld

/-- A seek to the tip comes between the command drain and the epoch load of the reader; the batch
is read through the old iterator and stamped with the new epoch. -/
def seekBeforeStamp : List Act :=
  opening 0 .opens 0 ++ [.append [1], .sub 0 (.reader .checkClosed), .sub 0 (.reader .drained),
    .sub 0 (.install .latest), .sub 0 (.find (.stream .latest)), .sub 0 (.bump 0),
    .sub 0 (.send 0), .sub 0 (.reader .notDue), .sub 0 (.reader .stamp),
    .sub 0 (.reader (.getRecords 1 false)), .sub 0 (.reader (.recordOpening true)),
    .sub 0 (.reader .handOut), .sub 0 (.reader .batchDone), .sub 0 (.reader .checkClosed),
    .sub 0 (.reader .takeSeek), .sub 0 (.reader (.applySeek .iterator)), .sub 0 (.answer 0)]

theorem seek_isolates_deliveries_fails : ∃ s : System Nat,
    exec (step id) (System.init {}) seekBeforeStamp = some s ∧ ¬ SeekFresh id s := by
  have hrun : ((exec (step id) (System.init {}) seekBeforeStamp).bind fun s =>
      (s.step id (.sub 0 .poll)).map fun s' => ((s.subs 0).calls[0]?,
        (s.subs 0).deliveries[0]?, (s'.subs 0).deliveries[0]?)) =
      some (some ⟨0, .stream .latest, 0, .returned (.moved 1)⟩,
        some ⟨0, 0, 0, 0, 1, 0, .queued⟩, some ⟨0, 0, 0, 0, 1, 0, .held⟩) := by
    decide
  obtain ⟨s, hs, hrun⟩ := Option.bind_eq_some_iff.mp hrun
  obtain ⟨s', hs', hrun⟩ := Option.map_eq_some_iff.mp hrun
  obtain ⟨hcall, hds⟩ := Prod.mk.inj hrun
  obtain ⟨hd, hd'⟩ := Prod.mk.inj hds
  refine ⟨s, hs, ?_⟩
  intro h
  cases h 0 0 0 _ _ _ s' hcall rfl hd rfl hs' hd' rfl

/-- A seek that is applied before the reader loads its epoch. -/
def seekBeforeDrain : List Act :=
  opening 0 .opens 0 ++ [.append [1], .sub 0 (.install .horizon),
    .sub 0 (.find (.stream .horizon)), .sub 0 (.bump 0), .sub 0 (.send 0),
    .sub 0 (.reader .checkClosed), .sub 0 (.reader .takeSeek),
    .sub 0 (.reader (.applySeek .iterator)), .sub 0 (.answer 0), .sub 0 (.reader .drained),
    .sub 0 (.reader .notDue), .sub 0 (.reader .stamp), .sub 0 (.reader (.getRecords 1 false)),
    .sub 0 (.reader (.recordOpening true)), .sub 0 (.reader .handOut)]

theorem seek_isolates_deliveries_drained : ∃ s : System Nat,
    exec (step id) (System.init {}) seekBeforeDrain = some s ∧ SeekFresh id s := by
  have hrun : (check (step id) (each readsInOrder) (System.init {}) seekBeforeDrain).isSome =
      true := by decide
  obtain ⟨s, hs⟩ := Option.isSome_iff_exists.mp hrun
  exact ⟨s, exec_of_check hs, seek_isolates_deliveries (.of_check hs)⟩

end System

end RuststreamKinesis
