import RuststreamKinesis.Beginning
import RuststreamKinesis.Ending

/-!
# Parents before children

A child is let through once its parents are marked finished, or skipped. A shard that is finished
or skipped has settled all it handed out and hands out no more, so long as nothing of an earlier
reading is left when it is marked, and the shard that is skipped is at its end and stays there.
-/

namespace RuststreamKinesis

set_option autoImplicit false

open Runs

namespace Subscription

variable {Owner : Type} [DecidableEq Owner] {u u' : Subscription} {owner : Owner}
variable {shard shard' : Shard} {lease lease' : MemoryLease Owner} {r r' : Reader}
variable {act : ReaderAct} {a : SubAct}

/-- All that was handed out has settled, and nothing is left to read. -/
structure Quiet (shard : Shard) (u : Subscription) : Prop where
  closed : shard.closed = true
  settled : ∀ d ∈ u.deliveries, d.phase.acked = true
  atEnd : ∀ r p, u.reader = some r → r.position = some p → shard.log.length ≤ p

/-- An iterator that is obtained lies at the end of the shard. -/
def staysAtEnd (shard : Shard) (u : Subscription) : SubAct → Bool
  | .reader (.openIterator .iterator) => u.reader.all fun r =>
    match r.pc with
    | .fetching start _ _ =>
      (shard.getShardIterator (iteratorAt start)).all fun p => decide (shard.log.length ≤ p)
    | _ => true
  | .reader (.applySeek .iterator) => u.reader.all fun r =>
    match r.pc with
    | .seeking call _ => (u.calls[call]?).all fun c =>
      (shard.getShardIterator (iteratorAt c.start)).all fun p => decide (shard.log.length ≤ p)
    | _ => true
  | _ => true

theorem Quiet.deliveries (h : Quiet shard u) (hs : Step u owner shard lease a lease' u') :
    u'.deliveries.length = u.deliveries.length ∧ ∀ d ∈ u'.deliveries, d.phase.acked = true := by
  have hlen : u'.deliveries.length = u.deliveries.length := by
    cases hs.books with
    | quiet _ hd => exact hd.length
    | fresh _ hd => rw [hd]
    | handed hr hpc _ _ hlog =>
      have hend := h.atEnd _ _ hr (Reader.position_forwarding hpc)
      exact absurd (Cells.get_lt hlog) (Nat.not_lt.mpr hend)
    | settled _ _ _ _ hd => rw [hd, List.length_set]
  refine ⟨hlen, ?_⟩
  intro d' hd'
  obtain ⟨i, hi⟩ := List.mem_iff_getElem?.mp hd'
  have hlt : i < u.deliveries.length := hlen ▸ Cells.get_lt hi
  obtain ⟨phase, hi', hacked⟩ := hs.books.get (List.getElem?_eq_getElem hlt)
  obtain rfl := Option.some.inj (hi.symm.trans hi')
  exact hacked (h.settled _ (List.getElem_mem hlt))

theorem Quiet.step (h : Quiet shard u) (hs : Step u owner shard lease a lease' u')
    (hstay : staysAtEnd shard u a = true) : Quiet shard u' := by
  refine ⟨h.closed, (h.deliveries hs).2, ?_⟩
  intro r' p hr' hp
  obtain ⟨r, hr, hm⟩ := hs.moved hr' hp
  cases hm with
  | stays hp => exact h.atEnd r p hr hp
  | opened ha hpc hget => simpa [ha, staysAtEnd, hr, hpc, hget] using hstay
  | sought hpc hc hget _ _ _ ha => simpa [ha, staysAtEnd, hr, hpc, hc, hget] using hstay
  | recorded hpc => exact h.atEnd r p hr (Reader.position_forwarding hpc)
  | handed hpc hn =>
    subst hn
    exact Nat.le_succ_of_le (h.atEnd r _ hr (Reader.position_forwarding hpc))

theorem Quiet.grows (h : Quiet shard u) (hg : Shard.Grows shard shard') : Quiet shard' u := by
  obtain ⟨hclosed, hlog⟩ := hg.closed h.closed
  exact ⟨hclosed, h.settled, hlog ▸ h.atEnd⟩

/-- The shard is marked finished for good: no write of a settlement is to come, and a reader that
starts again sees the mark. -/
structure Sealed (shard : Shard) (lease : MemoryLease Owner) (u : Subscription) : Prop where
  row : lease.checkpoint = some .shardEnd
  closed : shard.closed = true
  settled : ∀ d ∈ u.deliveries, ∃ watermark, d.phase = .settled watermark
  resting : ∀ r, u.reader = some r →
    r.pc = .opening false ∨ (∃ rewind, r.pc = .releasing rewind) ∨ ∃ rewind, r.pc = .exited rewind

omit [DecidableEq Owner] in
theorem Sealed.quiet (h : Sealed shard lease u) : Quiet shard u where
  closed := h.closed
  settled d hd := by
    obtain ⟨watermark, hw⟩ := h.settled d hd
    rw [hw]
    rfl
  atEnd r p hr hp := by
    rcases h.resting r hr with hpc | ⟨_, hpc⟩ | ⟨_, hpc⟩ <;> simp [Reader.position, hpc] at hp

omit [DecidableEq Owner] in
theorem Sealed.grows (h : Sealed shard lease u) (hg : Shard.Grows shard shard') :
    Sealed shard' lease u :=
  ⟨h.row, (hg.closed h.closed).1, h.settled, h.resting⟩

theorem ReaderStep.resting (h : ReaderStep u owner shard lease r act lease' u')
    (hrow : lease.checkpoint = some .shardEnd) (hr' : u'.reader = some r')
    (hrest : r.pc = .opening false ∨ (∃ rewind, r.pc = .releasing rewind) ∨
      ∃ rewind, r.pc = .exited rewind) :
    r'.pc = .opening false ∨ (∃ rewind, r'.pc = .releasing rewind) ∨
      ∃ rewind, r'.pc = .exited rewind := by
  have hpc : ∀ {pc : Pc}, r.pc = pc → pc = .opening false ∨ (∃ rewind, pc = .releasing rewind) ∨
      ∃ rewind, pc = .exited rewind := fun he => he ▸ hrest
  cases h with
  | rowCheckpoint _ hck | rowBlank _ hck => exact absurd (hrow.symm.trans hck) (by simp)
  | rowEnd | rowFailClosed | rowFail | openNone | openFailClosed | openFail | fenced | renewFails
  | readClosed | notRecorded | handClosedRefused | release | crash =>
    obtain rfl := Option.some.inj hr'
    exact .inr (.inr ⟨_, rfl⟩)
  | sawClosed | gaveUpExpired | fatal | gaveUp | handClosed | markedEnd | leftEnd =>
    obtain rfl := Option.some.inj hr'
    exact .inr (.inl ⟨_, rfl⟩)
  | rowRetry h₀ | opened h₀ | openRetry h₀ | sawOpen h₀ | takeDraining h₀ | takeIdle h₀
  | drained h₀ | sought h₀ | seekFailed h₀ | renewed h₀ | notDue h₀ | stamp h₀ | gotRecords h₀
  | throttled h₀ | expired h₀ | retry h₀ | recorded h₀ | refusedRecord h₀ | handedOut h₀
  | batchEnd h₀ | batchDone h₀ | wake h₀ =>
    rcases hpc h₀ with h₁ | ⟨_, h₁⟩ | ⟨_, h₁⟩ <;> cases h₁

theorem Sealed.step (h : Sealed shard lease u) (hs : Step u owner shard lease a lease' u') :
    Sealed shard lease' u' := by
  refine ⟨?_, h.closed, ?_, ?_⟩
  · cases hs.row with
    | kept hc | taken hc => exact hc.trans h.row
    | opened _ _ _ _ hl => exact hl ▸ h.row
    | ended _ _ _ _ _ hl => exact hl ▸ rfl
    | written hd hphase =>
      obtain ⟨watermark, hw⟩ := h.settled _ (List.mem_of_getElem? hd)
      exact absurd (hphase.symm.trans hw) (by simp)
  · intro d' hd'
    cases hs.books with
    | quiet _ hd =>
      obtain ⟨d, hmem, _, hm⟩ := hd.mem hd'
      obtain ⟨watermark, hw⟩ := h.settled d hmem
      rw [hw] at hm
      cases hp : d'.phase <;> rw [hp] at hm <;> cases hm
      exact ⟨_, rfl⟩
    | fresh _ hd => exact h.settled d' (hd ▸ hd')
    | handed hr hpc _ _ hlog =>
      have hend := h.quiet.atEnd _ _ hr (Reader.position_forwarding hpc)
      exact absurd (Cells.get_lt hlog) (Nat.not_lt.mpr hend)
    | settled hget _ hphase =>
      obtain ⟨watermark, hw⟩ := h.settled _ (List.mem_of_getElem? hget)
      exact absurd (hphase.symm.trans hw) (by simp)
  · intro r' hr'
    cases hs with
    | reader hr hs => exact hs.resting h.row hr' (h.resting _ hr)
    | forgot => cases hr'
    | acquired =>
      obtain rfl := Option.some.inj hr'
      exact .inl rfl
    | @sent _ _ r _ _ hr =>
      obtain rfl := Option.some.inj hr'
      exact h.resting r hr
    | _ => exact h.resting r' hr'

/-- The last batch of a closed shard goes to its end. -/
def EndsLog (shard : Shard) (u : Subscription) : Prop :=
  ∀ r, u.reader = some r → ∀ stop,
    (r.pc = .ending stop ∨ ∃ epoch next idle, r.pc = .forwarding epoch next stop true idle) →
    shard.closed = true ∧ stop = shard.log.length

/-- A reader comes to its last batch by the read that gives no next iterator, and goes through it
by the same place to go back to. -/
theorem ReaderStep.lastBatch {stop : Nat} (h : ReaderStep u owner shard lease r act lease' u')
    (hr' : u'.reader = some r') (hpc' : r'.pc = .ending stop ∨
      ∃ epoch next idle, r'.pc = .forwarding epoch next stop true idle) :
    (∃ count, act = .getRecords count true ∧ shard.closed = true ∧ stop = shard.log.length ∧
      r'.reading = r.reading) ∨
    ((∀ count last, act ≠ .getRecords count last) ∧
      (r.pc = .ending stop ∨ ∃ epoch next idle, r.pc = .forwarding epoch next stop true idle) ∧
      ∀ start, r.reading.rewind = some start → r'.reading.rewind = some start) := by
  have noted : ∀ n start, r.reading.rewind = some start →
      (r.reading.noteFirst n).rewind = some start := by
    intro n start hs
    simp [Reading.noteFirst, hs]
  cases h with
  | gotRecords _ _ hlast =>
    obtain rfl := Option.some.inj hr'
    rcases hpc' with hpc' | ⟨_, _, _, hpc'⟩
    · cases hpc'
    · obtain ⟨_, _, rfl, rfl, _⟩ := Pc.forwarding.inj hpc'
      obtain ⟨hclosed, hstop⟩ := hlast rfl
      exact .inl ⟨_, rfl, hclosed, hstop, rfl⟩
  | recorded =>
    obtain rfl := Option.some.inj hr'
    exact .inr ⟨by simp, hpc', noted _⟩
  | refusedRecord hpc | handedOut hpc =>
    obtain rfl := Option.some.inj hr'
    rcases hpc' with hpc' | ⟨_, _, _, hpc'⟩
    · cases hpc'
    · obtain ⟨_, _, rfl, rfl, _⟩ := Pc.forwarding.inj hpc'
      exact .inr ⟨by simp, .inr ⟨_, _, _, hpc⟩, noted _⟩
  | batchEnd hpc =>
    obtain rfl := Option.some.inj hr'
    rcases hpc' with hpc' | ⟨_, _, _, hpc'⟩
    · obtain rfl := Pc.ending.inj hpc'
      exact .inr ⟨by simp, .inr ⟨_, _, _, hpc⟩, fun _ h => h⟩
    · cases hpc'
  | sought | seekFailed | batchDone =>
    obtain rfl := Option.some.inj hr'
    rcases hpc' with hpc' | ⟨_, _, _, hpc'⟩ <;> dsimp only [goto] at hpc' <;> split at hpc' <;>
      cases hpc'
  | _ =>
    obtain rfl := Option.some.inj hr'
    rcases hpc' with hpc' | ⟨_, _, _, hpc'⟩ <;> cases hpc'

theorem EndsLog.step (h : EndsLog shard u) (hs : Step u owner shard lease a lease' u') :
    EndsLog shard u' := by
  intro r' hr' stop hpc'
  cases hs with
  | reader hr hs =>
    rcases hs.lastBatch hr' hpc' with ⟨_, _, hclosed, hstop, _⟩ | ⟨_, hpc, _⟩
    · exact ⟨hclosed, hstop⟩
    · exact h _ hr stop hpc
  | forgot => cases hr'
  | acquired =>
    obtain rfl := Option.some.inj hr'
    rcases hpc' with hpc' | ⟨_, _, _, hpc'⟩ <;> cases hpc'
  | @sent _ _ r _ _ hr =>
    obtain rfl := Option.some.inj hr'
    exact h r hr stop hpc'
  | _ => exact h r' hr' stop hpc'

theorem EndsLog.grows (h : EndsLog shard u) (hg : Shard.Grows shard shard') :
    EndsLog shard' u := by
  intro r hr stop hpc
  obtain ⟨hclosed, hstop⟩ := h r hr stop hpc
  obtain ⟨hclosed', hlog⟩ := hg.closed hclosed
  exact ⟨hclosed', hlog ▸ hstop⟩

/-- When the shard is marked finished, every delivery of an earlier tracker has settled and no
checkpoint of a delivery is still to be written. -/
def allSettled (u : Subscription) : SubAct → Bool
  | .reader (.markEnd _) => u.reader.all fun r => (u.trackers[r.tracker]?).all fun w =>
    !w.drained || u.deliveries.all fun d =>
      (d.tracker == r.tracker || d.phase.acked) && !(d.phase matches .writing _)
  | _ => true

theorem Step.begins (hs : Step u owner shard lease a lease' u') (hnil : u.gates = [])
    (hne : u'.gates ≠ []) : ∃ lineage now, a = .acquire lineage now := by
  cases hs with
  | acquired => exact ⟨_, _, rfl⟩
  | reader hr hs =>
    obtain ⟨r', hr'⟩ := hs.reader_isSome
    exact absurd ((hs.seat hr').2.1.trans hnil) hne
  | bump => simp [hnil] at hne
  | _ => exact absurd hnil hne

/-- The mark of a finished shard. -/
theorem Orderly.sealed {stop : Nat} {w : Watermark} (h : Orderly shard u) (hend : EndsLog shard u)
    (hr : u.reader = some r) (hpc : r.pc = .ending stop) (hw : u.trackers[r.tracker]? = some w)
    (hd : w.drained = true) (hs : Step u owner shard lease (.reader (.markEnd true)) lease' u')
    (hrow : lease'.checkpoint = some .shardEnd)
    (hok : allSettled u (.reader (.markEnd true)) = true) :
    Sealed shard lease' u' := by
  have hsettled : ∀ d ∈ u.deliveries, ∃ watermark, d.phase = .settled watermark := by
    intro d hmem
    simp only [allSettled, hr, hw, hd, Option.all_some, Bool.not_true, Bool.false_or,
      List.all_eq_true, Bool.and_eq_true, Bool.or_eq_true, beq_iff_eq] at hok
    obtain ⟨hother, hwriting⟩ := hok d hmem
    have hacked : d.phase.acked = true := by
      rcases hother with htr | hacked
      · by_contra hnot
        obtain ⟨w', hw', e, he, _⟩ := h.outstanding.waits d hmem (by simpa using hnot)
        rw [htr, hw] at hw'
        obtain rfl := Option.some.inj hw'
        rw [List.isEmpty_iff.mp hd] at he
        cases he
      · exact hacked
    cases hp : d.phase <;> simp_all [Phase.acked]
  obtain ⟨hclosed, _⟩ := hend r hr stop (.inl hpc)
  refine ⟨hrow, hclosed, ?_, ?_⟩
  · cases hs with
    | reader _ hs => cases hs <;> exact hsettled
  · intro r' hr'
    cases hs with
    | reader _ hs =>
      cases hs with
      | markedEnd | leftEnd =>
        obtain rfl := Option.some.inj hr'
        exact .inr (.inl ⟨_, rfl⟩)

end Subscription

namespace Stream

open Subscription

variable {Owner : Type} [DecidableEq Owner] {owner : Owner} {w w' : Stream Owner}
variable {act : StreamAct} {k p : Nat} {a : SubAct}

/-- All that was handed out of the shard has settled, and its reader is at the end. -/
def atRest (shard : Shard) (u : Subscription) : Bool :=
  u.deliveries.all (fun d => d.phase.acked) &&
    u.reader.all fun r => r.position.all fun p => decide (shard.log.length ≤ p)

/-- A parent counts as skipped only at rest, and from then on its readers stay at its end; and a
shard is marked finished only when all of it has settled. -/
def inOrder (w : Stream Owner) : StreamAct → Bool
  | .coordinator (.row true) =>
    match w.pass with
    | .gating k (p :: _) _ _ =>
      (w.lease p).checkpoint.isSome || !startsAtTip (w.sub k).installed ||
        (w.known.all fun s => s.id != p || !s.closed) || atRest (w.node p).shard (w.sub p)
    | _ => true
  | .sub k a =>
    (!w.skipped k || staysAtEnd (w.node k).shard (w.sub k) a) && allSettled (w.sub k) a
  | _ => true

/-- What lets a shard start: a parent is marked finished or was skipped. -/
def Passed (w : Stream Owner) (p : Nat) : Prop :=
  (w.lease p).checkpoint = some .shardEnd ∨ w.skipped p = true

/-- What holds of every shard in a run whose steps are in order. -/
structure Ordered (w : Stream Owner) : Prop where
  charted : Charted w
  examined : Examined (fun w _ p => Passed w p) w
  orderly : ∀ k, Subscription.Orderly (w.node k).shard (w.sub k)
  endsLog : ∀ k, EndsLog (w.node k).shard (w.sub k)
  ended : ∀ k, (w.lease k).checkpoint = some .shardEnd →
    Sealed (w.node k).shard (w.lease k) (w.sub k)
  skipped : ∀ k, w.skipped k = true → Quiet (w.node k).shard (w.sub k)
  within : ∀ k, (w.sub k).gates ≠ [] → k < w.count
  begun : ∀ k, (w.sub k).gates ≠ [] → ∀ p ∈ (w.node k).parents, (w.node p).listed = true →
    Passed w p

omit [DecidableEq Owner] in
theorem Ordered.fresh (h : Fresh w) (hclosed : w.MarksClosed) : Ordered w where
  charted := .fresh h
  examined k rest lineage hex := by
    rw [h.pass] at hex
    cases hex
  orderly k := h.sub k ▸ .init
  endsLog k r hr := by
    rw [h.sub k] at hr
    cases hr
  ended k hck := by
    refine ⟨hck, hclosed k hck, ?_, ?_⟩
    · simp [h.sub k]
    · simp [h.sub k]
  skipped k hk := absurd ((h.skipped k).symm.trans hk) (by simp)
  within k hne := absurd (by rw [h.sub k]) hne
  begun k hne := absurd (by rw [h.sub k]) hne

omit [DecidableEq Owner] in
theorem Ordered.passed_quiet (h : Ordered w) (hp : Passed w p) :
    Quiet (w.node p).shard (w.sub p) :=
  hp.elim (fun hck => (h.ended p hck).quiet) (h.skipped p)

omit [DecidableEq Owner] in
theorem does_inOrder (h : Does w act k a) (hok : inOrder w act = true) :
    (w.skipped k = true → staysAtEnd (w.node k).shard (w.sub k) a = true) ∧
      allSettled (w.sub k) a = true := by
  cases h with
  | own =>
    obtain ⟨hstay, hsettled⟩ := Bool.and_eq_true_iff.mp hok
    exact ⟨fun hk => by simpa [hk] using hstay, hsettled⟩
  | _ => exact ⟨fun _ => rfl, rfl⟩

theorem Step.skipped_mono (h : Step owner w act w') (hp : w.skipped p = true) :
    w'.skipped p = true := by
  cases h with
  | coordinator h =>
    cases h with
    | passed => exact mark_mono hp
    | _ => exact hp
  | advance _ h => cases h <;> exact hp
  | sub =>
    simp only [noting]
    split <;> exact hp
  | _ => exact hp

theorem Step.skips (h : Step owner w act w') (hp : w'.skipped p = true) : w.skipped p = true ∨
    ∃ k rest outcome todo s, act = .coordinator (.row true) ∧
      w.pass = .gating k (p :: rest) outcome todo ∧ s ∈ w.known ∧ s.id = p ∧
      s.closed = true ∧ startsAtTip (w.sub k).installed = true ∧
      (w.lease p).checkpoint = none := by
  cases h with
  | coordinator h =>
    cases h with
    | @passed k s rest outcome todo hpass hs hne =>
      rcases mark_cases hp with hp | ⟨rfl, hnone⟩
      · exact .inl hp
      · have hnone' : (w.lease s.id).checkpoint = none := by simpa using hnone
        rw [hnone'] at hne
        simp only [Parents.afterRow] at hne
        split at hne
        · rename_i htip
          obtain ⟨hclosed, htip⟩ := Bool.and_eq_true_iff.mp htip
          exact .inr ⟨k, rest, outcome, todo, s, rfl, hpass, hs, rfl, hclosed, htip, hnone'⟩
        · exact absurd rfl hne
    | _ => exact .inl hp
  | advance _ h => cases h <;> exact .inl hp
  | sub =>
    simp only [noting] at hp
    split at hp <;> exact .inl hp
  | _ => exact .inl hp

theorem Ordered.ended_step (h : Ordered w) (hs : Step owner w act w')
    (hok : inOrder w act = true) (hck : (w'.lease k).checkpoint = some .shardEnd) :
    Sealed (w'.node k).shard (w'.lease k) (w'.sub k) := by
  refine Sealed.grows ?_ (hs.evolves.grows k)
  rcases hs.at k with ⟨hsub, hlease⟩ | ⟨a, hdoes, h'⟩
  · rw [hlease] at hck ⊢
    exact hsub ▸ h.ended k hck
  · have hold : (w.lease k).checkpoint = some .shardEnd →
        Sealed (w.node k).shard (w'.lease k) (w'.sub k) := fun hck => (h.ended k hck).step h'
    cases h'.row with
    | kept hc | taken hc => exact hold (hc.symm.trans hck)
    | opened _ _ _ _ hl => exact hold (by simpa [hl] using hck)
    | ended hr hpc hw hd ha =>
      subst ha
      exact (h.orderly k).sealed (h.endsLog k) hr hpc hw hd h' hck (does_inOrder hdoes hok).2
    | written _ _ _ _ hl =>
      rw [hl] at hck
      cases hck

theorem Ordered.marked_step (h : Ordered w) (hck : (w.lease p).checkpoint = some .shardEnd)
    (hs : Step owner w act w') : (w'.lease p).checkpoint = some .shardEnd := by
  rcases hs.at p with ⟨_, hlease⟩ | ⟨a, _, h'⟩
  · exact hlease ▸ hck
  · exact ((h.ended p hck).step h').row

theorem Passed.step (hp : Passed w p) (h : Ordered w) (hs : Step owner w act w') :
    Passed w' p := hp.imp (fun hck => h.marked_step hck hs) hs.skipped_mono

omit [DecidableEq Owner] in
theorem atRest_iff {shard : Shard} {u : Subscription} : atRest shard u = true ↔
    (∀ d ∈ u.deliveries, d.phase.acked = true) ∧
      ∀ r p, u.reader = some r → r.position = some p → shard.log.length ≤ p := by
  simp only [atRest, Bool.and_eq_true, List.all_eq_true, Option.all_eq_true, decide_eq_true_eq]
  constructor
  · rintro ⟨hsettled, hend⟩
    exact ⟨hsettled, fun r p hr hp => hend r hr p hp⟩
  · rintro ⟨hsettled, hend⟩
    exact ⟨hsettled, fun r hr p hp => hend r p hr hp⟩

theorem Ordered.skipped_step (h : Ordered w) (hs : Step owner w act w')
    (hok : inOrder w act = true) (hk : w'.skipped k = true) :
    Quiet (w'.node k).shard (w'.sub k) := by
  refine Quiet.grows ?_ (hs.evolves.grows k)
  rcases hs.skips hk with hk | ⟨j, rest, outcome, todo, s, rfl, hpass, hmem, rfl, hclosed, htip,
    hnone⟩
  · rcases hs.at k with ⟨hsub, _⟩ | ⟨a, hdoes, h'⟩
    · exact hsub ▸ h.skipped k hk
    · exact (h.skipped k hk).step h' ((does_inOrder hdoes hok).1 hk)
  · have hrest : atRest (w.node s.id).shard (w.sub s.id) = true := by
      simp only [inOrder, hpass, hnone, htip, Option.isSome_none, Bool.not_true, Bool.false_or,
        Bool.or_eq_true, List.all_eq_true, bne_iff_ne, Bool.not_eq_true'] at hok
      rcases hok with hopen | hrest
      · rcases hopen s hmem with hne | hopen
        · exact absurd rfl hne
        · exact absurd (hclosed.symm.trans hopen) (by simp)
      · exact hrest
    rcases hs.at s.id with ⟨hsub, _⟩ | ⟨a, hdoes, _⟩
    · obtain ⟨hsettled, hend⟩ := atRest_iff.mp hrest
      rw [hsub]
      exact ⟨h.charted.closed s hmem hclosed, hsettled, hend⟩
    · cases hdoes

theorem Ordered.begun_step (h : Ordered w) (hs : Step owner w act w')
    (hne : (w'.sub k).gates ≠ []) :
    k < w.count ∧ ∀ p ∈ (w.node k).parents, (w.node p).listed = true → Passed w p := by
  by_cases hold : (w.sub k).gates = []
  · rcases hs.at k with ⟨hsub, _⟩ | ⟨a, hdoes, h'⟩
    · exact absurd (hsub ▸ hold) hne
    · obtain ⟨lineage, now, rfl⟩ := h'.begins hold hne
      cases hdoes with
      | own hown => cases hown
      | acquire hpass =>
        have hex : w.pass.examining = some (k, [], some lineage) := by rw [hpass]; rfl
        obtain ⟨⟨s, hmem, rfl⟩, _⟩ := h.charted.examining _ _ _ hex
        exact ⟨h.charted.id_lt s hmem, fun p hp hl => h.examined _ [] lineage hex p hp hl (by simp)⟩
  · exact ⟨h.within k hold, h.begun k hold⟩

theorem Ordered.step (h : Ordered w) (hs : Step owner w act w') (hok : inOrder w act = true) :
    Ordered w' where
  charted := h.charted.step hs
  examined := by
    refine h.examined.step h.charted hs (fun _ _ hp => hp.step h hs) ?_
    intro k s rest outcome todo installed lineage _ _ _ hl hskipped
    refine ⟨?_, fun _ _ _ hp => hp⟩
    cases hck : (w.lease s.id).checkpoint with
    | none =>
      refine .inr ?_
      rw [hskipped, hck]
      exact mark_self
    | some c =>
      cases c with
      | shardEnd => exact Passed.step (.inl hck) h hs
      | sequence =>
        rw [hck] at hl
        cases hl
  orderly k :=
    hs.keeps (h.orderly k) (fun _ _ _ h hg => h.grows hg) fun _ _ h' => (h.orderly k).step h'
  endsLog k :=
    hs.keeps (h.endsLog k) (fun _ _ _ h hg => h.grows hg) fun _ _ h' => (h.endsLog k).step h'
  ended k hck := h.ended_step hs hok hck
  skipped k hk := h.skipped_step hs hok hk
  within k hne := Nat.lt_of_lt_of_le (h.begun_step hs hne).1 hs.evolves.count
  begun k hne p hp hl := by
    obtain ⟨hlt, hpassed⟩ := h.begun_step hs hne
    exact (hpassed p (hs.evolves.parents k hlt ▸ hp) (hs.evolves.listed p hl)).step h hs

theorem Ordered.passed_step (h : Ordered w) (hp : Passed w p) (hs : Step owner w act w') :
    (w'.sub p).deliveries.length = (w.sub p).deliveries.length := by
  rcases hs.at p with ⟨hsub, _⟩ | ⟨a, _, h'⟩
  · rw [hsub]
  · exact ((h.passed_quiet hp).deliveries h').1

/-- When a record of a child is handed out, each parent that is still listed has settled all its
deliveries and will hand out no more, in a run whose steps are in order. -/
theorem parents_first {w₀ w₁ : Stream Owner} (hfresh : Fresh w₀) (hclosed : w₀.MarksClosed)
    (hrun : Run (step owner) (fun w act => inOrder w act = true) w₀ w)
    (hp : p ∈ (w.node k).parents) (hlisted : (w.node p).listed = true)
    (hhand : step owner w (.sub k (.reader .handOut)) = some w')
    (hlater : Run (step owner) (fun w act => inOrder w act = true) w' w₁) :
    (∀ d ∈ (w.sub p).deliveries, d.phase.acked = true) ∧
      (w₁.sub p).deliveries.length = (w.sub p).deliveries.length := by
  have keep : ∀ w act w', Ordered w → inOrder w act = true → step owner w act = some w' →
      Ordered w' := fun w act w' h hok hs => h.step (step_cases hs) hok
  have horder : Ordered w := hrun.invariant keep (.fresh hfresh hclosed)
  have hs := step_cases hhand
  have hreader : (w.sub k).gates ≠ [] := by
    intro hnil
    cases hs with
    | grows hact => rcases hact with hact | ⟨_, hact⟩ | hact <;> cases hact
    | sub _ hs =>
      cases hs with
      | reader hr =>
        have hlt := ((horder.orderly k).sound.seated _ hr).2
        simp [hnil] at hlt
  have hpassed : Passed w p := horder.begun k hreader p hp hlisted
  refine ⟨(horder.passed_quiet hpassed).settled, ?_⟩
  have hend : Ordered w₁ ∧ Passed w₁ p ∧
      (w₁.sub p).deliveries.length = (w.sub p).deliveries.length := by
    refine hlater.invariant (I := fun w₁ => Ordered w₁ ∧ Passed w₁ p ∧
      (w₁.sub p).deliveries.length = (w.sub p).deliveries.length) ?_ ?_
    · rintro w act w' ⟨h, hp, hlen⟩ hok hs
      exact ⟨keep w act w' h hok hs, hp.step h (step_cases hs),
        (h.passed_step hp (step_cases hs)).trans hlen⟩
    · exact ⟨keep _ _ _ horder (by simp [inOrder, staysAtEnd, allSettled]) hhand,
        hpassed.step horder hs, horder.passed_step hpassed hs⟩
  exact hend.2.2

/-- The child is acquired, and its reader comes to a first record it may hand out. -/
def readingChild : List StreamAct := [
  .coordinator (.acquire true 0), .sub 1 (.reader (.readRow true)),
  .sub 1 (.reader (.openIterator .iterator)), .append 1 [3]] ++ reading 1 false

/-- The parent is split before anything of it was read. -/
theorem parents_first_fails : ∃ w w' w₁ : Stream Nat,
    exec (step 0) single (openingSingle ++ splitting ++ visitingChild ++ readingChild) = some w ∧
      0 ∈ (w.node 1).parents ∧ (w.node 0).listed = true ∧
      step 0 w (.sub 1 (.reader .handOut)) = some w' ∧
      (w'.sub 1).deliveries.length = (w.sub 1).deliveries.length + 1 ∧
      exec (step 0) w' (reading 0 true ++ [.sub 0 (.reader .handOut)]) = some w₁ ∧
      (w₁.sub 0).deliveries.length ≠ (w.sub 0).deliveries.length := by
  have hrun : ((exec (step 0) single
      (openingSingle ++ splitting ++ visitingChild ++ readingChild)).bind fun w =>
        (step 0 w (.sub 1 (.reader .handOut))).bind fun w' =>
          (exec (step 0) w' (reading 0 true ++ [.sub 0 (.reader .handOut)])).map fun w₁ =>
            (w.node 1).parents == [0] && (w.node 0).listed &&
              (w'.sub 1).deliveries.length == (w.sub 1).deliveries.length + 1 &&
              (w₁.sub 0).deliveries.length != (w.sub 0).deliveries.length) = some true := by
    decide
  obtain ⟨w, hw, hrun⟩ := Option.bind_eq_some_iff.mp hrun
  obtain ⟨w', hw', hrun⟩ := Option.bind_eq_some_iff.mp hrun
  obtain ⟨w₁, hw₁, hrun⟩ := Option.map_eq_some_iff.mp hrun
  simp only [Bool.and_eq_true, beq_iff_eq, bne_iff_ne] at hrun
  obtain ⟨⟨⟨hp, hlisted⟩, hhanded⟩, hmore⟩ := hrun
  exact ⟨w, w', w₁, hw, by simp [hp], hlisted, hw', hhanded, hw₁, hmore⟩

/-- The parent is finished before its child is read. -/
theorem parents_first_finished : ∃ w w' w₁ : Stream Nat,
    check (step 0) inOrder single
        (openingSingle ++ splitting ++ finishing ++ visitingAfter ++ readingChild) = some w ∧
      step 0 w (.sub 1 (.reader .handOut)) = some w' ∧
      check (step 0) inOrder w' [.sub 1 .poll] = some w₁ ∧
      (∀ d ∈ (w.sub 0).deliveries, d.phase.acked = true) ∧
      (w₁.sub 0).deliveries.length = (w.sub 0).deliveries.length := by
  have hrun : ((check (step 0) inOrder single
      (openingSingle ++ splitting ++ finishing ++ visitingAfter ++ readingChild)).bind fun w =>
        (step 0 w (.sub 1 (.reader .handOut))).bind fun w' =>
          (check (step 0) inOrder w' [.sub 1 .poll]).map fun _ =>
            (w.node 1).parents == [0] && (w.node 0).listed) = some true := by decide
  obtain ⟨w, hw, hrun⟩ := Option.bind_eq_some_iff.mp hrun
  obtain ⟨w', hw', hrun⟩ := Option.bind_eq_some_iff.mp hrun
  obtain ⟨w₁, hw₁, hrun⟩ := Option.map_eq_some_iff.mp hrun
  obtain ⟨hp, hlisted⟩ := Bool.and_eq_true_iff.mp hrun
  have hparent : 0 ∈ (w.node 1).parents := by simp [beq_iff_eq.mp hp]
  obtain ⟨hsettled, hlater⟩ := parents_first single_fresh single_marksClosed (.of_check hw)
    hparent hlisted hw' (.of_check hw₁)
  exact ⟨w, w', w₁, hw, hw', hw₁, hsettled, hlater⟩

end Stream

end RuststreamKinesis
