import RuststreamKinesis.Coverage

/-!
# Where a reader stands and what it goes by

`Reader.position` is the next record a reader would hand out. `Step.moved` says how a step gets a
reader to its position, `Step.asked` how a cursor is chosen, `Step.row` what becomes of the lease
row, and `Step.carried` where the places handed from one reader to the next come from.
-/

namespace RuststreamKinesis

set_option autoImplicit false

open Window

/-- The next record the reader would hand out, once it has its first iterator. -/
def Reader.position (r : Reader) : Option Nat :=
  match r.pc with
  | .opening false | .fetching _ _ false | .releasing _ | .exited _ => none
  | .forwarding _ next _ _ _ => some next
  | .ending stop => some stop
  | _ => some r.iterator

theorem Reader.position_forwarding {r : Reader} {epoch next stop : Nat} {last idle : Bool}
    (hpc : r.pc = .forwarding epoch next stop last idle) : r.position = some next := by
  simp only [Reader.position, hpc]

namespace Subscription

variable {Owner : Type} [DecidableEq Owner]

/-- How reader `r` becomes `r'` at position `p`. -/
inductive Moved (u u' : Subscription) (owner : Owner) (shard : Shard)
    (lease lease' : MemoryLease Owner) (a : SubAct) (r r' : Reader) (p : Nat) : Prop where
  | stays (hp : r.position = some p) (ht : r'.tracker = r.tracker) (hr : r'.reading = r.reading)
  | opened {start : ShardStart} {recorded again : Bool} (ha : a = .reader (.openIterator .iterator))
      (hpc : r.pc = .fetching start recorded again)
      (hp : shard.getShardIterator (iteratorAt start) = some p) (ht : r'.tracker = r.tracker)
      (hr : r'.reading = { rewind := rewindTo start, unrecorded := !recorded })
  | sought {call : Nat} {idle : Bool} {c : SeekCall} (hpc : r.pc = .seeking call idle)
      (hc : u.calls[call]? = some c) (hp : shard.getShardIterator (iteratorAt c.start) = some p)
      (ht : r'.tracker = u.trackers.length) (hts : u'.trackers = u.trackers ++ [({} : Watermark)])
      (hr : r'.reading = { rewind := rewindTo c.start, unrecorded := true })
      (ha : a = .reader (.applySeek .iterator))
  | recorded {epoch stop : Nat} {last idle : Bool} (hpc : r.pc = .forwarding epoch p stop last idle)
      (hun : r.reading.unrecorded = true) (hown : lease.owner = some owner)
      (hl : lease' = { lease with openedAt := some p }) (ht : r'.tracker = r.tracker)
      (hr : r'.reading = { r.reading.noteFirst p with unrecorded := false }) (hlt : p < stop)
  | handed {epoch n stop : Nat} {last idle : Bool} {record : Record}
      (hpc : r.pc = .forwarding epoch n stop last idle) (hn : p = n + 1)
      (hun : r.reading.unrecorded = false) (hlog : shard.log[n]? = some record)
      (ht : r'.tracker = r.tracker) (hr : r'.reading = r.reading.noteFirst n)
      (hout : (record.aggregated = true ∧ u'.refused = u.refused ++ [n]) ∨
        ∃ w, u'.trackers[r.tracker]? = some w ∧ n ∈ w.pending.map Entry.sequence)
      (hlt : n < stop)

variable {u u' : Subscription} {owner : Owner} {shard : Shard} {lease lease' : MemoryLease Owner}
variable {r r' : Reader} {act : ReaderAct} {a : SubAct} {p : Nat}

theorem ReaderStep.moved (h : ReaderStep u owner shard lease r act lease' u')
    (hr' : u'.reader = some r') (hp : r'.position = some p) :
    Moved u u' owner shard lease lease' (.reader act) r r' p := by
  cases h with
  | opened hpc hget =>
    obtain rfl := Option.some.inj hr'
    obtain rfl := Option.some.inj hp
    exact .opened rfl hpc hget rfl rfl
  | sought hpc hc hget =>
    obtain rfl := Option.some.inj hr'
    rename_i idle _ q
    obtain rfl : q = p := by cases idle <;> exact Option.some.inj hp
    exact .sought hpc hc hget rfl rfl rfl rfl
  | @recorded _ next _ _ _ hpc hlt hun hown =>
    obtain rfl := Option.some.inj hr'
    obtain rfl : next = p := by
      simp only [Reader.position, hpc] at hp
      exact Option.some.inj hp
    exact .recorded hpc hun hown rfl rfl rfl hlt
  | refusedRecord hpc hlt hun hlog hagg =>
    obtain rfl := Option.some.inj hr'
    obtain rfl := Option.some.inj hp
    exact .handed hpc rfl hun hlog rfl rfl (.inl ⟨hagg, rfl⟩) hlt
  | handedOut hpc hlt hun hlog _ _ _ hw =>
    obtain rfl := Option.some.inj hr'
    obtain rfl := Option.some.inj hp
    refine .handed hpc rfl hun hlog rfl rfl (.inr ⟨_, Cells.get_set_self hw, ?_⟩) hlt
    simp [Watermark.deliver]
  | batchDone hpc =>
    obtain rfl := Option.some.inj hr'
    rename_i idle
    refine .stays ?_ rfl rfl
    simp only [Reader.position, hpc]
    cases idle <;> exact hp
  | rowRetry hpc | openRetry hpc | sawOpen hpc | takeDraining hpc | takeIdle hpc | drained hpc
  | renewed hpc | notDue hpc | stamp hpc | gotRecords hpc | throttled hpc
  | expired hpc | retry hpc | batchEnd hpc | wake hpc =>
    obtain rfl := Option.some.inj hr'
    refine .stays ?_ rfl rfl
    simp only [Reader.position, hpc]
    exact hp
  | @seekFailed call idle c reply hpc =>
    obtain rfl := Option.some.inj hr'
    refine .stays ?_ rfl rfl
    simp only [Reader.position, hpc]
    cases idle <;> exact hp
  | @rowCheckpoint again c hpc =>
    obtain rfl := Option.some.inj hr'
    refine .stays ?_ rfl rfl
    simp only [Reader.position, hpc]
    cases again <;> exact hp
  | @rowBlank again hpc =>
    obtain rfl := Option.some.inj hr'
    refine .stays ?_ rfl rfl
    simp only [Reader.position, hpc]
    cases again <;> exact hp
  | _ =>
    obtain rfl := Option.some.inj hr'
    cases hp

/-- A reader stands somewhere only through a step of its own, or because it stood there. -/
theorem Step.moved (h : Step u owner shard lease a lease' u') (hr' : u'.reader = some r')
    (hp : r'.position = some p) :
    ∃ r, u.reader = some r ∧ Moved u u' owner shard lease lease' a r r' p := by
  cases h with
  | reader hr h => exact ⟨_, hr, h.moved hr' hp⟩
  | forgot => cases hr'
  | acquired =>
    obtain rfl := Option.some.inj hr'
    cases hp
  | sent _ _ hr =>
    obtain rfl := Option.some.inj hr'
    exact ⟨_, hr, .stays hp rfl rfl⟩
  | _ => exact ⟨r', hr', .stays hp rfl rfl⟩

/-- How a reader comes to ask for the iterator of a cursor. -/
inductive Asked (u : Subscription) (lease : MemoryLease Owner) (a : SubAct) (r r' : Reader)
    (start : ShardStart) (recorded again : Bool) : Prop where
  | stays (hpc : r.pc = .fetching start recorded again) (hr : r'.reading = r.reading)
      (ht : r'.tracker = r.tracker) (hl : r'.lineage = r.lineage)
  | checkpoint {c : Nat} (ha : a = .reader (.readRow true)) (hpc : r.pc = .opening again)
      (hr : r'.reading = r.reading)
      (ht : r'.tracker = r.tracker) (hl : r'.lineage = r.lineage)
      (hc : lease.checkpoint = some (.sequence c)) (hs : start = .afterSeq c)
      (hrec : recorded = true)
  | blank (ha : a = .reader (.readRow true)) (hpc : r.pc = .opening again)
      (hr : r'.reading = r.reading)
      (ht : r'.tracker = r.tracker) (hl : r'.lineage = r.lineage)
      (hc : lease.checkpoint = none)
      (hs : start = reopenAt none lease.openedAt r.reading.rewind r.lineage u.installed)
      (hrec : recorded = lease.openedAt.isSome)

theorem ReaderStep.asked {start : ShardStart} {recorded again : Bool}
    (h : ReaderStep u owner shard lease r act lease' u') (hr' : u'.reader = some r')
    (hpc' : r'.pc = .fetching start recorded again) :
    Asked u lease (.reader act) r r' start recorded again := by
  cases h with
  | rowCheckpoint hpc hc =>
    obtain rfl := Option.some.inj hr'
    obtain ⟨rfl, rfl, rfl⟩ := Pc.fetching.inj hpc'
    exact .checkpoint rfl hpc rfl rfl rfl hc rfl rfl
  | rowBlank hpc hc =>
    obtain rfl := Option.some.inj hr'
    obtain ⟨rfl, rfl, rfl⟩ := Pc.fetching.inj hpc'
    exact .blank rfl hpc rfl rfl rfl hc rfl rfl
  | recorded hpc =>
    obtain rfl := Option.some.inj hr'
    exact absurd (hpc.symm.trans hpc') (by simp)
  | sought | seekFailed | batchDone =>
    obtain rfl := Option.some.inj hr'
    dsimp only [Subscription.goto] at hpc'
    split at hpc' <;> cases hpc'
  | _ =>
    obtain rfl := Option.some.inj hr'
    cases hpc'

theorem Step.asked {start : ShardStart} {recorded again : Bool}
    (h : Step u owner shard lease a lease' u') (hr' : u'.reader = some r')
    (hpc' : r'.pc = .fetching start recorded again) :
    ∃ r, u.reader = some r ∧ Asked u lease a r r' start recorded again := by
  cases h with
  | reader hr h => exact ⟨_, hr, h.asked hr' hpc'⟩
  | forgot => cases hr'
  | acquired =>
    obtain rfl := Option.some.inj hr'
    cases hpc'
  | sent _ _ hr =>
    obtain rfl := Option.some.inj hr'
    exact ⟨_, hr, .stays hpc' rfl rfl rfl⟩
  | _ => exact ⟨r', hr', .stays hpc' rfl rfl rfl⟩

theorem Step.rowRead {start : ShardStart} {recorded again : Bool}
    (h : Step u owner shard lease (.reader (.readRow true)) lease' u')
    (hr' : u'.reader = some r') (hpc' : r'.pc = .fetching start recorded again) :
    ∃ r, u.reader = some r ∧ r'.tracker = r.tracker ∧
      ((∃ c, lease.checkpoint = some (.sequence c) ∧ start = .afterSeq c) ∨
        (lease.checkpoint = none ∧
          start = reopenAt none lease.openedAt r.reading.rewind r.lineage u.installed)) := by
  cases h with
  | reader hr h =>
    cases h with
    | rowEnd =>
      obtain rfl := Option.some.inj hr'
      cases hpc'
    | rowCheckpoint _ hc =>
      obtain rfl := Option.some.inj hr'
      exact ⟨_, hr, rfl, .inl ⟨_, hc, (Pc.fetching.inj hpc').1.symm⟩⟩
    | rowBlank _ hc =>
      obtain rfl := Option.some.inj hr'
      exact ⟨_, hr, rfl, .inr ⟨hc, (Pc.fetching.inj hpc').1.symm⟩⟩

/-- What becomes of the progress a row holds, and of its owner. -/
inductive Row (u : Subscription) (owner : Owner) (lease lease' : MemoryLease Owner)
    (a : SubAct) : Prop where
  | kept (hc : lease'.checkpoint = lease.checkpoint) (ho : lease'.openedAt = lease.openedAt)
      (hown : lease'.owner = lease.owner ∨ lease'.owner = none)
  | taken (hc : lease'.checkpoint = lease.checkpoint) (ho : lease'.openedAt = lease.openedAt)
      (hown : lease'.owner = some owner) (hr : u.reader = none)
  | opened {r : Reader} {epoch n stop : Nat} {last idle : Bool} (hr : u.reader = some r)
      (hpc : r.pc = .forwarding epoch n stop last idle) (hun : r.reading.unrecorded = true)
      (hown : lease.owner = some owner) (hl : lease' = { lease with openedAt := some n })
      (hlt : n < stop)
  | ended {r : Reader} {stop : Nat} {w : Watermark} (hr : u.reader = some r)
      (hpc : r.pc = .ending stop) (hw : u.trackers[r.tracker]? = some w)
      (hd : w.drained = true) (ha : a = .reader (.markEnd true))
      (hl : lease' = { lease with checkpoint := some .shardEnd })
  | written {id c : Nat} {d : Delivery} (hd : u.deliveries[id]? = some d)
      (hphase : d.phase = .writing c) (ha : a = .write id true) (hown : lease.owner = some owner)
      (hl : lease' = { lease with checkpoint := some (.sequence c) })

theorem release_row (lease : MemoryLease Owner) (owner : Owner) :
    (lease.release owner).checkpoint = lease.checkpoint ∧
      (lease.release owner).openedAt = lease.openedAt ∧
      ((lease.release owner).owner = lease.owner ∨ (lease.release owner).owner = none) := by
  unfold MemoryLease.release
  split
  · exact ⟨rfl, rfl, .inr rfl⟩
  · exact ⟨rfl, rfl, .inl rfl⟩

theorem Step.row (h : Step u owner shard lease a lease' u') : Row u owner lease lease' a := by
  cases h with
  | acquired hr => exact .taken rfl rfl rfl hr
  | written hd hphase hown => exact .written hd hphase rfl hown rfl
  | reader hr h =>
    cases h with
    | recorded hpc hlt hun hown => exact .opened hr hpc hun hown rfl hlt
    | markedEnd hpc hw hd => exact .ended hr hpc hw hd rfl rfl
    | release =>
      obtain ⟨hc, ho, hown⟩ := release_row lease owner
      exact .kept hc ho hown
    | _ => exact .kept rfl rfl (.inl rfl)
  | _ => exact .kept rfl rfl (.inl rfl)

omit [DecidableEq Owner] in
theorem Row.openedAt (h : Row u owner lease lease' a) : lease'.openedAt = lease.openedAt ∨
    ∃ r n, u.reader = some r ∧ r.position = some n ∧ r.reading.unrecorded = true ∧
      lease.owner = some owner ∧ lease' = { lease with openedAt := some n } := by
  cases h with
  | kept _ ho => exact .inl ho
  | taken _ ho => exact .inl ho
  | opened hr hpc hun hown hl =>
    exact .inr ⟨_, _, hr, Reader.position_forwarding hpc, hun, hown, hl⟩
  | ended _ _ _ _ _ hl => exact .inl (hl ▸ rfl)
  | written _ _ _ _ hl => exact .inl (hl ▸ rfl)

omit [DecidableEq Owner] in
theorem Row.sequence {c : Nat} (h : Row u owner lease lease' a)
    (hc' : lease'.checkpoint = some (.sequence c)) : lease.checkpoint = some (.sequence c) ∨
      ∃ d ∈ u.deliveries, d.phase = .writing c := by
  cases h with
  | kept hc => exact .inl (hc ▸ hc')
  | taken hc => exact .inl (hc ▸ hc')
  | opened _ _ _ _ hl =>
    rw [hl] at hc'
    exact .inl hc'
  | ended _ _ _ _ _ hl =>
    rw [hl] at hc'
    cases hc'
  | written hd hphase _ _ hl =>
    rw [hl] at hc'
    obtain rfl := Checkpoint.sequence.inj (Option.some.inj hc')
    exact .inr ⟨_, List.mem_of_getElem? hd, hphase⟩

omit [DecidableEq Owner] in
theorem Row.owned {o : Owner} (h : Row u owner lease lease' a) (ho : lease'.owner = some o) :
    lease.owner = some o ∨ (owner = o ∧ u.reader = none) := by
  cases h with
  | kept _ _ hown =>
    rcases hown with hown | hown
    · exact .inl (hown ▸ ho)
    · rw [hown] at ho
      cases ho
  | taken _ _ hown hr => exact .inr ⟨Option.some.inj (hown.symm.trans ho), hr⟩
  | opened _ _ _ _ hl =>
    rw [hl] at ho
    exact .inl ho
  | ended _ _ _ _ _ hl =>
    rw [hl] at ho
    exact .inl ho
  | written _ _ _ _ hl =>
    rw [hl] at ho
    exact .inl ho

/-- The places kept for a later cursor of this shard, in memory or on the way there. -/
def Carried (u : Subscription) (start : ShardStart) : Prop :=
  u.rewind = some start ∨ ∃ r, u.reader = some r ∧
    (r.reading.rewind = some start ∨ r.pc = .releasing (some start) ∨
      r.pc = .exited (some start))

/-- Where a carried place comes from. -/
inductive Origin (u : Subscription) (start : ShardStart) : Prop where
  | old (h : Carried u start)
  | cursor {r : Reader} {recorded again : Bool} (hr : u.reader = some r)
      (hpc : r.pc = .fetching start recorded again) (hne : start ≠ .stream .latest)
  | seek {call : Nat} {c : SeekCall} (hc : u.calls[call]? = some c) (hs : start = c.start)
      (hne : start ≠ .stream .latest)
  | first {r : Reader} {epoch n stop : Nat} {last idle : Bool} (hr : u.reader = some r)
      (hpc : r.pc = .forwarding epoch n stop last idle) (hs : start = .atSeq n)
      (hnone : r.reading.rewind = none) (hlt : n < stop)

theorem Carried.reading {start : ShardStart} (hr : u.reader = some r)
    (h : r.reading.rewind = some start) : Origin u start := .old (.inr ⟨r, hr, .inl h⟩)

theorem noteFirst_origin {start : ShardStart} {epoch n stop : Nat} {last idle : Bool}
    (hr : u.reader = some r) (hpc : r.pc = .forwarding epoch n stop last idle) (hlt : n < stop)
    (h : (r.reading.noteFirst n).rewind = some start) : Origin u start := by
  cases hrew : r.reading.rewind with
  | none =>
    have hs : start = .atSeq n := by simpa [Reading.noteFirst, hrew] using h.symm
    exact .first hr hpc hs hrew hlt
  | some place =>
    have hs : place = start := by simpa [Reading.noteFirst, hrew] using h
    exact Carried.reading hr (hs ▸ hrew)

theorem ReaderStep.rewind (h : ReaderStep u owner shard lease r act lease' u') :
    u'.rewind = u.rewind := by
  cases h <;> rfl

theorem ReaderStep.carried {start : ShardStart} (hr : u.reader = some r)
    (h : ReaderStep u owner shard lease r act lease' u') (hr' : u'.reader = some r')
    (hc : r'.reading.rewind = some start ∨ r'.pc = .releasing (some start) ∨
      r'.pc = .exited (some start)) : Origin u start := by
  cases h with
  | opened hpc =>
    obtain rfl := Option.some.inj hr'
    rcases hc with hc | hc | hc
    · obtain ⟨rfl, hne⟩ := rewindTo_eq_some.mp hc
      exact .cursor hr hpc hne
    · cases hc
    · cases hc
  | @sought call idle c p hpc hcall =>
    obtain rfl := Option.some.inj hr'
    rcases hc with hc | hc | hc
    · obtain ⟨rfl, hne⟩ := rewindTo_eq_some.mp hc
      exact .seek hcall rfl hne
    · cases idle <;> cases hc
    · cases idle <;> cases hc
  | @seekFailed call idle =>
    obtain rfl := Option.some.inj hr'
    rcases hc with hc | hc | hc
    · exact Carried.reading hr hc
    · cases idle <;> cases hc
    · cases idle <;> cases hc
  | @batchDone epoch stop idle =>
    obtain rfl := Option.some.inj hr'
    rcases hc with hc | hc | hc
    · exact Carried.reading hr hc
    · cases idle <;> cases hc
    · cases idle <;> cases hc
  | release hpc =>
    obtain rfl := Option.some.inj hr'
    rcases hc with hc | hc | hc
    · exact Carried.reading hr hc
    · cases hc
    · obtain rfl := Pc.exited.inj hc
      exact .old (.inr ⟨r, hr, .inr (.inl hpc)⟩)
  | recorded hpc hlt =>
    obtain rfl := Option.some.inj hr'
    rcases hc with hc | hc | hc
    · exact noteFirst_origin hr hpc hlt hc
    · exact .old (.inr ⟨r, hr, .inr (.inl hc)⟩)
    · exact .old (.inr ⟨r, hr, .inr (.inr hc)⟩)
  | notRecorded hpc hlt =>
    obtain rfl := Option.some.inj hr'
    rcases hc with hc | hc | hc
    · exact noteFirst_origin hr hpc hlt hc
    · cases hc
    · exact noteFirst_origin hr hpc hlt (Pc.exited.inj hc)
  | refusedRecord hpc hlt | handClosedRefused hpc hlt | handClosed hpc hlt | handedOut hpc hlt =>
    obtain rfl := Option.some.inj hr'
    rcases hc with hc | hc | hc
    · exact noteFirst_origin hr hpc hlt hc
    · cases hc
    · cases hc
  | rowFailClosed | rowFail | openFailClosed | openFail | fenced | renewFails =>
    obtain rfl := Option.some.inj hr'
    rcases hc with hc | hc | hc
    · exact Carried.reading hr hc
    · cases hc
    · exact Carried.reading hr (Pc.exited.inj hc)
  | gaveUpExpired | gaveUp =>
    obtain rfl := Option.some.inj hr'
    rcases hc with hc | hc | hc
    · exact Carried.reading hr hc
    · exact Carried.reading hr (Pc.releasing.inj hc)
    · cases hc
  | _ =>
    obtain rfl := Option.some.inj hr'
    rcases hc with hc | hc | hc
    · exact Carried.reading hr hc
    · cases hc
    · cases hc

theorem ReaderStep.reader_isSome (h : ReaderStep u owner shard lease r act lease' u') :
    ∃ r', u'.reader = some r' := by
  cases h <;> exact ⟨_, rfl⟩

/-- Whatever place is carried over was a cursor that was opened, a place that was sought or the
first record read from the tip. -/
theorem Step.carried {start : ShardStart} (h : Step u owner shard lease a lease' u')
    (hc : Carried u' start) : Origin u start := by
  cases h with
  | reader hr h =>
    rcases hc with hc | ⟨r', hr', hc⟩
    · exact .old (.inl (h.rewind ▸ hc))
    · exact h.carried hr hr' hc
  | @forgot r rewind inBudget hr hpc =>
    rcases hc with hc | ⟨r', hr', _⟩
    · cases inBudget with
      | false => exact .old (.inl hc)
      | true =>
        cases rewind with
        | none => exact .old (.inl hc)
        | some place =>
          obtain rfl := Option.some.inj hc
          exact .old (.inr ⟨r, hr, .inr (.inr hpc)⟩)
    · cases hr'
  | acquired =>
    rcases hc with hc | ⟨r', hr', hc⟩
    · cases hc
    · obtain rfl := Option.some.inj hr'
      rcases hc with hc | hc | hc
      · exact .old (.inl hc)
      · cases hc
      · cases hc
  | sent _ _ hr =>
    rcases hc with hc | ⟨r', hr', hc⟩
    · exact .old (.inl hc)
    · obtain rfl := Option.some.inj hr'
      exact .old (.inr ⟨_, hr, hc⟩)
  | _ => exact .old hc

/-- The reader's tracker and gate are allocated. -/
def Seated (u : Subscription) : Prop :=
  ∀ r, u.reader = some r → r.tracker < u.trackers.length ∧ r.gate < u.gates.length

theorem ReaderStep.seat (h : ReaderStep u owner shard lease r act lease' u')
    (hr' : u'.reader = some r') : r'.gate = r.gate ∧ u'.gates = u.gates ∧
      (r'.tracker = r.tracker ∨ r'.tracker + 1 = u'.trackers.length) := by
  cases h with
  | sought =>
    obtain rfl := Option.some.inj hr'
    exact ⟨rfl, rfl, .inr (by simp)⟩
  | _ =>
    obtain rfl := Option.some.inj hr'
    exact ⟨rfl, rfl, .inl rfl⟩

theorem Seated.step (hs : Seated u) (h : Step u owner shard lease a lease' u') : Seated u' := by
  intro r' hr'
  have hle := h.books.trackers_le
  cases h with
  | reader hr h =>
    obtain ⟨hgate, hgates, ht⟩ := h.seat hr'
    obtain ⟨hlt, hglt⟩ := hs _ hr
    refine ⟨?_, by rw [hgate, hgates]; exact hglt⟩
    rcases ht with ht | ht
    · rw [ht]
      exact Nat.lt_of_lt_of_le hlt hle
    · omega
  | forgot => cases hr'
  | acquired =>
    obtain rfl := Option.some.inj hr'
    simp [spawn]
  | @sent call c r _ _ hr =>
    obtain rfl := Option.some.inj hr'
    exact hs r hr
  | bump =>
    obtain ⟨hlt, hglt⟩ := hs r' hr'
    exact ⟨hlt, by simpa using hglt⟩
  | _ =>
    obtain ⟨hlt, hglt⟩ := hs r' hr'
    exact ⟨Nat.lt_of_lt_of_le hlt hle, hglt⟩

end Subscription

end RuststreamKinesis
