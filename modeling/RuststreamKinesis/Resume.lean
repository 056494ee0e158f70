import RuststreamKinesis.System

/-!
# Going back after a seek

A sought position is a reading of its own through a tracker of its own, while the lease row still
holds the progress of the reading that was left. When the iterator is lost the reader goes back by
the row, which is right only as far as the row speaks of the sought reading.
-/

namespace RuststreamKinesis

set_option autoImplicit false

open Window Runs

namespace Shard

variable {shard shard' : Shard} {start : ShardStart} {p q : Nat}

/-- The cursor names `q` in the shard, now and later on. -/
structure Fixed (shard : Shard) (start : ShardStart) (q : Nat) : Prop where
  place : shard.place start = q
  latest : start ≠ .stream .latest
  past : ∀ millis, start = .stream (.timestamp millis) → clampMillis millis ≤ shard.clock

theorem firstFrom_append {log : List Record} {record : Record} {millis : Nat}
    (h : millis ≤ record.arrival) : firstFrom (log ++ [record]) millis = firstFrom log millis := by
  unfold firstFrom
  rw [List.findIdx_append]
  split
  · rfl
  · rename_i hge
    have hle : (log.findIdx fun record => decide (millis ≤ record.arrival)) ≤ log.length :=
      List.findIdx_le_length
    have hone : [record].findIdx (fun record => decide (millis ≤ record.arrival)) = 0 := by
      simp [List.findIdx_cons, h]
    omega

theorem Fixed.grows (h : shard.Fixed start q) (hg : Grows shard shard') :
    shard'.Fixed start q := by
  cases hg with
  | refl => exact h
  | close => exact ⟨h.place, h.latest, h.past⟩
  | tick => exact ⟨h.place, h.latest, fun millis hm => Nat.le_succ_of_le (h.past millis hm)⟩
  | append data =>
    refine ⟨?_, h.latest, h.past⟩
    rw [← h.place]
    cases start with
    | stream start =>
      cases start with
      | horizon => rfl
      | latest => exact absurd rfl h.latest
      | timestamp millis => exact firstFrom_append (h.past millis rfl)
    | atSeq => rfl
    | afterSeq => rfl

theorem Fixed.accepted (h : shard.getShardIterator (iteratorAt start) = some p)
    (hne : start ≠ .stream .latest) : shard.Fixed start p := by
  refine ⟨(getShardIterator_eq_place h).symm, hne, ?_⟩
  rintro millis rfl
  simp only [iteratorAt, getShardIterator, Option.ite_none_right_eq_some] at h
  exact h.1

theorem Fixed.iterator (h : shard.Fixed start q)
    (hp : shard.getShardIterator (iteratorAt start) = some p) : p = q :=
  (getShardIterator_eq_place hp).trans h.place

end Shard

/-- No number of the list lies before the first one. -/
def firstLeast : List Nat → Bool
  | [] => true
  | n :: ns => ns.all fun m => decide (n ≤ m)

theorem firstLeast_of_push {ns : List Nat} {n : Nat} (h : firstLeast (ns ++ [n]) = true) :
    firstLeast ns = true := by
  cases ns with
  | nil => rfl
  | cons m ns =>
    simp only [firstLeast, List.cons_append, List.all_append, Bool.and_eq_true] at h
    exact h.1

theorem le_of_firstLeast {ns : List Nat} {b n : Nat} (h : firstLeast (ns ++ [n]) = true)
    (hb : ∀ m ∈ ns, b ≤ m) (hne : ns ≠ []) : b ≤ n := by
  cases ns with
  | nil => exact absurd rfl hne
  | cons m ns =>
    simp only [firstLeast, List.cons_append, List.all_append, List.all_cons, List.all_nil,
      Bool.and_eq_true, decide_eq_true_eq] at h
    exact (hb m List.mem_cons_self).trans h.2.1

theorem Rephased.keys {ds ds' : List Delivery} (h : Rephased ds ds') :
    ds'.map (fun d => (d.tracker, d.sequence)) = ds.map fun d => (d.tracker, d.sequence) := by
  refine List.ext_getElem? fun i => ?_
  rw [List.getElem?_map, List.getElem?_map]
  cases hd : ds[i]? with
  | some d =>
    obtain ⟨phase, hd', _⟩ := h.get hd
    rw [hd']
    rfl
  | none =>
    have hlen := List.getElem?_eq_none_iff.mp hd
    rw [List.getElem?_eq_none (h.length ▸ hlen)]

namespace Subscription

variable {Owner : Type} [DecidableEq Owner] {u u' : Subscription} {owner : Owner}
variable {shard shard' : Shard} {lease lease' : MemoryLease Owner} {r r' : Reader} {a : SubAct}
variable {t k P b n p q : Nat}

/-- The records handed out through a tracker, in the order they were. -/
def handedThrough (t : Nat) (u : Subscription) : List Nat :=
  ((u.deliveries.map fun d => (d.tracker, d.sequence)).filter fun key => key.1 == t).map Prod.snd

/-- The record was handed out through tracker `t`, or refused after the first `k` refusals. -/
def Since (t k : Nat) (u : Subscription) (n : Nat) : Prop :=
  n ∈ u.refused.drop k ∨ n ∈ u.handedThrough t

/-- And its settlement, if it needs one, has been told to the tracker. -/
def Resolved (t k : Nat) (u : Subscription) (n : Nat) : Prop :=
  n ∈ u.refused.drop k ∨
    ∃ d ∈ u.deliveries, d.tracker = t ∧ d.sequence = n ∧ d.phase.acked = true

theorem mem_handedThrough : n ∈ u.handedThrough t ↔
    ∃ d ∈ u.deliveries, d.tracker = t ∧ d.sequence = n := by
  simp [handedThrough]

theorem Resolved.since (h : Resolved t k u n) : Since t k u n := by
  rcases h with h | ⟨d, hd, ht, hn, _⟩
  · exact .inl h
  · exact .inr (mem_handedThrough.mpr ⟨d, hd, ht, hn⟩)

theorem Books.handedThrough (h : Books shard u u') :
    u'.handedThrough t = u.handedThrough t ∨ ∃ r epoch n stop last idle, u.reader = some r ∧
      r.pc = .forwarding epoch n stop last idle ∧
      (∃ r', u'.reader = some r' ∧ r'.reading = r.reading.noteFirst n) ∧
      u'.handedThrough t = u.handedThrough t ++ [n] := by
  unfold Subscription.handedThrough
  cases h with
  | quiet _ hd => exact .inl (by rw [hd.keys])
  | fresh _ hd => exact .inl (by rw [hd])
  | @handed r epoch next stop last idle _ _ hr hpc _ _ _ _ _ _ hd hnoted =>
    by_cases ht : r.tracker = t
    · refine .inr ⟨r, epoch, next, stop, last, idle, hr, hpc, hnoted, ?_⟩
      simp [hd, ht]
    · exact .inl (by simp [hd, ht])
  | @settled id d w hget _ _ _ hd =>
    obtain ⟨hi, rfl⟩ := List.getElem?_eq_some_iff.mp hget
    left
    rw [hd, List.map_set]
    have hset := List.set_getElem_self
      (show id < (u.deliveries.map fun d => (d.tracker, d.sequence)).length by simpa using hi)
    rw [List.getElem_map] at hset
    rw [hset]

theorem ReaderStep.refused_new {act : ReaderAct}
    (h : ReaderStep u owner shard lease r act lease' u') :
    u'.refused = u.refused ∨ ∃ epoch n stop last idle, r.pc = .forwarding epoch n stop last idle ∧
      u'.refused = u.refused ++ [n] := by
  cases h with
  | refusedRecord hpc => exact .inr ⟨_, _, _, _, _, hpc, rfl⟩
  | _ => exact .inl rfl

theorem Step.refused_new (h : Step u owner shard lease a lease' u') :
    u'.refused = u.refused ∨ ∃ r epoch n stop last idle, u.reader = some r ∧
      r.pc = .forwarding epoch n stop last idle ∧ u'.refused = u.refused ++ [n] := by
  cases h with
  | reader hr h =>
    rcases h.refused_new with he | ⟨_, _, _, _, _, hpc, he⟩
    · exact .inl he
    · exact .inr ⟨_, _, _, _, _, _, hr, hpc, he⟩
  | _ => exact .inl rfl

theorem Step.since (h : Step u owner shard lease a lease' u') (hk : k ≤ u.refused.length)
    (hn : Since t k u' n) : Since t k u n ∨ ∃ r epoch stop last idle, u.reader = some r ∧
      r.pc = .forwarding epoch n stop last idle := by
  rcases hn with hn | hn
  · rcases h.refused_new with he | ⟨r, epoch, m, stop, last, idle, hr, hpc, he⟩
    · exact .inl (.inl (he ▸ hn))
    · rw [he, List.drop_append_of_le_length hk] at hn
      rcases Cells.mem_push hn with hn | rfl
      · exact .inl (.inl hn)
      · exact .inr ⟨r, epoch, stop, last, idle, hr, hpc⟩
  · rcases h.books.handedThrough (t := t) with he | ⟨r, epoch, m, stop, last, idle, hr, hpc, _, he⟩
    · exact .inl (.inr (he ▸ hn))
    · rcases Cells.mem_push (he ▸ hn) with hn | rfl
      · exact .inl (.inr hn)
      · exact .inr ⟨r, epoch, stop, last, idle, hr, hpc⟩

theorem Step.count (h : Step u owner shard lease a lease' u') (hk : k ≤ u.refused.length) :
    k ≤ u'.refused.length := by
  rcases h.refused_new with he | ⟨_, _, _, _, _, _, _, _, he⟩
  · exact he ▸ hk
  · rw [he, List.length_append]
    exact Nat.le_add_right_of_le hk

theorem Step.drop_refused (h : Step u owner shard lease a lease' u') (hk : k ≤ u.refused.length)
    (hn : n ∈ u.refused.drop k) : n ∈ u'.refused.drop k := by
  rcases h.refused_new with he | ⟨_, _, _, _, _, _, _, _, he⟩
  · exact he ▸ hn
  · rw [he, List.drop_append_of_le_length hk]
    exact List.mem_append_left _ hn

theorem Step.resolved (h : Step u owner shard lease a lease' u') (hk : k ≤ u.refused.length)
    (hn : Resolved t k u n) : Resolved t k u' n := by
  rcases hn with hn | ⟨d, hd, ht, rfl, hacked⟩
  · exact .inl (h.drop_refused hk hn)
  · obtain ⟨i, hi⟩ := List.mem_iff_getElem?.mp hd
    obtain ⟨phase, hi', hkeep⟩ := h.books.get hi
    exact .inr ⟨_, List.mem_of_getElem? hi', ht, rfl, hkeep hacked⟩

theorem Step.handed_since (h : Step u owner shard lease a lease' u') (hk : k ≤ u.refused.length)
    (hn : Since t k u n) : Since t k u' n := by
  rcases hn with hn | hn
  · exact .inl (h.drop_refused hk hn)
  · obtain ⟨d, hd, ht, rfl⟩ := mem_handedThrough.mp hn
    obtain ⟨i, hi⟩ := List.mem_iff_getElem?.mp hd
    obtain ⟨phase, hi', _⟩ := h.books.get hi
    exact .inr (mem_handedThrough.mpr ⟨_, List.mem_of_getElem? hi', ht, rfl⟩)

theorem Step.least (h : Step u owner shard lease a lease' u')
    (hleast : firstLeast (u'.handedThrough t) = true) : firstLeast (u.handedThrough t) = true := by
  rcases h.books.handedThrough (t := t) with he | ⟨_, _, _, _, _, _, _, _, _, he⟩
  · exact he ▸ hleast
  · exact firstLeast_of_push (he ▸ hleast)

/-- Reading from `q` on skips nothing of the reading through `t` that was sought at `P`. So long as
nothing before the first record handed out is handed out later, all from `b` to `q` is settled or
waited for. -/
structure Resumable (t k P b : Nat) (u : Subscription) (q : Nat) : Prop where
  unread : ∀ n, P ≤ n → ¬ Since t k u n → q ≤ n
  unsettled : ∀ n, Since t k u n → ¬ Resolved t k u n → q ≤ n
  reached : firstLeast (u.handedThrough t) = true →
    q < b ∨ Reached (Resolved t k u) b u t q

/-- The reader of the reading through `t`. -/
structure Stands (t k P b : Nat) (shard : Shard) (u : Subscription) (r : Reader) : Prop where
  again : r.pc ≠ .opening false ∧ ∀ start recorded, r.pc ≠ .fetching start recorded false
  reached : ∀ p, r.position = some p →
    firstLeast (u.handedThrough t) = true →
      p < b ∨ Reached (Resolved t k u) b u t p
  blind : ∀ p, r.position = some p → r.reading.rewind = none →
    u.handedThrough t = [] ∧ p ≤ P
  anchored : ∀ p start, r.position = some p → r.reading.rewind = some start →
    ∃ q, shard.Fixed start q ∧ q ≤ p ∧ Resumable t k P b u q
  asked : ∀ start recorded again, r.pc = .fetching start recorded again →
    recorded = true ∨ r.reading.rewind ≠ none ∨ r.lineage = .continues →
    ∃ q, shard.Fixed start q ∧ Resumable t k P b u q

structure Resumes (t k P b : Nat) (shard : Shard) (u : Subscription) : Prop where
  tracker_lt : t < u.trackers.length
  count : k ≤ u.refused.length
  tracked : firstLeast (u.handedThrough t) = true →
    Tracked (· = t) (Resolved t k u) b u
  stands : ∀ r, u.reader = some r → r.tracker = t → Stands t k P b shard u r

/-- The base of the reading: the position sought, or an earlier record it began with. -/
def Based (t P b : Nat) (u : Subscription) : Prop := b = P ∨ b < P ∧ b ∈ u.handedThrough t

theorem Based.le (h : Based t P b u) : b ≤ P := by
  rcases h with rfl | ⟨hlt, _⟩
  · exact le_rfl
  · exact hlt.le

theorem Based.least (h : Based t P b u) (hP : q ≤ P) (hq : ∀ n ∈ u.handedThrough t, q ≤ n) :
    q ≤ b := by
  rcases h with rfl | ⟨_, hb⟩
  · exact hP
  · exact hq b hb

theorem Based.step (h : Based t P b u) (hs : Step u owner shard lease a lease' u') :
    Based t P b u' := by
  refine h.imp_right (And.imp_right fun hb => ?_)
  rcases hs.books.handedThrough (t := t) with he | ⟨_, _, _, _, _, _, _, _, _, he⟩
  · exact he ▸ hb
  · exact he ▸ List.mem_append_left _ hb

theorem reached_of_le (ht : t < u.trackers.length) (hq : q ≤ b) {Done : Nat → Prop} :
    q < b ∨ Reached Done b u t q := by
  rcases hq.lt_or_eq with hlt | rfl
  · exact .inl hlt
  · exact .inr (.start ht .empty)

theorem Resumable.before (hb : Based t P b u) (ht : t < u.trackers.length) (hP : q ≤ P)
    (hq : ∀ n ∈ u.handedThrough t, q ≤ n) : Resumable t k P b u q where
  unread n hn _ := hP.trans hn
  unsettled n hn hnot := by
    rcases hn with hn | hn
    · exact absurd (.inl hn) hnot
    · exact hq n hn
  reached _ := reached_of_le ht (hb.least hP hq)

theorem Resumable.after {c : Nat} (hb : Based t P b u) (ht : t < u.trackers.length)
    (htr : Tracked (· = t) (Resolved t k u) b u) {d : Delivery} (hd : d ∈ u.deliveries)
    (hdt : d.tracker = t) (hc : d.phase.watermark = some c) : Resumable t k P b u (c + 1) := by
  have hto := htr.watermark d hd hdt c hc
  refine ⟨?_, ?_, fun _ => .inr (.start ht (hto.through (Order.covBy_add_one c)))⟩
  · intro n hn hnot
    by_contra hlt
    exact hnot (hto.2 n (hb.le.trans hn) (by omega)).since
  · intro n hn hnot
    rcases hn with hn | hn
    · exact absurd (.inl hn) hnot
    · obtain ⟨d', hd', hdt', rfl⟩ := mem_handedThrough.mp hn
      by_contra hlt
      exact hnot (hto.2 d'.sequence (htr.above d' hd' hdt') (by omega))

theorem resolved_acked : ∀ d ∈ u.deliveries, d.tracker = t → d.phase.acked = true →
    Resolved t k u d.sequence := fun d hd ht hacked => .inr ⟨d, hd, ht, rfl, hacked⟩

theorem Resumes.reached_step (h : Resumes t k P b shard u) (hsound : Sound u)
    (hs : Step u owner shard lease a lease' u')
    (hp : firstLeast (u.handedThrough t) = true →
      p < b ∨ Reached (Resolved t k u) b u t p)
    (hleast : firstLeast (u'.handedThrough t) = true) :
    p < b ∨ Reached (Resolved t k u') b u' t p := by
  have hleast₀ := hs.least hleast
  refine (hp hleast₀).imp_right fun hreached => ?_
  exact hreached.books (T := (· = t)) rfl (h.tracked hleast₀) hsound.linked hs.books
    (fun n hn => hs.resolved h.count hn) resolved_acked

theorem Resumable.step (hq : Resumable t k P b u q) (h : Resumes t k P b shard u)
    (hsound : Sound u) (hs : Step u owner shard lease a lease' u')
    (hpos : ∀ r epoch n stop last idle, u.reader = some r →
      r.pc = .forwarding epoch n stop last idle → q ≤ n) : Resumable t k P b u' q where
  unread n hn hnot := hq.unread n hn fun hsince => hnot (hs.handed_since h.count hsince)
  unsettled n hn hnot := by
    rcases hs.since h.count hn with hold | ⟨r, epoch, stop, last, idle, hr, hpc⟩
    · exact hq.unsettled n hold fun hres => hnot (hs.resolved h.count hres)
    · exact hpos r _ _ _ _ _ hr hpc
  reached := h.reached_step hsound hs hq.reached

/-- The place lies before the position that was sought and before all handed out since. -/
def leadsBack (t P q : Nat) (u : Subscription) : Bool :=
  decide (q ≤ P) && (u.handedThrough t).all fun n => decide (q ≤ n)

/-- The row the reader of the reading through `t` goes back by speaks of that reading, or of one
before it; and it goes back to the tip only if there is nothing beyond the position sought. -/
def goesBack (t P : Nat) (shard : Shard) (lease : MemoryLease Owner) (u : Subscription) :
    SubAct → Bool
  | .reader (.readRow true) => u.reader.all fun r => r.tracker != t ||
    match lease.checkpoint, lease.openedAt with
    | some .shardEnd, _ => true
    | some (.sequence c), _ => u.leadsBack t P (c + 1) || (firstLeast (u.handedThrough t) &&
      u.deliveries.any fun d => d.tracker == t && d.phase.watermark == some c)
    | none, some o => u.leadsBack t P o
    | none, none => r.reading.rewind.isSome || r.lineage == .opens ||
      match u.installed with
      | some (.timestamp _) => false
      | _ => true
  | .reader (.openIterator .iterator) => u.reader.all fun r => r.tracker != t ||
    match r.pc with
    | .fetching _ recorded _ => recorded || r.reading.rewind.isSome || r.lineage == .continues ||
      decide (shard.log.length ≤ P)
    | _ => true
  | _ => true

theorem Resumable.leadsBack (hb : Based t P b u) (ht : t < u.trackers.length)
    (h : u.leadsBack t P q = true) : Resumable t k P b u q := by
  simp only [Subscription.leadsBack, Bool.and_eq_true, decide_eq_true_eq, List.all_eq_true] at h
  exact .before hb ht h.1 h.2

/-- The reader is handing out a record, or its reading has the base it should have. -/
def Settling (t P b : Nat) (u : Subscription) : Prop :=
  ∀ r, u.reader = some r → (∀ epoch n stop last idle, r.pc ≠ .forwarding epoch n stop last idle) →
    Based t P b u

omit [DecidableEq Owner] in
theorem Stands.row {start : ShardStart} {recorded again : Bool}
    (h : Stands t k P b shard u r) (hres : Resumes t k P b shard u) (hb : Based t P b u)
    (hr : u.reader = some r) (ht : r.tracker = t) (hpc : r.pc = .opening again)
    (hok : goesBack t P shard lease u (.reader (.readRow true)) = true)
    (hrow : (∃ c, lease.checkpoint = some (.sequence c) ∧ start = .afterSeq c) ∨
      lease.checkpoint = none ∧ recorded = lease.openedAt.isSome ∧
        start = reopenAt none lease.openedAt r.reading.rewind r.lineage u.installed)
    (hgood : recorded = true ∨ r.reading.rewind ≠ none ∨ r.lineage = .continues) :
    ∃ q, shard.Fixed start q ∧ Resumable t k P b u q := by
  have hlt := hres.tracker_lt
  simp only [goesBack, hr, Option.all_some, ht, bne_self_eq_false, Bool.false_or] at hok
  rcases hrow with ⟨c, hck, rfl⟩ | ⟨hck, hrec, hstart⟩
  · rw [hck] at hok
    refine ⟨c + 1, ⟨rfl, by simp, by simp⟩, ?_⟩
    simp only [Bool.or_eq_true, Bool.and_eq_true, List.any_eq_true, beq_iff_eq] at hok
    rcases hok with hlead | ⟨hleast, d, hd, hdt, hc⟩
    · exact .leadsBack hb hlt hlead
    · exact .after hb hlt (hres.tracked hleast) hd hdt hc
  · rw [hck] at hok
    cases ho : lease.openedAt with
    | some o =>
      rw [ho] at hok hstart
      subst hstart
      exact ⟨o, ⟨rfl, by simp, by simp⟩, .leadsBack hb hlt hok⟩
    | none =>
      rw [ho] at hok hstart hrec
      cases hrew : r.reading.rewind with
      | some st =>
        rw [hrew] at hstart
        subst hstart
        have hp : r.position = some r.iterator := by
          cases again with
          | false => exact absurd hpc h.again.1
          | true => simp only [Reader.position, hpc]
        obtain ⟨q, hfixed, _, hq⟩ := h.anchored _ _ hp hrew
        exact ⟨q, hfixed, hq⟩
      | none =>
        have hl : r.lineage = .continues := by simpa [hrec, hrew] using hgood
        have hst : start = .stream .horizon := by
          rw [hstart, hrew, hl]
          simp only [hrew, hl, Option.isSome_none, Bool.false_or] at hok
          unfold reopenAt
          split at hok <;> simp_all
        subst hst
        exact ⟨0, ⟨rfl, by simp, by simp⟩, .before hb hlt (Nat.zero_le P) fun n _ => Nat.zero_le n⟩

theorem Stands.noted {start : ShardStart} (h : Stands t k P b shard u r)
    (hp : r.position = some p) (hst : (r.reading.noteFirst p).rewind = some start) :
    ∃ q, shard.Fixed start q ∧ q ≤ p ∧ Resumable t k P b u q := by
  cases hrew : r.reading.rewind with
  | some st =>
    obtain rfl : st = start := by simpa [Reading.noteFirst, hrew] using hst
    exact h.anchored p st hp hrew
  | none =>
    obtain rfl : .atSeq p = start := by simpa [Reading.noteFirst, hrew] using hst
    obtain ⟨hnone, hle⟩ := h.blind p hp hrew
    refine ⟨p, ⟨rfl, by simp, by simp⟩, le_rfl, fun n hn _ => hle.trans hn, ?_, h.reached p hp⟩
    intro n hn hnot
    rcases hn with hn | hn
    · exact absurd (.inl hn) hnot
    · rw [hnone] at hn
      cases hn

omit [DecidableEq Owner] in
theorem Stands.iterator {start : ShardStart} {recorded again : Bool}
    (h : Stands t k P b shard u r) (hlt : t < u.trackers.length) (hb : Based t P b u)
    (hr : u.reader = some r) (ht : r.tracker = t) (hpc : r.pc = .fetching start recorded again)
    (hget : shard.getShardIterator (iteratorAt start) = some p)
    (hok : goesBack t P shard lease u (.reader (.openIterator .iterator)) = true) :
    Resumable t k P b u p ∧ (start = .stream .latest → u.handedThrough t = [] ∧ p ≤ P) := by
  by_cases hgood : recorded = true ∨ r.reading.rewind ≠ none ∨ r.lineage = .continues
  · obtain ⟨q, hfixed, hq⟩ := h.asked start recorded again hpc hgood
    obtain rfl := hfixed.iterator hget
    exact ⟨hq, fun hl => absurd hl hfixed.latest⟩
  · obtain ⟨hrec, hrew, hl⟩ : recorded = false ∧ r.reading.rewind = none ∧
        r.lineage ≠ .continues := by simpa using hgood
    have hlen : shard.log.length ≤ P := by
      simpa [goesBack, hr, ht, hpc, hrec, hrew, hl] using hok
    have hpos : r.position = some r.iterator := by
      cases again with
      | false => exact absurd hpc (h.again.2 _ _)
      | true => simp only [Reader.position, hpc]
    have hle : p ≤ P := (Shard.getShardIterator_le hget).trans hlen
    have hnone := (h.blind _ hpos hrew).1
    exact ⟨.before hb hlt hle (by simp [hnone]), fun _ => ⟨hnone, hle⟩⟩

theorem ReaderStep.not_first {act : ReaderAct}
    (h : ReaderStep u owner shard lease r act lease' u') (hr' : u'.reader = some r') :
    r'.pc ≠ .opening false := by
  cases h with
  | recorded hpc =>
    obtain rfl := Option.some.inj hr'
    simp [hpc]
  | sought | seekFailed | batchDone =>
    obtain rfl := Option.some.inj hr'
    dsimp only [goto]
    split <;> simp
  | _ =>
    obtain rfl := Option.some.inj hr'
    simp

theorem Step.same_tracker (h : Step u owner shard lease a lease' u') (hr' : u'.reader = some r')
    (hlt : r'.tracker < u.trackers.length) : ∃ r, u.reader = some r ∧ r'.tracker = r.tracker ∧
      (r'.pc = .opening false → r.pc = .opening false) := by
  cases h with
  | reader hr h =>
    have hle := (h.books hr).trackers_le
    refine ⟨_, hr, ?_, fun hpc => absurd hpc (h.not_first hr')⟩
    cases h with
    | sought =>
      obtain rfl := Option.some.inj hr'
      exact absurd hlt (lt_irrefl _)
    | _ =>
      obtain rfl := Option.some.inj hr'
      rfl
  | forgot => cases hr'
  | acquired =>
    obtain rfl := Option.some.inj hr'
    exact absurd hlt (lt_irrefl _)
  | sent _ _ hr =>
    obtain rfl := Option.some.inj hr'
    exact ⟨_, hr, rfl, id⟩
  | _ => exact ⟨r', hr', rfl, id⟩

/-- The step lemma of a sought reading whose base stays where it is. -/
theorem Resumes.keep (h : Resumes t k P b shard u) (hsound : Sound u)
    (hs : Step u owner shard lease a lease' u') (hb : Settling t P b u)
    (hbelow : ∀ r epoch n stop last idle, u.reader = some r →
      r.pc = .forwarding epoch n stop last idle → u'.handedThrough t = u.handedThrough t ++ [n] →
      firstLeast (u'.handedThrough t) = true → b ≤ n)
    (hok : goesBack t P shard lease u a = true) : Resumes t k P b shard u' := by
  have hlt : t < u'.trackers.length := h.tracker_lt.trans_le hs.books.trackers_le
  have hreached : ∀ {p}, (firstLeast (u.handedThrough t) = true →
      p < b ∨ Reached (Resolved t k u) b u t p) → firstLeast (u'.handedThrough t) = true →
      p < b ∨ Reached (Resolved t k u') b u' t p :=
    fun hp hleast => h.reached_step hsound hs hp hleast
  refine ⟨hlt, hs.count h.count, ?_, ?_⟩
  · intro hleast
    refine (h.tracked (hs.least hleast)).books hsound.linked hs.books
      (fun n hn => hs.resolved h.count hn) resolved_acked ?_
    intro r epoch n stop last idle d hr hpc _ hds hdt hdn _ ht
    have hpush : u'.handedThrough t = u.handedThrough t ++ [n] := by
      simp [handedThrough, hds, hdt, hdn, ht]
    have hle := hbelow r _ _ _ _ _ hr hpc hpush hleast
    rcases (h.stands r hr ht).reached n (Reader.position_forwarding hpc) (hs.least hleast) with
      hn | hn
    · exact absurd hn (Nat.not_lt.mpr hle)
    · exact ht ▸ hn
  · intro r' hr' ht'
    obtain ⟨r, hr, htr, hfirst⟩ := hs.same_tracker hr' (ht' ▸ h.tracker_lt)
    have ht : r.tracker = t := htr ▸ ht'
    have hst := h.stands r hr ht
    -- a place at or before which the reader stands stays good
    have keep : ∀ {q}, Resumable t k P b u q →
        (∀ epoch n stop last idle, r.pc = .forwarding epoch n stop last idle → q ≤ n) →
        Resumable t k P b u' q := by
      intro q hq hpos
      refine hq.step h hsound hs ?_
      intro r₀ epoch n stop last idle hr₀ hpc
      obtain rfl := Option.some.inj (hr.symm.trans hr₀)
      exact hpos epoch n stop last idle hpc
    have moved : ∀ p, r'.position = some p → Moved u u' owner shard lease lease' a r r' p := by
      intro p hp
      obtain ⟨r₀, hr₀, hm⟩ := hs.moved hr' hp
      obtain rfl := Option.some.inj (hr.symm.trans hr₀)
      exact hm
    have opens : ∀ {start recorded again p}, r.pc = .fetching start recorded again →
        shard.getShardIterator (iteratorAt start) = some p →
        a = .reader (.openIterator .iterator) → Resumable t k P b u p ∧
          (start = .stream .latest → u.handedThrough t = [] ∧ p ≤ P) := by
      intro start recorded again p hpc hget ha
      subst ha
      exact hst.iterator h.tracker_lt (hb r hr (by simp [hpc])) hr ht hpc hget hok
    have hsame : ∀ {p}, r'.position = some p → r'.reading.rewind = none →
        u'.handedThrough t = u.handedThrough t := by
      intro p hp hnone
      rcases hs.books.handedThrough (t := t) with
        he | ⟨r₀, _, n, _, _, _, hr₀, _, ⟨q, hq, hnoted⟩, _⟩
      · exact he
      · obtain rfl := Option.some.inj (hr'.symm.trans hq)
        rw [hnoted] at hnone
        cases hnone
    refine ⟨?_, ?_, ?_, ?_, ?_⟩
    · refine ⟨fun hpc => hst.again.1 (hfirst hpc), ?_⟩
      intro start recorded hpc'
      obtain ⟨r₀, hr₀, hask⟩ := hs.asked hr' hpc'
      obtain rfl := Option.some.inj (hr.symm.trans hr₀)
      cases hask with
      | stays hpc => exact hst.again.2 _ _ hpc
      | checkpoint _ hpc | blank _ hpc => exact hst.again.1 hpc
    · intro p hp hleast
      have hm := moved p hp
      cases hm with
      | stays hp => exact hreached (hst.reached p hp) hleast
      | opened ha hpc hget => exact hreached (opens hpc hget ha).1.reached hleast
      | sought _ _ _ hfresh => exact absurd (hfresh.symm.trans ht') (Nat.ne_of_gt h.tracker_lt)
      | recorded hpc => exact hreached (hst.reached p (Reader.position_forwarding hpc)) hleast
      | @handed epoch n stop last idle record hpc hn _ hlog _ _ hout =>
        subst hn
        rcases hreached (hst.reached n (Reader.position_forwarding hpc)) hleast with hlow | hat
        · exact reached_of_le hlt hlow
        · refine .inr (hat.next ?_)
          rcases hout with ⟨_, href⟩ | ⟨w, hw, hmem⟩
          · refine .inl (.inl ?_)
            rw [href, List.drop_append_of_le_length h.count]
            exact List.mem_append_right _ List.mem_cons_self
          · exact .inr ⟨w, ht ▸ hw, hmem⟩
    · intro p hp hnone
      rw [hsame hp hnone]
      have hm := moved p hp
      cases hm with
      | stays hp _ hreading => exact hst.blind p hp (hreading ▸ hnone)
      | opened ha hpc hget _ hreading =>
        rw [hreading] at hnone
        exact (opens hpc hget ha).2 (rewindTo_eq_none.mp hnone)
      | sought _ _ _ hfresh => exact absurd (hfresh.symm.trans ht') (Nat.ne_of_gt h.tracker_lt)
      | recorded _ _ _ _ _ hreading | handed _ _ _ _ _ hreading =>
        rw [hreading] at hnone
        cases hnone
    · intro p start hp hrew
      have hm := moved p hp
      have noted : ∀ {epoch n stop last idle}, r.pc = .forwarding epoch n stop last idle →
          (r.reading.noteFirst n).rewind = some start → n ≤ p →
          ∃ q, shard.Fixed start q ∧ q ≤ p ∧ Resumable t k P b u' q := by
        intro epoch n stop last idle hpc hrew hle
        obtain ⟨q, hfixed, hqn, hq⟩ := hst.noted (Reader.position_forwarding hpc) hrew
        refine ⟨q, hfixed, hqn.trans hle, keep hq ?_⟩
        intro epoch₀ n₀ stop₀ last₀ idle₀ hpc₀
        obtain ⟨_, rfl, _⟩ := Pc.forwarding.inj (hpc.symm.trans hpc₀)
        exact hqn
      cases hm with
      | stays hp _ hreading =>
        obtain ⟨q, hfixed, hqp, hq⟩ := hst.anchored p start hp (hreading ▸ hrew)
        refine ⟨q, hfixed, hqp, keep hq ?_⟩
        intro epoch n stop last idle hpc
        obtain rfl := Option.some.inj ((Reader.position_forwarding hpc).symm.trans hp)
        exact hqp
      | opened ha hpc hget _ hreading =>
        rw [hreading] at hrew
        obtain ⟨rfl, hne⟩ := rewindTo_eq_some.mp hrew
        exact ⟨p, .accepted hget hne, le_rfl, keep (opens hpc hget ha).1 (by simp [hpc])⟩
      | sought _ _ _ hfresh => exact absurd (hfresh.symm.trans ht') (Nat.ne_of_gt h.tracker_lt)
      | recorded hpc _ _ _ _ hreading =>
        rw [hreading] at hrew
        exact noted hpc hrew le_rfl
      | handed hpc hn _ _ _ hreading =>
        rw [hreading] at hrew
        exact noted hpc hrew (hn ▸ Nat.le_succ _)
    · intro start recorded again hpc' hgood
      obtain ⟨r₀, hr₀, hask⟩ := hs.asked hr' hpc'
      obtain rfl := Option.some.inj (hr.symm.trans hr₀)
      have row : r.pc = .opening again → a = .reader (.readRow true) →
          ((∃ c, lease.checkpoint = some (.sequence c) ∧ start = .afterSeq c) ∨
            lease.checkpoint = none ∧ recorded = lease.openedAt.isSome ∧
              start = reopenAt none lease.openedAt r.reading.rewind r.lineage u.installed) →
          r'.reading = r.reading → r'.lineage = r.lineage →
          ∃ q, shard.Fixed start q ∧ Resumable t k P b u' q := by
        intro hpc ha hrow hreading hlin
        subst ha
        rw [hreading, hlin] at hgood
        obtain ⟨q, hfixed, hq⟩ := hst.row h (hb r hr (by simp [hpc])) hr ht hpc hok hrow hgood
        exact ⟨q, hfixed, keep hq (by simp [hpc])⟩
      cases hask with
      | stays hpc hreading _ hlin =>
        obtain ⟨q, hfixed, hq⟩ :=
          hst.asked start recorded again hpc (by rwa [hreading, hlin] at hgood)
        exact ⟨q, hfixed, keep hq (by simp [hpc])⟩
      | checkpoint ha hpc hreading _ hlin hc hstart =>
        exact row hpc ha (.inl ⟨_, hc, hstart⟩) hreading hlin
      | blank ha hpc hreading _ hlin hc hstart hrec =>
        exact row hpc ha (.inr ⟨hc, hrec, hstart⟩) hreading hlin

/-- Before its first record is handed out a reading may be based where its reader stands. -/
theorem Resumes.rebase {epoch stop : Nat} {last idle : Bool} (h : Resumes t k P b shard u)
    (hl : Linked u) (hnone : u.handedThrough t = []) (hr : u.reader = some r)
    (hpc : r.pc = .forwarding epoch n stop last idle) : Resumes t k P n shard u := by
  have hnot : ∀ d ∈ u.deliveries, d.tracker ≠ t := by
    intro d hd ht
    have hmem := mem_handedThrough.mpr ⟨d, hd, ht, rfl⟩
    rw [hnone] at hmem
    cases hmem
  have hpos := Reader.position_forwarding hpc
  have low : ∀ {q}, Resumable t k P b u q → q ≤ n → Resumable t k P n u q := fun hq hle =>
    ⟨hq.unread, hq.unsettled, fun _ => reached_of_le h.tracker_lt hle⟩
  have hempty : ∀ (i : Nat) (w : Watermark), i = t → u.trackers[i]? = some w → w.pending = [] := by
    rintro i w rfl hw
    refine List.eq_nil_iff_forall_not_mem.mpr fun e he => ?_
    obtain ⟨d, hd, ht, _⟩ := hl.entry i w hw e he
    exact hnot d hd ht
  refine ⟨h.tracker_lt, h.count, fun _ => ⟨?_, ?_, ?_, ?_⟩, ?_⟩
  · intro i w hi hw e he
    rw [hempty i w hi hw] at he
    cases he
  · intro i w hi hw
    rw [hempty i w hi hw]
    exact .nil
  · intro d hd ht
    exact absurd ht (hnot d hd)
  · intro d hd ht
    exact absurd ht (hnot d hd)
  · intro r₀ hr₀ ht
    obtain rfl := Option.some.inj (hr.symm.trans hr₀)
    have hst := h.stands r hr ht
    refine ⟨hst.again, ?_, hst.blind, ?_, ?_⟩
    · intro p hp _
      obtain rfl := Option.some.inj (hpos.symm.trans hp)
      exact reached_of_le h.tracker_lt le_rfl
    · intro p start hp hrew
      obtain rfl := Option.some.inj (hpos.symm.trans hp)
      obtain ⟨q, hfixed, hqp, hq⟩ := hst.anchored n start hp hrew
      exact ⟨q, hfixed, hqp, low hq hqp⟩
    · intro start recorded again hfetch
      exact absurd (hpc.symm.trans hfetch) (by simp)

/-- The step lemma of a sought reading: its first record may move the base down. -/
theorem Resumes.step (h : Resumes t k P b shard u) (hb : Based t P b u) (hsound : Sound u)
    (hs : Step u owner shard lease a lease' u') (hok : goesBack t P shard lease u a = true) :
    ∃ b', Based t P b' u' ∧ Resumes t k P b' shard u' := by
  by_cases hlow : ∃ r epoch n stop last idle, u.reader = some r ∧
      r.pc = .forwarding epoch n stop last idle ∧ n < b ∧ u.handedThrough t = [] ∧
      u'.handedThrough t = u.handedThrough t ++ [n]
  · obtain ⟨r, epoch, n, stop, last, idle, hr, hpc, hn, hnone, hpush⟩ := hlow
    refine ⟨n, .inr ⟨hn.trans_le hb.le, by simp [hpush]⟩, ?_⟩
    refine (h.rebase hsound.linked hnone hr hpc).keep hsound hs ?_ ?_ hok
    · intro r₀ hr₀ hnot
      obtain rfl := Option.some.inj (hr.symm.trans hr₀)
      exact absurd hpc (hnot _ _ _ _ _)
    · intro r₀ epoch₀ n₀ stop₀ last₀ idle₀ hr₀ hpc₀ _ _
      obtain rfl := Option.some.inj (hr.symm.trans hr₀)
      obtain ⟨_, rfl, _⟩ := Pc.forwarding.inj (hpc.symm.trans hpc₀)
      exact le_rfl
  · refine ⟨b, hb.step hs, h.keep hsound hs (fun _ _ _ => hb) ?_ hok⟩
    intro r epoch n stop last idle hr hpc hpush hleast
    by_cases hnone : u.handedThrough t = []
    · exact Nat.not_lt.mp fun hn => hlow ⟨r, epoch, n, stop, last, idle, hr, hpc, hn, hnone, hpush⟩
    · refine le_of_firstLeast (hpush ▸ hleast) ?_ hnone
      intro m hm
      obtain ⟨d, hd, ht, rfl⟩ := mem_handedThrough.mp hm
      exact (h.tracked (hs.least hleast)).above d hd ht

theorem Resumes.grows (h : Resumes t k P b shard u) (hg : Shard.Grows shard shard') :
    Resumes t k P b shard' u := by
  refine ⟨h.tracker_lt, h.count, h.tracked, ?_⟩
  intro r hr ht
  obtain ⟨hagain, hreached, hblind, hanchored, hasked⟩ := h.stands r hr ht
  refine ⟨hagain, hreached, hblind, ?_, ?_⟩
  · intro p start hp hrew
    obtain ⟨q, hfixed, hq⟩ := hanchored p start hp hrew
    exact ⟨q, hfixed.grows hg, hq⟩
  · intro start recorded again hpc hgood
    obtain ⟨q, hfixed, hq⟩ := hasked start recorded again hpc hgood
    exact ⟨q, hfixed.grows hg, hq⟩

/-- What a seek that was applied leaves the reader with. -/
structure Sought (u u' : Subscription) (shard : Shard) (r' : Reader) (start : ShardStart) :
    Prop where
  tracker : r'.tracker = u.trackers.length
  trackers : u'.trackers = u.trackers ++ [({} : Watermark)]
  deliveries : u'.deliveries = u.deliveries
  pc : r'.pc = .head ∨ r'.pc = .draining
  iterator : shard.getShardIterator (iteratorAt start) = some r'.iterator
  reading : r'.reading = { rewind := rewindTo start, unrecorded := true }

theorem Step.sought (hs : Step u owner shard lease (.reader (.applySeek .iterator)) lease' u')
    (hr' : u'.reader = some r') : ∃ start, Sought u u' shard r' start := by
  cases hs with
  | reader hr h =>
    cases h with
    | @sought call idle c p _ _ hget =>
      obtain rfl := Option.some.inj hr'
      exact ⟨c.start, rfl, rfl, rfl, by cases idle <;> simp, hget, rfl⟩
    | seekFailed _ _ hne => exact absurd rfl hne

theorem Resumes.sought {start : ShardStart} (hsound : Sound u) (hsound' : Sound u')
    (hr' : u'.reader = some r') (h : Sought u u' shard r' start) :
    Resumes r'.tracker u'.refused.length r'.iterator r'.iterator shard u' := by
  have hlt := (hsound'.seated r' hr').1
  have hnot : ∀ d ∈ u'.deliveries, d.tracker ≠ r'.tracker := by
    intro d hd
    rw [h.deliveries] at hd
    rw [h.tracker]
    exact Nat.ne_of_lt (hsound.linked.tracker_lt d hd)
  have hnone : u'.handedThrough r'.tracker = [] := by
    refine List.eq_nil_iff_forall_not_mem.mpr fun n hn => ?_
    obtain ⟨d, hd, ht, _⟩ := mem_handedThrough.mp hn
    exact hnot d hd ht
  have hempty : ∀ (i : Nat) (w : Watermark), i = r'.tracker → u'.trackers[i]? = some w →
      w = {} := by
    rintro i w rfl hw
    rw [h.trackers, h.tracker, List.getElem?_concat_length] at hw
    exact (Option.some.inj hw).symm
  have hpos : r'.position = some r'.iterator := by
    rcases h.pc with hpc | hpc <;> simp only [Reader.position, hpc]
  have hplace : Resumable r'.tracker u'.refused.length r'.iterator r'.iterator u' r'.iterator :=
    .before (.inl rfl) hlt le_rfl (by simp [hnone])
  refine ⟨hlt, le_rfl, fun _ => ⟨?_, ?_, ?_, ?_⟩, ?_⟩
  · intro i w hi hw e he
    rw [hempty i w hi hw] at he
    cases he
  · intro i w hi hw
    rw [hempty i w hi hw]
    exact .nil
  · exact fun d hd ht => absurd ht (hnot d hd)
  · exact fun d hd ht => absurd ht (hnot d hd)
  · intro r hr _
    obtain rfl := Option.some.inj (hr'.symm.trans hr)
    refine ⟨?_, ?_, ?_, ?_, ?_⟩
    · rcases h.pc with hpc | hpc <;> simp [hpc]
    · intro p hp _
      obtain rfl := Option.some.inj (hpos.symm.trans hp)
      exact reached_of_le hlt le_rfl
    · intro p hp _
      obtain rfl := Option.some.inj (hpos.symm.trans hp)
      exact ⟨hnone, le_rfl⟩
    · intro p st hp hrew
      obtain rfl := Option.some.inj (hpos.symm.trans hp)
      rw [h.reading] at hrew
      obtain ⟨rfl, hne⟩ := rewindTo_eq_some.mp hrew
      exact ⟨r'.iterator, .accepted h.iterator hne, le_rfl, hplace⟩
    · intro st recorded again hfetch
      rcases h.pc with hpc | hpc <;> exact absurd (hpc.symm.trans hfetch) (by simp)

theorem Resumes.reopened (h : Resumes t k P b shard u) (hb : Based t P b u)
    (hs : Step u owner shard lease (.reader (.openIterator .iterator)) lease' u')
    (hr' : u'.reader = some r') (ht : r'.tracker = t)
    (hok : goesBack t P shard lease u (.reader (.openIterator .iterator)) = true) :
    Resumable t k P b u' r'.iterator := by
  cases hs with
  | reader hr hs =>
    cases hs with
    | opened hpc hget =>
      obtain rfl := Option.some.inj hr'
      obtain ⟨hp, _⟩ := (h.stands _ hr ht).iterator h.tracker_lt hb hr ht hpc hget hok
      exact ⟨hp.unread, hp.unsettled, hp.reached⟩

end Subscription

namespace System

open Subscription

variable {Owner : Type} [DecidableEq Owner] {owner : Nat → Owner} {s s' : System Owner} {act : Act}

/-- The reader of `x` goes back by rows of the reading it was sought to. -/
def goesBack (x t P : Nat) (s : System Owner) : Act → Bool
  | .sub y a => y != x || (s.subs x).goesBack t P s.shard s.lease a
  | _ => true

/-- The reader stands at or before every record of the reading through `t`, sought at `P`, that
was not handed out since, and every one handed out since that is not settled. -/
def SkipsNothing (x t k P : Nat) (s : System Owner) : Prop :=
  ∀ r n, (s.subs x).reader = some r →
    (P ≤ n ∧ ¬ Since t k (s.subs x) n) ∨ (Since t k (s.subs x) n ∧ ¬ Resolved t k (s.subs x) n) →
    r.iterator ≤ n

/-- What is kept from the moment a seek was applied to the reader of `x`. -/
def Regains (x t k P : Nat) (s : System Owner) : Prop :=
  (s.subs x).Sound ∧ ∃ b, Based t P b (s.subs x) ∧ Resumes t k P b s.shard (s.subs x)

theorem Regains.step {x t k P : Nat} (h : s.Regains x t k P) (hs : Step owner s act s')
    (hok : s.goesBack x t P act = true) : s'.Regains x t k P := by
  obtain ⟨hsound, b, hb, hres⟩ := h
  cases hs with
  | service hg => exact ⟨hsound, b, hb, hres.grows hg⟩
  | @sub y a lease u hsub =>
    by_cases hy : y = x
    · subst hy
      simp only [Regains, Function.update_self]
      refine ⟨hsound.step hsub, hres.step hb hsound hsub ?_⟩
      simpa [goesBack] using hok
    · simp only [Regains, Function.update_of_ne (Ne.symm hy)]
      exact ⟨hsound, b, hb, hres⟩

/-- An iterator that is lost after a seek is fetched again at or before everything that is still to
be read or settled, in every run in which the rows gone back by speak of the sought reading. -/
theorem lost_iterator_skips_nothing {shard : Shard} {lease : MemoryLease Owner}
    {s₀ s₁ s₂ s₃ : System Owner} {x : Nat} {r₁ r₃ : Reader}
    (hpre : Run (step owner) (fun _ _ => True) (fresh shard lease) s₀)
    (hseek : s₀.step owner (.sub x (.reader (.applySeek .iterator))) = some s₁)
    (hr₁ : (s₁.subs x).reader = some r₁)
    (hrun : Run (step owner) (fun s act => s.goesBack x r₁.tracker r₁.iterator act = true) s₁ s₂)
    (hopen : s₂.step owner (.sub x (.reader (.openIterator .iterator))) = some s₃)
    (hok : s₂.goesBack x r₁.tracker r₁.iterator (.sub x (.reader (.openIterator .iterator))) = true)
    (hr₃ : (s₃.subs x).reader = some r₃) (ht : r₃.tracker = r₁.tracker) :
    s₃.SkipsNothing x r₁.tracker (s₁.subs x).refused.length r₁.iterator := by
  have hsound : (s₀.subs x).Sound :=
    run_each (p := fun _ _ => true) .init (fun hu _ hs => hu.step hs)
      (hpre.mono fun s act _ => by cases act <;> rfl) x
  have hsub := sub_cases hseek
  obtain ⟨start, hsought⟩ := hsub.sought hr₁
  have hgrows : s₁.shard = s₀.shard := by
    obtain ⟨⟨lease, u⟩, _, rfl⟩ := Option.map_eq_some_iff.mp hseek
    rfl
  have hfirst : s₁.Regains x r₁.tracker (s₁.subs x).refused.length r₁.iterator :=
    ⟨hsound.step hsub, r₁.iterator, .inl rfl,
      hgrows ▸ Resumes.sought hsound (hsound.step hsub) hr₁ hsought⟩
  obtain ⟨_, b, hb, hres⟩ := hrun.invariant
    (fun _ _ _ hs hok h => hs.step (step_cases h) hok) hfirst
  have hlast := sub_cases hopen
  have hok' : (s₂.subs x).goesBack r₁.tracker r₁.iterator s₂.shard s₂.lease
      (.reader (.openIterator .iterator)) = true := by simpa [goesBack] using hok
  have hplace := hres.reopened hb hlast hr₃ ht hok'
  intro r n hr hn
  obtain rfl := Option.some.inj (hr₃.symm.trans hr)
  rcases hn with ⟨hP, hnot⟩ | ⟨hsince, hnot⟩
  · exact hplace.unread n hP hnot
  · exact hplace.unsettled n hsince hnot

/-- A seek to the horizon is made and applied to the reader of a shard. -/
def seekingHorizon : List Act := [
  .sub 0 (.install .horizon), .sub 0 (.find (.stream .horizon)), .sub 0 (.bump 0),
  .sub 0 (.send 0), .sub 0 (.reader .checkClosed), .sub 0 (.reader .takeSeek)]

/-- From the drained commands on the reader loses its iterator and reads the row again. -/
def expiring : List Act := [
  .sub 0 (.reader .drained), .sub 0 (.reader .notDue), .sub 0 (.reader .stamp),
  .sub 0 (.reader (.readFails .expired)), .sub 0 (.reader (.readRow true))]

/-- Two records were read and settled before the seek, and the iterator expires before the first
record is read again. -/
theorem lost_iterator_skips : ∃ s₀ s₁ s₂ s₃ : System Nat, ∃ r₁ : Reader,
    exec (step id) (fresh { log := [⟨[1], 0⟩, ⟨[2], 0⟩] }
        { checkpoint := some (.sequence 1), openedAt := some 0 })
      (opening 0 .opens 0 ++ seekingHorizon) = some s₀ ∧
      s₀.step id (.sub 0 (.reader (.applySeek .iterator))) = some s₁ ∧
      (s₁.subs 0).reader = some r₁ ∧ exec (step id) s₁ expiring = some s₂ ∧
      s₂.step id (.sub 0 (.reader (.openIterator .iterator))) = some s₃ ∧
      ¬ s₃.SkipsNothing 0 r₁.tracker (s₁.subs 0).refused.length r₁.iterator := by
  have hrun : ((exec (step id) (fresh { log := [⟨[1], 0⟩, ⟨[2], 0⟩] }
        { checkpoint := some (.sequence 1), openedAt := some 0 } : System Nat)
      (opening 0 .opens 0 ++ seekingHorizon)).bind fun s₀ =>
      (s₀.step id (.sub 0 (.reader (.applySeek .iterator)))).bind fun s₁ =>
        (s₁.subs 0).reader.bind fun r₁ => (exec (step id) s₁ expiring).bind fun s₂ =>
          (s₂.step id (.sub 0 (.reader (.openIterator .iterator)))).bind fun s₃ =>
            (s₃.subs 0).reader.map fun r₃ => (r₁.iterator, r₃.iterator, (s₃.subs 0).refused,
              (s₃.subs 0).deliveries)) = some (0, 2, [], []) := by decide
  obtain ⟨s₀, hs₀, hrun⟩ := Option.bind_eq_some_iff.mp hrun
  obtain ⟨s₁, hs₁, hrun⟩ := Option.bind_eq_some_iff.mp hrun
  obtain ⟨r₁, hr₁, hrun⟩ := Option.bind_eq_some_iff.mp hrun
  obtain ⟨s₂, hs₂, hrun⟩ := Option.bind_eq_some_iff.mp hrun
  obtain ⟨s₃, hs₃, hrun⟩ := Option.bind_eq_some_iff.mp hrun
  obtain ⟨r₃, hr₃, hrun⟩ := Option.map_eq_some_iff.mp hrun
  obtain ⟨hP, hrun⟩ := Prod.mk.inj hrun
  obtain ⟨hp, hrun⟩ := Prod.mk.inj hrun
  obtain ⟨href, hds⟩ := Prod.mk.inj hrun
  refine ⟨s₀, s₁, s₂, s₃, r₁, hs₀, hs₁, hr₁, hs₂, hs₃, ?_⟩
  intro h
  have hle := h r₃ 0 hr₃ (.inl ⟨hP.le, by simp [Since, handedThrough, href, hds]⟩)
  omega

/-- The first record is read again and settled before the iterator expires. -/
theorem lost_iterator_skips_nothing_settled : ∃ s₀ s₁ s₂ s₃ : System Nat, ∃ r₁ : Reader,
    exec (step id) (fresh { log := [⟨[1], 0⟩, ⟨[2], 0⟩] }
        { checkpoint := some (.sequence 1), openedAt := some 0 })
      (opening 0 .opens 0 ++ seekingHorizon) = some s₀ ∧
      s₀.step id (.sub 0 (.reader (.applySeek .iterator))) = some s₁ ∧
      (s₁.subs 0).reader = some r₁ ∧
      exec (step id) s₁ ([.sub 0 (.reader .drained), .sub 0 (.reader .notDue),
        .sub 0 (.reader .stamp), .sub 0 (.reader (.getRecords 1 false)),
        .sub 0 (.reader (.recordOpening true)), .sub 0 (.reader .handOut), .sub 0 .poll] ++
        acking 0 0 ++ [.sub 0 (.reader .batchDone), .sub 0 (.reader .checkClosed)] ++
        expiring) = some s₂ ∧
      s₂.step id (.sub 0 (.reader (.openIterator .iterator))) = some s₃ ∧
      s₃.SkipsNothing 0 r₁.tracker (s₁.subs 0).refused.length r₁.iterator := by
  have hrun : ((check (step id) (fun _ _ => true) (fresh { log := [⟨[1], 0⟩, ⟨[2], 0⟩] }
        { checkpoint := some (.sequence 1), openedAt := some 0 } : System Nat)
      (opening 0 .opens 0 ++ seekingHorizon)).bind fun s₀ =>
      (s₀.step id (.sub 0 (.reader (.applySeek .iterator)))).bind fun s₁ =>
        (s₁.subs 0).reader.bind fun r₁ =>
          (check (step id) (System.goesBack 0 r₁.tracker r₁.iterator) s₁
            ([.sub 0 (.reader .drained), .sub 0 (.reader .notDue),
              .sub 0 (.reader .stamp), .sub 0 (.reader (.getRecords 1 false)),
              .sub 0 (.reader (.recordOpening true)), .sub 0 (.reader .handOut), .sub 0 .poll] ++
              acking 0 0 ++ [.sub 0 (.reader .batchDone), .sub 0 (.reader .checkClosed)] ++
              expiring)).bind fun s₂ =>
            (s₂.step id (.sub 0 (.reader (.openIterator .iterator)))).bind fun s₃ =>
              (s₃.subs 0).reader.map fun r₃ =>
                (System.goesBack 0 r₁.tracker r₁.iterator s₂
                  (.sub 0 (.reader (.openIterator .iterator))),
                decide (r₃.tracker = r₁.tracker))) = some (true, true) := by decide
  obtain ⟨s₀, hs₀, hrun⟩ := Option.bind_eq_some_iff.mp hrun
  obtain ⟨s₁, hs₁, hrun⟩ := Option.bind_eq_some_iff.mp hrun
  obtain ⟨r₁, hr₁, hrun⟩ := Option.bind_eq_some_iff.mp hrun
  obtain ⟨s₂, hs₂, hrun⟩ := Option.bind_eq_some_iff.mp hrun
  obtain ⟨s₃, hs₃, hrun⟩ := Option.bind_eq_some_iff.mp hrun
  obtain ⟨r₃, hr₃, hrun⟩ := Option.map_eq_some_iff.mp hrun
  obtain ⟨hok, ht⟩ := Prod.mk.inj hrun
  have hpre := (Run.of_check hs₀).mono fun (_ : System Nat) (_ : Act) _ => trivial
  refine ⟨s₀, s₁, s₂, s₃, r₁, exec_of_check hs₀, hs₁, hr₁, exec_of_check hs₂, hs₃, ?_⟩
  exact lost_iterator_skips_nothing hpre hs₁ hr₁ (.of_check hs₂) hs₃ hok hr₃ (of_decide_eq_true ht)

end System

end RuststreamKinesis
