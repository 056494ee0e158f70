import RuststreamKinesis.Reposition
import RuststreamKinesis.Succession
import RuststreamKinesis.Tip

/-!
# The records behind the tip

A subscription that is to start at the horizon opens at the tip, and a seek then takes its readers
back. A reader that comes to the end of a closed shard before the seek gets to it marks the shard
finished over records nobody has read, and the mark outlasts the seek.
-/

namespace RuststreamKinesis

set_option autoImplicit false

open Window Runs

namespace Subscription

variable {Owner : Type} [DecidableEq Owner] {u u' : Subscription} {owner : Owner}
variable {shard shard' : Shard} {lease lease' : MemoryLease Owner} {r r' : Reader}
variable {act : ReaderAct} {a : SubAct} {n p stop : Nat} {tipped : Bool}

def homeward : SubAct → Bool
  | .install start => start == .horizon
  | .find start => start == .stream .horizon
  | _ => true

/-- Every seek goes to the beginning of the shard. -/
structure Homing (u : Subscription) : Prop where
  installed : u.installed = none ∨ u.installed = some .horizon
  calls : ∀ c ∈ u.calls, c.start = .stream .horizon

theorem ReaderStep.starts (h : ReaderStep u owner shard lease r act lease' u') {c : SeekCall}
    (hc : c ∈ u'.calls) : ∃ c₀ ∈ u.calls, c.start = c₀.start := by
  cases h with
  | sought _ hcall | seekFailed _ hcall =>
    rcases Cells.mem_set hc with rfl | hc
    · exact ⟨_, List.mem_of_getElem? hcall, rfl⟩
    · exact ⟨c, hc, rfl⟩
  | _ => exact ⟨c, hc, rfl⟩

theorem Step.starts (hs : Step u owner shard lease a lease' u') {c : SeekCall} (hc : c ∈ u'.calls) :
    (∃ c₀ ∈ u.calls, c.start = c₀.start) ∨ a = .find c.start := by
  cases hs with
  | reader _ hs => exact .inl (hs.starts hc)
  | findLive | findNone =>
    rcases Cells.mem_push hc with hc | rfl
    · exact .inl ⟨c, hc, rfl⟩
    · exact .inr rfl
  | bump hcall | sent hcall | sendGone hcall | answered hcall | answerGone hcall =>
    rcases Cells.mem_set hc with rfl | hc
    · exact .inl ⟨_, List.mem_of_getElem? hcall, rfl⟩
    · exact .inl ⟨c, hc, rfl⟩
  | _ => exact .inl ⟨c, hc, rfl⟩

theorem Homing.step (h : Homing u) (hs : Step u owner shard lease a lease' u')
    (ha : homeward a = true) : Homing u' where
  installed := by
    cases hs with
    | install => exact .inr (congrArg some (by simpa [homeward] using ha))
    | reader _ hs => cases hs <;> exact h.installed
    | _ => exact h.installed
  calls c hc := by
    rcases hs.starts hc with ⟨c₀, hc₀, he⟩ | rfl
    · exact he.trans (h.calls c₀ hc₀)
    · simpa [homeward] using ha

/-- Whatever lies before a reading whose place to go back to is in `P` was handed out. -/
def Covers (P : Option ShardStart → Prop) (u : Subscription) : Prop :=
  ∀ r p, u.reader = some r → r.position = some p → P r.reading.rewind → ∀ n < p, Handed u n

theorem Covers.step {P : Option ShardStart → Prop} (h : Covers P u) (hsound : Sound u)
    (hs : Step u owner shard lease a lease' u')
    (hopened : ∀ r start recorded again p, u.reader = some r →
      r.pc = .fetching start recorded again →
      shard.getShardIterator (iteratorAt start) = some p → P (rewindTo start) →
      ∀ n < p, Handed u n)
    (hsought : ∀ c p, c ∈ u.calls → shard.getShardIterator (iteratorAt c.start) = some p →
      P (rewindTo c.start) → ∀ n < p, Handed u n)
    (hnoted : ∀ r epoch next stop last idle, u.reader = some r →
      r.pc = .forwarding epoch next stop last idle → next < stop →
      P (r.reading.noteFirst next).rewind → P r.reading.rewind ∨ next = 0) : Covers P u' := by
  intro r' p hr' hp hP n hn
  have before : ∀ r epoch next stop last idle, u.reader = some r →
      r.pc = .forwarding epoch next stop last idle → next < stop →
      P (r.reading.noteFirst next).rewind → ∀ n < next, Handed u' n := by
    intro r epoch next stop last idle hr hpc hlt hP n hn
    rcases hnoted r epoch next stop last idle hr hpc hlt hP with hP | rfl
    · exact (h r next hr (Reader.position_forwarding hpc) hP n hn).step hs
    · exact absurd hn (Nat.not_lt_zero n)
  obtain ⟨r, hr, hm⟩ := hs.moved hr' hp
  cases hm with
  | stays hp _ hreading => exact (h r p hr hp (hreading ▸ hP) n hn).step hs
  | opened _ hpc hget _ hreading =>
    rw [hreading] at hP
    exact (hopened r _ _ _ p hr hpc hget hP n hn).step hs
  | sought _ hc hget _ _ hreading =>
    rw [hreading] at hP
    exact (hsought _ p (List.mem_of_getElem? hc) hget hP n hn).step hs
  | recorded hpc _ _ _ _ hreading hlt =>
    rw [hreading] at hP
    exact before r _ p _ _ _ hr hpc hlt hP n hn
  | @handed epoch m _ _ _ _ hpc hm _ _ _ hreading hout hlt =>
    rw [hreading] at hP
    subst hm
    rcases Nat.lt_succ_iff_lt_or_eq.mp hn with hn | rfl
    · exact before r _ m _ _ _ hr hpc hlt hP n hn
    · rcases hout with ⟨_, href⟩ | ⟨w, hw, hmem⟩
      · exact .inl (href ▸ by simp)
      · obtain ⟨e, he, rfl⟩ := List.mem_map.mp hmem
        obtain ⟨d, hd, _, _, hsq⟩ := (hsound.linked.books hs.books).entry _ w hw e he
        exact .inr ⟨d, hd, hsq⟩

theorem Covers.horizon (h : Covers (· = some (.stream .horizon)) u) (hsound : Sound u)
    (hs : Step u owner shard lease a lease' u') :
    Covers (· = some (.stream .horizon)) u' := by
  have hzero : ∀ {start : ShardStart} {p : Nat},
      shard.getShardIterator (iteratorAt start) = some p →
      rewindTo start = some (.stream .horizon) → ∀ n < p, Handed u n := by
    intro start p hget hrew n hn
    obtain ⟨rfl, _⟩ := rewindTo_eq_some.mp hrew
    rw [Shard.getShardIterator_eq_place hget] at hn
    exact absurd hn (Nat.not_lt_zero n)
  refine h.step hsound hs (fun _ _ _ _ _ _ _ => hzero) (fun _ _ _ => hzero) ?_
  intro r epoch next stop last idle _ _ _ hP
  cases hrew : r.reading.rewind with
  | none => simp [Reading.noteFirst, hrew] at hP
  | some start => exact .inl (by simpa [Reading.noteFirst, hrew] using hP)

/-- A reading from the tip that has read nothing has no record to hand out, unless there was none
behind it, and does not come to the end of the shard. -/
def Barren (r : Reader) : Prop :=
  r.reading.rewind = none →
    match r.pc with
    | .forwarding _ next stop last _ => next = 0 ∨ (next = stop ∧ last = false)
    | .ending stop => stop = 0
    | _ => True

theorem ReaderStep.barren (h : ReaderStep u owner shard lease r act lease' u')
    (hr' : u'.reader = some r') (hb : Barren r)
    (hread : ∀ count last, act = .getRecords count last → r.bare = true →
      count = 0 ∧ last = false) : Barren r' := by
  intro hrew
  cases h with
  | gotRecords hpc =>
    obtain rfl := Option.some.inj hr'
    by_cases hi : r.iterator = 0
    · exact .inl hi
    · have hrew : r.reading.rewind = none := hrew
      obtain ⟨rfl, rfl⟩ := hread _ _ rfl (by simp [Reader.bare, hrew, hi])
      exact .inr ⟨rfl, rfl⟩
  | recorded | refusedRecord | handedOut =>
    obtain rfl := Option.some.inj hr'
    cases hrew
  | batchEnd hpc =>
    obtain rfl := Option.some.inj hr'
    have hold := hb hrew
    rw [hpc] at hold
    rcases hold with hzero | ⟨_, hlast⟩
    · exact hzero
    · cases hlast
  | @sought _ idle | @seekFailed _ idle | @batchDone _ _ idle =>
    obtain rfl := Option.some.inj hr'
    cases idle <;> trivial
  | _ =>
    obtain rfl := Option.some.inj hr'
    trivial

/-- No record of the shard was left out: nothing was read yet by a reading that opened at the tip
with records behind it. -/
structure Whole (lease : MemoryLease Owner) (u : Subscription) : Prop where
  tracked : Tracked (fun _ => True) (Handed u) 0 u
  covers : Covers (· ≠ none) u
  barren : ∀ r, u.reader = some r → Barren r
  asked : ∀ r start recorded again, u.reader = some r → r.pc = .fetching start recorded again →
    start ≠ .stream .latest → Safe (Handed u) start
  carried : ∀ start, Carried u start → start ≠ .stream .latest ∧ Safe (Handed u) start
  checkpoint : ∀ c, lease.checkpoint = some (.sequence c) → DoneTo (Handed u) 0 c
  opened : ∀ o, lease.openedAt = some o → ∀ n < o, Handed u n

omit [DecidableEq Owner] in
theorem Whole.before {epoch next : Nat} {last idle : Bool} (h : Whole lease u)
    (hr : u.reader = some r) (hpc : r.pc = .forwarding epoch next stop last idle)
    (hlt : next < stop) : ∀ n < next, Handed u n := by
  cases hrew : r.reading.rewind with
  | some start => exact h.covers r next hr (Reader.position_forwarding hpc) (by simp [hrew])
  | none =>
    have hb := h.barren r hr hrew
    rw [hpc] at hb
    intro n hn
    rcases hb with rfl | ⟨rfl, _⟩
    · exact absurd hn (Nat.not_lt_zero n)
    · exact absurd hlt (lt_irrefl _)

omit [DecidableEq Owner] in
theorem Whole.atEnd (h : Whole lease u) (hr : u.reader = some r) (hpc : r.pc = .ending stop) :
    ∀ n < stop, Handed u n := by
  cases hrew : r.reading.rewind with
  | some start =>
    exact h.covers r stop hr (by simp only [Reader.position, hpc]) (by simp [hrew])
  | none =>
    have hb := h.barren r hr hrew
    rw [hpc] at hb
    intro n hn
    exact absurd hn (hb ▸ Nat.not_lt_zero n)

omit [DecidableEq Owner] in
theorem Safe.horizon {Done : Nat → Prop} : Safe Done (.stream .horizon) :=
  fun _ n hn => absurd hn (Nat.not_lt_zero n)

omit [DecidableEq Owner] in
theorem Whole.chooses (h : Whole lease u) (hhome : Homing u) (hr : u.reader = some r)
    (hne : reopenAt none lease.openedAt r.reading.rewind r.lineage u.installed ≠ .stream .latest) :
    Safe (Handed u) (reopenAt none lease.openedAt r.reading.rewind r.lineage u.installed) := by
  cases ho : lease.openedAt with
  | some o => exact fun later n hn => h.opened o ho n hn
  | none =>
    rw [ho] at hne
    cases hrew : r.reading.rewind with
    | some start => exact (h.carried start (.inr ⟨r, hr, .inl hrew⟩)).2
    | none =>
      rw [hrew] at hne
      rcases hhome.installed with hi | hi <;> rw [hi] at hne ⊢ <;>
        cases hl : r.lineage <;> rw [hl] at hne
      · exact absurd rfl hne
      · exact .horizon
      · exact .horizon
      · exact .horizon

theorem Whole.step (h : Whole lease u) (hsound : Sound u) (hhome : Homing u)
    (hs : Step u owner shard lease a lease' u')
    (hread : ∀ r count last, u.reader = some r → a = .reader (.getRecords count last) →
      r.bare = true → count = 0 ∧ last = false) : Whole lease' u' where
  tracked := by
    refine h.tracked.books hsound.linked hs.books (fun n hn => hn.step hs)
      (fun d hd _ _ => .inr ⟨d, hd, rfl⟩) ?_
    intro r epoch next stop last idle d hr hpc _ _ _ _ hlt _
    exact .start (hsound.seated r hr).1
      ⟨Nat.zero_le _, fun n _ hn => .inl (h.before hr hpc hlt n hn)⟩
  covers := by
    refine h.covers.step hsound hs ?_ ?_ ?_
    · intro r start recorded again p hr hpc hget hrew n hn
      rw [Shard.getShardIterator_eq_place hget] at hn
      exact h.asked r start recorded again hr hpc (mt rewindTo_eq_none.mpr hrew) shard n hn
    · intro c p hc hget _ n hn
      rw [Shard.getShardIterator_eq_place hget, hhome.calls c hc] at hn
      exact absurd hn (Nat.not_lt_zero n)
    · intro r epoch next stop last idle hr hpc hlt _
      by_cases hrew : r.reading.rewind = none
      · have hb := h.barren r hr hrew
        rw [hpc] at hb
        exact .inr (hb.resolve_right fun he => absurd he.1 (Nat.ne_of_lt hlt))
      · exact .inl hrew
  barren := by
    intro r' hr'
    cases hs with
    | reader hr hs =>
      refine hs.barren hr' (h.barren _ hr) ?_
      intro count last ha hb
      exact hread _ count last hr (congrArg SubAct.reader ha) hb
    | forgot => cases hr'
    | acquired =>
      obtain rfl := Option.some.inj hr'
      exact fun _ => trivial
    | @sent _ _ r _ _ hr =>
      obtain rfl := Option.some.inj hr'
      exact h.barren r hr
    | _ => exact h.barren r' hr'
  asked := by
    intro r' start recorded again hr' hpc' hne
    refine Safe.mono ?_ fun n hn => Handed.step hn hs
    obtain ⟨r, hr, hask⟩ := hs.asked hr' hpc'
    cases hask with
    | stays hpc => exact h.asked r start recorded again hr hpc hne
    | @checkpoint c _ _ _ _ _ hck hstart =>
      subst hstart
      exact fun later n hn => (h.checkpoint c hck).2 n (Nat.zero_le n) (Nat.le_of_lt_succ hn)
    | blank _ _ _ _ _ _ hstart =>
      subst hstart
      exact h.chooses hhome hr hne
  carried := by
    intro start hc
    have hlater : ∀ {start}, Safe (Handed u) start → Safe (Handed u') start :=
      fun hsafe => hsafe.mono fun n hn => hn.step hs
    refine And.imp_right hlater ?_
    have horigin := hs.carried hc
    cases horigin with
    | old hold => exact h.carried start hold
    | cursor hr hpc hne => exact ⟨hne, h.asked _ start _ _ hr hpc hne⟩
    | seek hcall hstart hne =>
      rw [hhome.calls _ (List.mem_of_getElem? hcall)] at hstart
      exact ⟨hne, hstart ▸ .horizon⟩
    | first hr hpc hstart _ hlt =>
      subst hstart
      exact ⟨by simp, fun later n hn => h.before hr hpc hlt n hn⟩
  checkpoint := by
    intro c hc
    refine DoneTo.mono ?_ fun n hn => Handed.step hn hs
    rcases hs.row.sequence hc with hold | ⟨d, hd, hphase⟩
    · exact h.checkpoint c hold
    · exact h.tracked.watermark d hd trivial c (by rw [hphase]; rfl)
  opened := by
    intro o ho n hn
    refine Handed.step ?_ hs
    cases hs.row with
    | kept _ hold | taken _ hold => exact h.opened o (hold ▸ ho) n hn
    | opened hr hpc _ _ hl hlt =>
      subst hl
      obtain rfl := Option.some.inj ho
      exact h.before hr hpc hlt n hn
    | ended _ _ _ _ _ hl | written _ _ _ _ hl =>
      subst hl
      exact h.opened o ho n hn

/-- The reader reads on from the tip, past records that were behind it. -/
def readsPast (u : Subscription) : SubAct → Bool
  | .reader (.getRecords count _) => u.reader.any Reader.bare && count != 0
  | _ => false

/-- The read that ends a shard is made by a reading that went back to the horizon, or nothing was
read of the shard past records that were behind the tip. -/
def readsAll (tipped : Bool) (u : Subscription) : SubAct → Bool
  | .reader (.getRecords _ true) => u.reader.all fun r =>
    r.reading.rewind == some (.stream .horizon) || (!tipped && !r.bare)
  | _ => true

/-- What holds of a shard, of which something was read past the tip or not. -/
structure Returning (shard : Shard) (lease : MemoryLease Owner) (u : Subscription)
    (tipped : Bool) : Prop where
  sound : Sound u
  homing : Homing u
  endsLog : EndsLog shard u
  covers : Covers (· = some (.stream .horizon)) u
  whole : tipped = false → Whole lease u
  ends : tipped = true → ∀ r stop, u.reader = some r → (r.pc = .ending stop ∨
    ∃ epoch next idle, r.pc = .forwarding epoch next stop true idle) →
    r.reading.rewind = some (.stream .horizon)
  finished : lease.checkpoint = some .shardEnd →
    shard.closed = true ∧ ∀ n < shard.log.length, Handed u n

omit [DecidableEq Owner] in
theorem Returning.atEnd (h : Returning shard lease u tipped) (hr : u.reader = some r)
    (hpc : r.pc = .ending stop) : ∀ n < stop, Handed u n := by
  cases tipped with
  | false => exact (h.whole rfl).atEnd hr hpc
  | true =>
    exact h.covers r stop hr (by simp only [Reader.position, hpc]) (h.ends rfl r stop hr (.inl hpc))

omit [DecidableEq Owner] in
theorem Reader.bare_iff : r.bare = true ↔ r.reading.rewind = none ∧ r.iterator ≠ 0 := by
  simp [Reader.bare]

theorem Returning.step (h : Returning shard lease u tipped)
    (hs : Step u owner shard lease a lease' u') (ha : homeward a = true)
    (hok : readsAll tipped u a = true) :
    Returning shard lease' u' (tipped || u.readsPast a) where
  sound := h.sound.step hs
  homing := h.homing.step hs ha
  endsLog := h.endsLog.step hs
  covers := h.covers.horizon h.sound hs
  whole := by
    intro ht
    obtain ⟨rfl, hpast⟩ := Bool.or_eq_false_iff.mp ht
    refine (h.whole rfl).step h.sound h.homing hs ?_
    rintro r count last hr rfl hb
    have hrew := (Reader.bare_iff.mp hb).1
    refine ⟨by simpa [readsPast, hr, hb] using hpast, ?_⟩
    cases last with
    | false => rfl
    | true => simp [readsAll, hr, hb, hrew] at hok
  ends := by
    intro ht r' stop hr' hpc'
    cases hs with
    | reader hr hs =>
      rcases hs.lastBatch hr' hpc' with ⟨count, rfl, _, _, hreading⟩ | ⟨hne, hpc, hrew⟩
      · rw [hreading]
        simp only [readsAll, hr, Option.all_some, Bool.or_eq_true, beq_iff_eq] at hok
        rcases hok with hrew | hnot
        · exact hrew
        · obtain ⟨htip, hbare⟩ := Bool.and_eq_true_iff.mp hnot
          simp_all [readsPast]
      · have hold : tipped = true := by
          rcases Bool.or_eq_true_iff.mp ht with ht | ht
          · exact ht
          · unfold readsPast at ht
            split at ht
            · rename_i he
              exact absurd (SubAct.reader.inj he) (hne _ _)
            · cases ht
        exact hrew _ (h.ends hold _ stop hr hpc)
    | forgot => cases hr'
    | acquired =>
      obtain rfl := Option.some.inj hr'
      rcases hpc' with hpc' | ⟨_, _, _, hpc'⟩ <;> cases hpc'
    | @sent _ _ r _ _ hr =>
      obtain rfl := Option.some.inj hr'
      exact h.ends (by simpa [readsPast] using ht) r stop hr hpc'
    | _ => exact h.ends (by simpa [readsPast] using ht) r' stop hr' hpc'
  finished := by
    intro hck
    have hold : lease.checkpoint = some .shardEnd → shard.closed = true ∧
        ∀ n < shard.log.length, Handed u' n :=
      fun hck => ⟨(h.finished hck).1, fun n hn => ((h.finished hck).2 n hn).step hs⟩
    cases hs.row with
    | kept hc | taken hc => exact hold (hc.symm.trans hck)
    | opened _ _ _ _ hl => exact hold (by simpa [hl] using hck)
    | ended hr hpc =>
      obtain ⟨hclosed, hstop⟩ := h.endsLog _ hr _ (.inl hpc)
      exact ⟨hclosed, fun n hn => (h.atEnd hr hpc n (hstop ▸ hn)).step hs⟩
    | written _ _ _ _ hl =>
      rw [hl] at hck
      cases hck

omit [DecidableEq Owner] in
theorem Returning.grows (h : Returning shard lease u tipped) (hg : Shard.Grows shard shard') :
    Returning shard' lease u tipped where
  sound := h.sound
  homing := h.homing
  endsLog := h.endsLog.grows hg
  covers := h.covers
  whole := h.whole
  ends := h.ends
  finished hck := by
    obtain ⟨hclosed, hhanded⟩ := h.finished hck
    obtain ⟨hclosed', hlog⟩ := hg.closed hclosed
    exact ⟨hclosed', hlog ▸ hhanded⟩

omit [DecidableEq Owner] in
theorem Returning.init : Returning shard ({} : MemoryLease Owner) {} false where
  sound := .init
  homing := ⟨.inl rfl, by simp⟩
  endsLog := by simp [EndsLog]
  covers := by simp [Covers]
  whole _ := {
    tracked := .idle (by simp) rfl
    covers := by simp [Covers]
    barren := by simp
    asked := by simp
    carried := by simp [Carried]
    checkpoint := by simp
    opened := by simp }
  ends := nofun
  finished := by simp

end Subscription

theorem KinesisPosition.afterSend_ne {position : KinesisPosition} {todo waits : List Leg}
    {leg : Leg} {phase : CallPhase} {start : StreamStart} :
    position.afterSend todo waits leg phase ≠ .installed start := by
  unfold afterSend
  split
  · simp
  · split <;> simp

theorem KinesisPosition.afterAnswer_ne {position : KinesisPosition} {todo : List Leg}
    {phase : CallPhase} {start : StreamStart} :
    position.afterAnswer todo phase ≠ .installed start := by
  unfold afterAnswer
  split
  · simp
  · split <;> simp
  · simp

namespace Stream

open Subscription

variable {Owner : Type} [DecidableEq Owner] {owner : Owner} {w w' : Stream Owner}
variable {act : StreamAct} {k : Nat} {a : SubAct}

/-- The steps of a run whose seeks all go to the horizon, and in which a shard's last read is not
made from the tip past records nobody read. -/
def homing (w : Stream Owner) : StreamAct → Bool
  | .seek position => position == .horizon
  | .sub k a => readsAll (w.tipped k) (w.sub k) a
  | _ => true

/-- What a step notes of shard `k`. -/
def notes (w : Stream Owner) (k : Nat) : StreamAct → Bool
  | .sub j a => j == k && (w.sub j).readsPast a
  | _ => false

omit [DecidableEq Owner] in
theorem noting_tipped {j : Nat} (hw : w'.tipped = w.tipped) :
    (w.noting j a w').tipped k = (w.tipped k || w.notes k (.sub j a)) := by
  unfold noting
  split
  · simp [notes, readsPast, hw]
  · by_cases he : k = j
    · subst he
      simp [mark, notes, readsPast]
    · simp [mark, notes, he, Ne.symm he]
  · rename_i hne
    have hpast : (w.sub j).readsPast a = false := by
      unfold readsPast
      split
      · exact absurd rfl (hne _ _)
      · rfl
    simp [notes, hpast, hw]

theorem Step.tipped (h : Step owner w act w') : w'.tipped k = (w.tipped k || w.notes k act) := by
  cases h with
  | grows hact => rcases hact with rfl | ⟨_, rfl⟩ | rfl <;> exact (Bool.or_false _).symm
  | coordinator h => cases h <;> exact (Bool.or_false _).symm
  | advance _ h => cases h <;> exact (Bool.or_false _).symm
  | sub => exact noting_tipped rfl
  | _ => exact (Bool.or_false _).symm

theorem Step.of_sub (h : Step owner w (.sub k a) w') : a.own = true ∧
    (w.sub k).Step owner (w.node k).shard (w.lease k) a (w'.lease k) (w'.sub k) := by
  cases h with
  | grows hact => simp at hact
  | sub hown hs => exact ⟨hown, by simpa [setSub] using hs⟩

theorem Step.installing (h : Step owner w act w') {seek : Seek} {start : StreamStart}
    (hmem : seek ∈ w'.seeks) (hphase : seek.phase = .installed start) :
    seek ∈ w.seeks ∨ ∃ position, act = .seek position ∧ position.stream = some start := by
  cases h with
  | coordinator h => cases h <;> exact .inl hmem
  | sub => exact .inl (by rw [noting_seeks] at hmem; exact hmem)
  | refused =>
    rcases Cells.mem_push hmem with hmem | rfl
    · exact .inl hmem
    · cases hphase
  | installs hstart =>
    rcases Cells.mem_push hmem with hmem | rfl
    · exact .inl hmem
    · obtain rfl := SeekPhase.installed.inj hphase
      exact .inr ⟨_, rfl, hstart⟩
  | looks =>
    rcases Cells.mem_push hmem with hmem | rfl
    · exact .inl hmem
    · dsimp only at hphase
      split at hphase <;> cases hphase
  | advance hi hs =>
    refine .inl ?_
    cases hs with
    | sent =>
      rcases Cells.mem_set hmem with rfl | hmem
      · exact absurd hphase KinesisPosition.afterSend_ne
      · exact hmem
    | answered =>
      rcases Cells.mem_set hmem with rfl | hmem
      · exact absurd hphase KinesisPosition.afterAnswer_ne
      · exact hmem
    | _ =>
      rcases Cells.mem_set hmem with rfl | hmem
      · cases hphase
      · exact hmem
  | _ => exact .inl hmem

omit [DecidableEq Owner] in
theorem does_homeward (h : Does w act k a) (hok : homing w act = true)
    (hseeks : ∀ seek ∈ w.seeks, ∀ start, seek.phase = .installed start → start = .horizon) :
    homeward a = true := by
  cases h with
  | own hown => cases a <;> first | rfl | cases hown
  | install hstart =>
    obtain rfl : _ = KinesisPosition.horizon := by simpa [homing] using hok
    obtain rfl := Option.some.inj hstart
    rfl
  | find => simp [homing] at hok
  | findAll hseek hphase =>
    obtain rfl := hseeks _ (List.mem_of_getElem? hseek) _ hphase
    rfl
  | _ => rfl

omit [DecidableEq Owner] in
theorem does_readsPast (h : Does w act k a) (hnot : ∀ a, act ≠ .sub k a) :
    (w.sub k).readsPast a = false ∧ readsAll (w.tipped k) (w.sub k) a = true := by
  cases h with
  | own => exact absurd rfl (hnot _)
  | _ => exact ⟨rfl, rfl⟩

/-- What holds of every shard in a run towards the horizon. -/
structure Homebound (w : Stream Owner) : Prop where
  seeks : ∀ seek ∈ w.seeks, ∀ start, seek.phase = .installed start → start = .horizon
  shards : ∀ k, Returning (w.node k).shard (w.lease k) (w.sub k) (w.tipped k)

omit [DecidableEq Owner] in
theorem Homebound.fresh (h : Fresh w) (hrows : ∀ k, w.lease k = {}) : Homebound w where
  seeks seek hmem := by simp [h.seeks] at hmem
  shards k := by
    rw [hrows k, h.sub k, h.tipped k]
    exact .init

theorem Homebound.shard (h : Homebound w) (hs : Step owner w act w') (hok : homing w act = true)
    (k : Nat) : Returning (w'.node k).shard (w'.lease k) (w'.sub k) (w'.tipped k) := by
  refine Returning.grows ?_ (hs.evolves.grows k)
  rw [hs.tipped]
  by_cases hact : ∃ a, act = .sub k a
  · obtain ⟨a, rfl⟩ := hact
    obtain ⟨hown, hsub⟩ := hs.of_sub
    have hnotes : w.notes k (.sub k a) = (w.sub k).readsPast a := by simp [notes]
    rw [hnotes]
    exact (h.shards k).step hsub (does_homeward (.own hown) hok h.seeks) hok
  · have hnot : ∀ a, act ≠ .sub k a := fun a ha => hact ⟨a, ha⟩
    have hnotes : w.notes k act = false := by
      unfold notes
      split
      · rename_i j a
        by_cases he : j = k
        · exact absurd (he ▸ rfl) (hnot a)
        · simp [he]
      · rfl
    rw [hnotes]
    rcases hs.at k with ⟨hsub, hlease⟩ | ⟨a, hdoes, hstep⟩
    · rw [hsub, hlease, Bool.or_false]
      exact h.shards k
    · obtain ⟨hpast, hread⟩ := does_readsPast hdoes hnot
      have hnext := (h.shards k).step hstep (does_homeward hdoes hok h.seeks) hread
      exact hpast ▸ hnext

theorem Homebound.step (h : Homebound w) (hs : Step owner w act w') (hok : homing w act = true) :
    Homebound w' where
  seeks seek hmem start hphase := by
    rcases hs.installing hmem hphase with hold | ⟨position, rfl, hstart⟩
    · exact h.seeks seek hold start hphase
    · obtain rfl : position = .horizon := by simpa [homing] using hok
      exact (Option.some.inj hstart).symm
  shards := h.shard hs hok

/-- A shard that is marked finished was handed out to its end, in a run whose seeks all go to the
horizon and get to the readers at the tip before these come to the end of a closed shard. -/
theorem finished_handed_out {w₀ : Stream Owner} (hfresh : Fresh w₀) (hrows : ∀ k, w₀.lease k = {})
    (hrun : Run (step owner) (fun w act => homing w act = true) w₀ w)
    (hend : (w.lease k).checkpoint = some .shardEnd) :
    (w.node k).shard.closed = true ∧ ∀ n < (w.node k).shard.log.length, (w.sub k).Handed n :=
  have hbound : Homebound w :=
    hrun.invariant (fun _ _ _ h hok hs => h.step (step_cases hs) hok) (.fresh hfresh hrows)
  (hbound.shards k).finished hend

/-- The first pass opens a closed shard that has a record. -/
def openingClosed : List StreamAct := [.append 0 [1], .close 0] ++ openingSingle

/-- The reader comes to the end of the shard from the tip. -/
def endingAtTip : List StreamAct := [
  .sub 0 (.reader .checkClosed), .sub 0 (.reader .drained), .sub 0 (.reader .notDue),
  .sub 0 (.reader .stamp), .sub 0 (.reader (.getRecords 0 true)), .sub 0 (.reader .batchDone),
  .sub 0 (.reader (.markEnd true))]

/-- A seek on the one shard, up to its command. -/
def returningHome : List StreamAct :=
  [.seek .horizon, .advance 0 [0], .advance 0 [], .advance 0 [], .advance 0 [], .advance 0 []]

/-- The seek returns without an error over a reader that has already come to the end. -/
theorem finished_unread : ∃ w : Stream Nat,
    exec (step 0) single (openingClosed ++ endingAtTip ++ returningHome ++
      [.sub 0 (.reader .release), .advance 0 [], .advance 0 []]) = some w ∧
      w.seeks = [⟨.horizon, .returned true⟩] ∧ (w.lease 0).checkpoint = some .shardEnd ∧
      (w.node 0).shard.log.length = 1 ∧ ¬ (w.sub 0).Handed 0 := by
  have hrun : (exec (step 0) single (openingClosed ++ endingAtTip ++ returningHome ++
      [.sub 0 (.reader .release), .advance 0 [], .advance 0 []])).map (fun w =>
        w.seeks == [⟨.horizon, .returned true⟩] && (w.lease 0).checkpoint == some .shardEnd &&
          (w.node 0).shard.log.length == 1 && (w.sub 0).refused == [] &&
          (w.sub 0).deliveries == []) = some true := by decide
  obtain ⟨w, hw, hrun⟩ := Option.map_eq_some_iff.mp hrun
  simp only [Bool.and_eq_true, beq_iff_eq] at hrun
  obtain ⟨⟨⟨⟨hseeks, hck⟩, hlen⟩, href⟩, hds⟩ := hrun
  refine ⟨w, hw, hseeks, hck, hlen, ?_⟩
  rintro (hmem | ⟨d, hd, _⟩)
  · simp [href] at hmem
  · simp [hds] at hd

/-- The seek gets to the reader first. -/
def endingHome : List StreamAct := [
  .sub 0 (.reader .checkClosed), .sub 0 (.reader .takeSeek),
  .sub 0 (.reader (.applySeek .iterator)), .advance 0 [], .advance 0 [],
  .sub 0 (.reader .drained), .sub 0 (.reader .notDue), .sub 0 (.reader .stamp),
  .sub 0 (.reader (.getRecords 1 true)), .sub 0 (.reader (.recordOpening true)),
  .sub 0 (.reader .handOut), .sub 0 (.reader .batchDone), .sub 0 .poll, .sub 0 (.ack 0),
  .sub 0 (.settle 0), .sub 0 (.write 0 true), .sub 0 (.reader (.markEnd true))]

theorem finished_handed_out_closed : ∃ w : Stream Nat,
    check (step 0) homing single (openingClosed ++ returningHome ++ endingHome) = some w ∧
      w.seeks = [⟨.horizon, .returned true⟩] ∧ (w.lease 0).checkpoint = some .shardEnd ∧
      (w.node 0).shard.closed = true ∧
      ∀ n < (w.node 0).shard.log.length, (w.sub 0).Handed n := by
  have hrun : (check (step 0) homing single (openingClosed ++ returningHome ++ endingHome)).map
      (fun w => w.seeks == [⟨.horizon, .returned true⟩] &&
        (w.lease 0).checkpoint == some .shardEnd) = some true := by decide
  obtain ⟨w, hw, hrun⟩ := Option.map_eq_some_iff.mp hrun
  simp only [Bool.and_eq_true, beq_iff_eq] at hrun
  obtain ⟨hseeks, hck⟩ := hrun
  exact ⟨w, hw, hseeks, hck, finished_handed_out single_fresh (fun _ => rfl) (.of_check hw) hck⟩

end Stream

end RuststreamKinesis
