import RuststreamKinesis.Takeover

/-!
# The promise of the tip

A reader that opens at the tip owes the consumer every record appended from then on. What it goes
back to after a failure is kept in memory and in the row, once it has read a first record; until
then it opens at the tip again.
-/

namespace RuststreamKinesis

set_option autoImplicit false

open Window Runs

namespace Subscription

variable {Owner : Type} [DecidableEq Owner] {u u' : Subscription} {owner : Owner} {shard : Shard}
variable {lease lease' : MemoryLease Owner} {a : SubAct} {Done Done' : Nat → Prop}

/-- Wherever the service places the cursor, all before it is done. -/
def Safe (Done : Nat → Prop) (start : ShardStart) : Prop :=
  ∀ later : Shard, ∀ n, n < later.place start → Done n

theorem Safe.mono {start : ShardStart} (h : Safe Done start) (hmono : ∀ n, Done n → Done' n) :
    Safe Done' start := fun later n hn => hmono n (h later n hn)

/-- What an instance that reads a shard from the tip keeps, on its own and without a seek. -/
structure Kept (Done : Nat → Prop) (lease : MemoryLease Owner) (u : Subscription) : Prop where
  sound : Sound u
  unsought : Unsought u
  handed : ∀ n, Handed u n → Done n
  gapless : Gapless (fun _ => True) (fun _ _ => True) Done 0 u
  asked : ∀ r start recorded again, u.reader = some r → r.pc = .fetching start recorded again →
    start ≠ .stream .latest → Safe Done start
  blind : ∀ r recorded again, u.reader = some r →
    r.pc = .fetching (.stream .latest) recorded again → lease.checkpoint = none ∧
      lease.openedAt = none ∧ r.reading.rewind = none ∧ r.lineage = .opens
  carried : ∀ start, Carried u start → start ≠ .stream .latest ∧ Safe Done start
  checkpoint : ∀ c, lease.checkpoint = some (.sequence c) → DoneTo Done 0 c
  opened : ∀ o, lease.openedAt = some o → Through Done 0 o []

omit [DecidableEq Owner] in
theorem Kept.chooses (h : Kept Done lease u) {r : Reader} (hr : u.reader = some r) :
    (lease.openedAt = none ∧ r.reading.rewind = none ∧ r.lineage = .opens ∧
      reopenAt none lease.openedAt r.reading.rewind r.lineage u.installed = .stream .latest) ∨
    (reopenAt none lease.openedAt r.reading.rewind r.lineage u.installed ≠ .stream .latest ∧
      Safe Done (reopenAt none lease.openedAt r.reading.rewind r.lineage u.installed)) := by
  rw [h.unsought.installed]
  cases ho : lease.openedAt with
  | some o =>
    refine .inr ⟨by simp, ?_⟩
    intro later n hn
    rcases (h.opened o ho).2 n (Nat.zero_le n) hn with hd | hm
    · exact hd
    · cases hm
  | none =>
    cases hrew : r.reading.rewind with
    | some st => exact .inr (h.carried st (.inr ⟨r, hr, .inl hrew⟩))
    | none =>
      cases hl : r.lineage with
      | opens => exact .inl ⟨rfl, rfl, rfl, rfl⟩
      | continues =>
        refine .inr ⟨by simp [reopenAt], ?_⟩
        intro later n hn
        exact absurd hn (Nat.not_lt_zero n)

theorem Kept.step (h : Kept Done lease u) (hs : Step u owner shard lease a lease' u')
    (ha : seekless u a = true) (hmono : ∀ n, Done n → Done' n)
    (hhanded : ∀ n, Handed u' n → Done' n) (hnone : lease.openedAt = none → u.deliveries = [])
    (htip : ∀ r recorded again, a = .reader (.openIterator .iterator) → u.reader = some r →
      r.pc = .fetching (.stream .latest) recorded again → ∀ n, n < shard.log.length → Done' n) :
    Kept Done' lease' u' := by
  have hsound := h.sound.step hs
  have hrow := hs.row
  have hdelivered : ∀ d ∈ u'.deliveries, Done' d.sequence :=
    fun d hd => hhanded _ (.inr ⟨d, hd, rfl⟩)
  have hgapless : Gapless (fun _ => True) (fun _ _ => True) Done' 0 u' := by
    refine h.gapless.step h.sound hs hmono (fun d hd _ _ => hdelivered d hd)
      (fun n _ hn => hhanded n (.inl (hn ▸ by simp))) (fun _ _ _ => trivial)
      (fun _ _ _ _ _ _ _ _ _ => ⟨fun _ => trivial, fun _ => trivial⟩)
      (fun _ _ _ _ _ _ _ _ _ _ _ => trivial) ?_ ?_
    · intro r start recorded again p hact hr hpc hget _
      refine ⟨Nat.zero_le p, ?_⟩
      intro n _ hn
      rw [Shard.getShardIterator_eq_place hget] at hn
      by_cases hl : start = .stream .latest
      · subst hl
        exact .inl (htip r recorded again hact hr hpc n hn)
      · exact .inl (hmono n (h.asked r start recorded again hr hpc hl shard n hn))
    · intro r call idle c p hr hpc
      exact absurd hpc ((h.unsought.reader r hr).2 call idle)
  refine ⟨hsound, h.unsought.step hs ha, hhanded, hgapless, ?_, ?_, ?_, ?_, ?_⟩
  · intro r' start recorded again hr' hpc' hne
    obtain ⟨r, hr, hask⟩ := hs.asked hr' hpc'
    cases hask with
    | stays hpc => exact (h.asked r start recorded again hr hpc hne).mono hmono
    | @checkpoint c _ _ _ _ _ hck hstart =>
      subst hstart
      intro later n hn
      exact hmono n ((h.checkpoint c hck).2 n (Nat.zero_le n) (Nat.le_of_lt_succ hn))
    | blank _ _ _ _ _ _ hstart =>
      subst hstart
      rcases h.chooses hr with ⟨_, _, _, hl⟩ | ⟨_, hsafe⟩
      · exact absurd hl hne
      · exact hsafe.mono hmono
  · intro r' recorded again hr' hpc'
    obtain ⟨r, hr, hask⟩ := hs.asked hr' hpc'
    have hblank : (lease.checkpoint = none ∧ lease.openedAt = none ∧
        r'.reading.rewind = none ∧ r'.lineage = .opens) ∧
        (∀ epoch n stop last idle, r.pc ≠ .forwarding epoch n stop last idle) ∧
        ∀ stop, r.pc ≠ .ending stop := by
      cases hask with
      | stays hpc hreading _ hlin =>
        rw [hreading, hlin]
        exact ⟨h.blind r recorded again hr hpc, by simp [hpc], by simp [hpc]⟩
      | checkpoint _ _ _ _ _ _ hstart => cases hstart
      | blank _ hpc hreading _ hlin hck hstart =>
        rw [hreading, hlin]
        rcases h.chooses hr with ⟨ho, hrew, hl, _⟩ | ⟨hne, _⟩
        · exact ⟨⟨hck, ho, hrew, hl⟩, by simp [hpc], by simp [hpc]⟩
        · exact absurd hstart.symm hne
    obtain ⟨⟨hck, ho, hrest⟩, hforward, hending⟩ := hblank
    cases hrow with
    | kept hck' ho' => exact ⟨hck'.trans hck, ho'.trans ho, hrest⟩
    | taken hck' ho' => exact ⟨hck'.trans hck, ho'.trans ho, hrest⟩
    | opened hr₀ hpc₀ =>
      obtain rfl := Option.some.inj (hr.symm.trans hr₀)
      exact absurd hpc₀ (hforward _ _ _ _ _)
    | ended hr₀ hpc₀ =>
      obtain rfl := Option.some.inj (hr.symm.trans hr₀)
      exact absurd hpc₀ (hending _)
    | written hd =>
      rw [hnone ho] at hd
      cases hd
  · intro start hc
    have horigin := hs.carried hc
    cases horigin with
    | old hold => exact ⟨(h.carried start hold).1, (h.carried start hold).2.mono hmono⟩
    | cursor hr hpc hne => exact ⟨hne, (h.asked _ start _ _ hr hpc hne).mono hmono⟩
    | seek hcall =>
      rw [h.unsought.calls] at hcall
      cases hcall
    | first hr hpc hstart =>
      subst hstart
      refine ⟨by simp, ?_⟩
      intro later n hn
      have hat := h.gapless.reached _ _ hr (Reader.position_forwarding hpc) trivial
      rcases (hat.handed h.sound.linked h.handed).2 n (Nat.zero_le n) hn with hd | hm
      · exact hmono n hd
      · cases hm
  · intro c hc
    rcases hrow.sequence hc with hold | ⟨d, hd, hphase⟩
    · exact (h.checkpoint c hold).mono hmono
    · exact (h.gapless.tracked.watermark d hd trivial c (by rw [hphase]; rfl)).mono hmono
  · intro o ho
    rcases hrow.openedAt with hold | ⟨r, n, hr, hp, _, _, rfl⟩
    · exact (h.opened o (hold.symm.trans ho)).mono hmono fun _ hn => .inr hn
    · obtain rfl := Option.some.inj ho
      have hat := h.gapless.reached r n hr hp trivial
      exact (hat.handed h.sound.linked h.handed).mono hmono fun _ hn => .inr hn

/-- A place kept for the next reader is taken by the reader there is. -/
def Taken (u : Subscription) : Prop := ∀ r, u.reader = some r → u.rewind = none

theorem Taken.step (h : Taken u) (hs : Step u owner shard lease a lease' u') : Taken u' := by
  intro r' hr'
  cases hs with
  | reader hr hs => exact hs.rewind.trans (h _ hr)
  | forgot => cases hr'
  | acquired => rfl
  | sent _ _ hr => exact h _ hr
  | _ => exact h r' hr'

/-- What the promise asks for is done: the record lies before the tip or was handed out. -/
def FromTip (tip : Nat) (u : Subscription) (n : Nat) : Prop := n < tip ∨ Handed u n

theorem Kept.start {r : Reader} {recorded again : Bool} (hsound : Sound u) (htaken : Taken u)
    (hunsought : Unsought u) (hun : Unopened u) (hck : lease.checkpoint = none)
    (ho : lease.openedAt = none) (hr : u.reader = some r)
    (hpc : r.pc = .fetching (.stream .latest) recorded again)
    (hs : Step u owner shard lease (.reader (.openIterator .iterator)) lease' u') :
    Kept (FromTip shard.log.length u') lease' u' := by
  have hsound' := hsound.step hs
  have hunsought' := hunsought.step hs rfl
  have hun' := hun.step hs (by simp [hck]) ho
  cases hs with
  | reader hr₀ h =>
    obtain rfl := Option.some.inj (hr.symm.trans hr₀)
    cases h with
    | opened hpc₀ hget =>
      obtain ⟨rfl, rfl, rfl⟩ := Pc.fetching.inj (hpc.symm.trans hpc₀)
      obtain ⟨htrackers, hdeliveries, _, _⟩ := hun' ho
      refine ⟨hsound', hunsought', fun n => .inr, ⟨.idle htrackers hdeliveries, ?_⟩, ?_, ?_, ?_,
        ?_, ?_⟩
      · intro r' p hr' hp _
        obtain rfl := Option.some.inj hr'
        obtain rfl := Option.some.inj hp
        refine .start (hsound'.seated _ rfl).1 ⟨Nat.zero_le _, ?_⟩
        intro n _ hn
        rw [Shard.getShardIterator_eq_place hget] at hn
        exact .inl (.inl hn)
      · intro r' start recorded again hr' hpc'
        obtain rfl := Option.some.inj hr'
        cases hpc'
      · intro r' recorded again hr' hpc'
        obtain rfl := Option.some.inj hr'
        cases hpc'
      · intro start hc
        rcases hc with hc | ⟨r', hr', hc⟩
        · exact absurd ((htaken r hr).symm.trans hc) (by simp)
        · obtain rfl := Option.some.inj hr'
          rcases hc with hc | hc | hc <;> cases hc
      · intro c hc
        exact absurd (hck.symm.trans hc) (by simp)
      · intro o ho'
        exact absurd (ho.symm.trans ho') (by simp)

end Subscription

namespace System

open Subscription

variable {Owner : Type} [DecidableEq Owner] {owner : Nat → Owner} {s s' : System Owner} {act : Act}

/-- No instance but `x` changes the row. -/
def undisturbed (owner : Nat → Owner) (x : Nat) (s : System Owner) : Act → Bool
  | .sub y act => y == x || ((s.subs y).step (owner y) s.shard s.lease act).all fun (lease, _) =>
    decide (lease = s.lease)
  | _ => true

/-- While the row is blank and the reader has no place to go back to, an iterator is fetched only
if nothing was appended beyond `tip`. -/
def tipUnread (x tip : Nat) (s : System Owner) : Act → Bool
  | .sub y (.reader (.openIterator .iterator)) =>
    y != x || (s.subs x).reader.all fun r => s.lease.checkpoint.isSome ||
      s.lease.openedAt.isSome || r.reading.rewind.isSome || r.lineage == .continues ||
      s.shard.log.length == tip
  | _ => true

/-- Every record from `tip` up to where the reader of `x` stands was handed out. -/
def TipPromise (x tip : Nat) (s : System Owner) : Prop :=
  ∀ r p n, (s.subs x).reader = some r → r.position = some p → tip ≤ n → n < p →
    (s.subs x).Handed n

/-- What is kept from the moment the reader of `x` has opened at the tip. -/
structure AtTip (x tip : Nat) (s : System Owner) : Prop where
  blank : s.Blank
  kept : Kept (FromTip tip (s.subs x)) s.lease (s.subs x)

/-- The admitted steps: `x` is undisturbed, makes no seek and has read something before it fetches
another iterator past the tip. -/
def tipRun (owner : Nat → Owner) (x tip : Nat) (s : System Owner) (act : Act) : Bool :=
  undisturbed owner x s act && s.each seekless act && tipUnread x tip s act

theorem AtTip.step {x tip : Nat} (h : AtTip x tip s) (hstep : s.step owner act = some s')
    (hok : tipRun owner x tip s act = true) : AtTip x tip s' := by
  simp only [tipRun, Bool.and_eq_true] at hok
  obtain ⟨⟨hundisturbed, hseekless⟩, htip⟩ := hok
  have hblank := h.blank.step (step_cases hstep)
  refine ⟨hblank, ?_⟩
  cases step_cases hstep with
  | service => exact h.kept
  | @sub y a lease' u' hs =>
    by_cases hy : y = x
    · subst hy
      simp only [Function.update_self]
      refine h.kept.step hs hseekless (fun n hn => hn.imp_right (·.step hs)) (fun n => .inr)
        (fun ho => ((h.blank ho).2 y).deliveries) ?_
      intro r recorded again ha hr hpc n hn
      obtain ⟨hck, ho, hrew, hl⟩ := h.kept.blind r recorded again hr hpc
      subst ha
      have hlen : s.shard.log.length = tip := by
        simpa [tipUnread, hr, hck, ho, hrew, hl] using htip
      exact .inl (hlen ▸ hn)
    · have hlease : lease' = s.lease := by
        obtain ⟨⟨lease, u⟩, hu, he⟩ := Option.map_eq_some_iff.mp hstep
        obtain rfl : lease = lease' := congrArg System.lease he
        simpa [undisturbed, hy, hu] using hundisturbed
      simp only [Function.update_of_ne (Ne.symm hy), hlease]
      exact h.kept

theorem AtTip.opened {shard : Shard} {x : Nat} {r : Reader} {recorded again : Bool}
    (hpre : Run (System.step owner) (fun s act => s.each seekless act = true) (init shard) s)
    (hck : s.lease.checkpoint = none) (ho : s.lease.openedAt = none)
    (hr : (s.subs x).reader = some r) (hpc : r.pc = .fetching (.stream .latest) recorded again)
    (hopen : s.step owner (.sub x (.reader (.openIterator .iterator))) = some s') :
    AtTip x s'.shard.log.length s' := by
  have hblank : s.Blank := hpre.invariant (fun _ _ _ hs _ h => hs.step (step_cases h)) (.init shard)
  have hblank' := hblank.step (step_cases hopen)
  have hpre' : (s.subs x).Sound ∧ (s.subs x).Unsought ∧ (s.subs x).Taken :=
    run_each (I := fun u => u.Sound ∧ u.Unsought ∧ u.Taken) ⟨.init, .init, by simp [Taken]⟩
      (fun hu hp hs => ⟨hu.1.step hs, hu.2.1.step hs hp, hu.2.2.step hs⟩) hpre x
  obtain ⟨hsound, hunsought, htaken⟩ := hpre'
  obtain ⟨⟨lease', u'⟩, hu, rfl⟩ := Option.map_eq_some_iff.mp hopen
  refine ⟨hblank', ?_⟩
  simp only [Function.update_self]
  exact .start hsound htaken hunsought ((hblank ho).2 x) hck ho hr hpc (Subscription.step_cases hu)

/-- No cursor of an instance passes a record that was appended after it opened at the tip and has
not been handed out, so long as it does not fetch at the tip again once something was appended. -/
theorem tip_promise_kept {shard : Shard} {s₀ s₁ : System Owner} {x : Nat} {r : Reader}
    {recorded again : Bool}
    (hpre : Run (step owner) (fun s act => s.each seekless act = true) (init shard) s₀)
    (hck : s₀.lease.checkpoint = none) (ho : s₀.lease.openedAt = none)
    (hr : (s₀.subs x).reader = some r) (hpc : r.pc = .fetching (.stream .latest) recorded again)
    (hopen : s₀.step owner (.sub x (.reader (.openIterator .iterator))) = some s₁)
    (hrun : Run (step owner) (fun s act => tipRun owner x s₁.shard.log.length s act = true) s₁ s) :
    TipPromise x s₁.shard.log.length s := by
  have hat : AtTip x s₁.shard.log.length s :=
    hrun.invariant (fun _ _ _ hs hok h => hs.step h hok) (.opened hpre hck ho hr hpc hopen)
  intro r p n hr hp htip hn
  have hreached := hat.kept.gapless.reached r p hr hp trivial
  rcases (hreached.handed hat.kept.sound.linked hat.kept.handed).2 n (Nat.zero_le n) hn with
    (hlt | hhanded) | hm
  · exact absurd hlt (Nat.not_lt.mpr htip)
  · exact hhanded
  · cases hm

/-- A reader that is about to open at the tip of an empty shard. -/
def openingAtTip : List Act := [.sub 0 (.acquire .opens 0), .sub 0 (.reader (.readRow true))]

/-- The reader loses its iterator and fetches another. -/
def losing : List Act := [
  .sub 0 (.reader .checkClosed), .sub 0 (.reader .drained), .sub 0 (.reader .notDue),
  .sub 0 (.reader .stamp), .sub 0 (.reader (.readFails .expired)),
  .sub 0 (.reader (.readRow true)), .sub 0 (.reader (.openIterator .iterator))]

/-- The iterator expires after a record was appended and before anything was read. -/
theorem tip_promise_fails : ∃ s₀ s₁ s : System Nat,
    exec (step id) (init {}) openingAtTip = some s₀ ∧
      (s₀.lease.checkpoint, s₀.lease.openedAt, (s₀.subs 0).reader.map Reader.pc) =
        (none, none, some (.fetching (.stream .latest) false false)) ∧
      s₀.step id (.sub 0 (.reader (.openIterator .iterator))) = some s₁ ∧
      exec (step id) s₁ (.append [1] :: losing) = some s ∧
      ¬ TipPromise 0 s₁.shard.log.length s := by
  have hrow : (exec (step id) (init {}) openingAtTip).map (fun s₀ =>
      (s₀.lease.checkpoint, s₀.lease.openedAt, (s₀.subs 0).reader.map Reader.pc)) =
      some (none, none, some (.fetching (.stream .latest) false false)) := by decide
  have hrun : ((exec (step id) (init {}) openingAtTip).bind fun s₀ =>
      (s₀.step id (.sub 0 (.reader (.openIterator .iterator)))).bind fun s₁ =>
        (exec (step id) s₁ (.append [1] :: losing)).map fun s =>
          (s₁.shard.log.length, (s.subs 0).reader.map Reader.position,
            (s.subs 0).refused, (s.subs 0).deliveries)) =
      some (0, some (some 1), [], []) := by decide
  obtain ⟨s₀, hs₀, hrun⟩ := Option.bind_eq_some_iff.mp hrun
  obtain ⟨s₁, hs₁, hrun⟩ := Option.bind_eq_some_iff.mp hrun
  obtain ⟨s, hs, hrun⟩ := Option.map_eq_some_iff.mp hrun
  obtain ⟨htip, hrun⟩ := Prod.mk.inj hrun
  obtain ⟨hpos, hrun⟩ := Prod.mk.inj hrun
  obtain ⟨href, hds⟩ := Prod.mk.inj hrun
  obtain ⟨r, hr, hp⟩ := Option.map_eq_some_iff.mp hpos
  rw [hs₀] at hrow
  replace hrow := Option.some.inj hrow
  refine ⟨s₀, s₁, s, hs₀, hrow, hs₁, hs, ?_⟩
  intro h
  rcases h r 1 0 hr hp (le_of_eq htip) Nat.one_pos with hhanded | ⟨d, hd, _⟩
  · rw [href] at hhanded
    cases hhanded
  · rw [hds] at hd
    cases hd

/-- The iterator expires after the first record was read. -/
theorem tip_promise_kept_reading : ∃ s₀ s₁ s : System Nat,
    exec (step id) (init {}) openingAtTip = some s₀ ∧
      s₀.step id (.sub 0 (.reader (.openIterator .iterator))) = some s₁ ∧
      exec (step id) s₁ ([.append [1]] ++ reading 0 1 false ++
        [.sub 0 (.reader (.recordOpening true)), .sub 0 (.reader .handOut),
          .sub 0 (.reader .batchDone)] ++ losing) = some s ∧
      TipPromise 0 s₁.shard.log.length s := by
  have hrun : ((check (step id) (each seekless) (init {}) openingAtTip).bind fun s₀ =>
      (s₀.step id (.sub 0 (.reader (.openIterator .iterator)))).bind fun s₁ =>
        (check (step id) (tipRun id 0 s₁.shard.log.length) s₁ ([.append [1]] ++
          reading 0 1 false ++ [.sub 0 (.reader (.recordOpening true)), .sub 0 (.reader .handOut),
            .sub 0 (.reader .batchDone)] ++ losing)).map fun _ =>
          (s₀.lease.checkpoint, s₀.lease.openedAt, (s₀.subs 0).reader.map Reader.pc)) =
      some (none, none, some (.fetching (.stream .latest) false false)) := by decide
  obtain ⟨s₀, hs₀, hrun⟩ := Option.bind_eq_some_iff.mp hrun
  obtain ⟨s₁, hs₁, hrun⟩ := Option.bind_eq_some_iff.mp hrun
  obtain ⟨s, hs, hrun⟩ := Option.map_eq_some_iff.mp hrun
  obtain ⟨hck, hrun⟩ := Prod.mk.inj hrun
  obtain ⟨ho, hrun⟩ := Prod.mk.inj hrun
  obtain ⟨r, hr, hpc⟩ := Option.map_eq_some_iff.mp hrun
  exact ⟨s₀, s₁, s, exec_of_check hs₀, hs₁, exec_of_check hs,
    tip_promise_kept (.of_check hs₀) hck ho hr hpc hs₁ (.of_check hs)⟩

end System

end RuststreamKinesis
