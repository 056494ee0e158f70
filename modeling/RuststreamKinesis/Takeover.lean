import RuststreamKinesis.Gapless

/-!
# At-least-once over takeovers

The row of a shard remembers one opening, and everything from there up to its checkpoint is done.
Until it is recorded nothing is handed out; from then on every reading of every instance starts
at a place all of which lies behind it, back to the opening, is done.
-/

namespace RuststreamKinesis

set_option autoImplicit false

open Window Runs

namespace Subscription

variable {Owner : Type} [DecidableEq Owner] {u u' : Subscription} {owner : Owner} {shard : Shard}
variable {lease lease' : MemoryLease Owner} {r r' : Reader} {a : SubAct}
variable {Done Done' : Nat → Prop} {o : Nat}

/-- A cursor read from a row opened at `o`. -/
def Cleared (Done : Nat → Prop) (o : Nat) (start : ShardStart) : Prop :=
  start = .atSeq o ∨ ∃ c, start = .afterSeq c ∧ DoneTo Done o c

theorem Cleared.mono {start : ShardStart} (h : Cleared Done o start)
    (hmono : ∀ n, Done n → Done' n) : Cleared Done' o start := by
  rcases h with rfl | ⟨c, rfl, hc⟩
  · exact .inl rfl
  · exact .inr ⟨c, rfl, hc.mono hmono⟩

theorem Cleared.through {start : ShardStart} (h : Cleared Done o start) :
    Through Done o (shard.place start) [] := by
  rcases h with rfl | ⟨c, rfl, hc⟩
  · exact .empty
  · exact hc.through (Order.covBy_add_one c)

/-- The row holds no opening: nothing was handed out and every reading is still to be recorded. -/
structure Unopened (u : Subscription) : Prop where
  trackers : ∀ w ∈ u.trackers, w = {}
  deliveries : u.deliveries = []
  reading : ∀ r p, u.reader = some r → r.position = some p → r.reading.unrecorded = true
  asked : ∀ r start recorded again, u.reader = some r →
    r.pc = .fetching start recorded again → recorded = false

/-- The row was opened at `o`: every recorded reading goes by it. -/
structure Follows (Done : Nat → Prop) (o : Nat) (u : Subscription) : Prop where
  gapless : Gapless (fun _ => True) (fun _ reading => reading.unrecorded = false) Done o u
  asked : ∀ r start again, u.reader = some r → r.pc = .fetching start true again →
    Cleared Done o start

theorem Unopened.books (h : Unopened u) (hb : Books shard u u') :
    (∀ w ∈ u'.trackers, w = {}) ∧ u'.deliveries = [] := by
  cases hb with
  | quiet ht hd =>
    refine ⟨ht ▸ h.trackers, List.length_eq_zero_iff.mp ?_⟩
    rw [hd.length, h.deliveries, List.length_nil]
  | fresh ht hd =>
    refine ⟨?_, hd.trans h.deliveries⟩
    intro w hw
    rw [ht] at hw
    rcases List.mem_append.mp hw with hw | hw
    · exact h.trackers w hw
    · exact List.mem_singleton.mp hw
  | @handed r epoch next stop last idle record w hr hpc hlt hrec =>
    have hpos := h.reading r next hr (Reader.position_forwarding hpc)
    exact absurd (hrec.symm.trans hpos) (by simp)
  | settled hget =>
    rw [h.deliveries] at hget
    cases hget

theorem Unopened.step (h : Unopened u) (hs : Step u owner shard lease a lease' u')
    (hc : ∀ c, lease.checkpoint ≠ some (.sequence c)) (ho : lease.openedAt = none)
    (ho' : lease'.openedAt = none) : Unopened u' := by
  obtain ⟨htrackers, hdeliveries⟩ := h.books hs.books
  refine ⟨htrackers, hdeliveries, ?_, ?_⟩
  · intro r' p hr' hp
    obtain ⟨r, hr, hm⟩ := hs.moved hr' hp
    cases hm with
    | stays hp _ hreading => exact hreading ▸ h.reading r p hr hp
    | opened _ hpc _ _ hreading =>
      have hrec := h.asked r _ _ _ hr hpc
      rw [hreading, hrec]
      rfl
    | sought _ _ _ _ _ hreading => rw [hreading]
    | recorded _ _ _ hl =>
      rw [hl] at ho'
      cases ho'
    | handed hpc _ hun =>
      have hpos := h.reading r _ hr (Reader.position_forwarding hpc)
      exact absurd (hun.symm.trans hpos) (by simp)
  · intro r' start recorded again hr' hpc'
    obtain ⟨r, hr, hask⟩ := hs.asked hr' hpc'
    cases hask with
    | stays hpc => exact h.asked r _ _ _ hr hpc
    | checkpoint _ _ _ _ _ hck => exact absurd hck (hc _)
    | blank _ _ _ _ _ _ _ hrec => rw [hrec, ho, Option.isSome_none]

theorem Unopened.opened (h : Unopened u) (hseat : Seated u')
    (hs : Step u owner shard lease a lease' u')
    (hc : ∀ c, lease.checkpoint ≠ some (.sequence c)) (ho : lease.openedAt = none)
    (ho' : lease'.openedAt = some o) : Follows Done o u' := by
  obtain ⟨htrackers, hdeliveries⟩ := h.books hs.books
  refine ⟨⟨.idle htrackers hdeliveries, ?_⟩, ?_⟩
  · intro r' p hr' hp hun'
    obtain ⟨r, hr, hm⟩ := hs.moved hr' hp
    cases hm with
    | stays hp _ hreading =>
      exact absurd (hun'.symm.trans (hreading ▸ h.reading r p hr hp)) (by simp)
    | opened _ hpc _ _ hreading =>
      rw [hreading, h.asked r _ _ _ hr hpc] at hun'
      cases hun'
    | sought _ _ _ _ _ hreading =>
      rw [hreading] at hun'
      cases hun'
    | recorded _ _ _ hl =>
      rw [hl] at ho'
      obtain rfl := Option.some.inj ho'
      exact .start (hseat r' hr').1 .empty
    | handed hpc _ hun =>
      have hpos := h.reading r _ hr (Reader.position_forwarding hpc)
      exact absurd (hun.symm.trans hpos) (by simp)
  · intro r' start again hr' hpc'
    obtain ⟨r, hr, hask⟩ := hs.asked hr' hpc'
    cases hask with
    | stays hpc => exact absurd (h.asked r _ _ _ hr hpc) (by simp)
    | checkpoint _ _ _ _ _ hck => exact absurd hck (hc _)
    | blank _ _ _ _ _ _ _ hrec =>
      rw [ho] at hrec
      cases hrec

theorem Unopened.follows (h : Unopened u) : Follows Done o u where
  gapless := ⟨.idle h.trackers h.deliveries,
    fun r p hr hp hun => absurd (hun.symm.trans (h.reading r p hr hp)) (by simp)⟩
  asked r start again hr hpc := absurd (h.asked r _ _ _ hr hpc) (by simp)

theorem Follows.mono (h : Follows Done o u) (hmono : ∀ n, Done n → Done' n) :
    Follows Done' o u where
  gapless := h.gapless.mono hmono
  asked r start again hr hpc := (h.asked r start again hr hpc).mono hmono

/-- The step lemma of a shard that was opened before. -/
theorem Follows.step (h : Follows Done o u) (hsound : Sound u)
    (hs : Step u owner shard lease a lease' u')
    (hc : ∀ c, lease.checkpoint = some (.sequence c) → DoneTo Done o c)
    (ho : lease.openedAt = some o)
    (hkept : ∀ r, u.reader = some r → r.reading.unrecorded = true → lease.owner ≠ some owner)
    (hmono : ∀ n, Done n → Done' n) (hunread : ∀ n, shard.Unreadable n → Done' n)
    (hacked : ∀ d ∈ u'.deliveries, d.phase.acked = true → Done' d.sequence) :
    Follows Done' o u' := by
  refine ⟨?_, ?_⟩
  · refine h.gapless.step hsound hs hmono (fun d hd _ => hacked d hd)
      (fun n hn _ => hunread n hn) (fun _ _ _ => trivial) ?_ ?_ ?_ ?_
    · intro r _ _ _ _ _ _ _ hun
      exact ⟨fun _ => hun, fun _ => hun⟩
    · intro r _ _ _ _ _ hr _ hun hown _
      exact absurd hown (hkept r hr hun)
    · intro r start recorded again p _ hr hpc hget hq
      obtain rfl : recorded = true := by simpa using hq
      have hclear := (h.asked r start again hr hpc).mono hmono
      exact Shard.getShardIterator_eq_place hget ▸ hclear.through
    · intro r call idle c p _ _ _ _ hq
      cases hq
  · intro r' start again hr' hpc'
    obtain ⟨r, hr, hask⟩ := hs.asked hr' hpc'
    cases hask with
    | stays hpc => exact (h.asked r start again hr hpc).mono hmono
    | checkpoint _ _ _ _ _ hck hstart => exact .inr ⟨_, hstart, (hc _ hck).mono hmono⟩
    | blank _ _ _ _ _ _ hstart =>
      rw [ho] at hstart
      exact .inl hstart

/-- The reading that goes on, or the one asked for, is still to be recorded in the row. -/
def Unmarked (r : Reader) : Prop :=
  r.reading.unrecorded = true ∨ ∃ start again, r.pc = .fetching start false again

theorem ReaderStep.unmarked {act : ReaderAct} (h : ReaderStep u owner shard lease r act lease' u')
    (hpc : ∀ call idle, r.pc ≠ .seeking call idle) (hr' : u'.reader = some r')
    (hun : Unmarked r') : Unmarked r ∨ lease.openedAt = none := by
  cases h with
  | @rowBlank again =>
    obtain rfl := Option.some.inj hr'
    rcases hun with hun | ⟨start, again, hpc'⟩
    · exact .inl (.inl hun)
    · exact .inr (by simpa using (Pc.fetching.inj hpc').2.1)
  | @opened start recorded again p hfetch =>
    obtain rfl := Option.some.inj hr'
    rcases hun with hun | ⟨start, again, hpc'⟩
    · obtain rfl : recorded = false := by simpa using hun
      exact .inl (.inr ⟨_, _, hfetch⟩)
    · cases hpc'
  | sought hseek | seekFailed hseek => exact absurd hseek (hpc _ _)
  | recorded hforward =>
    obtain rfl := Option.some.inj hr'
    rcases hun with hun | ⟨start, again, hpc'⟩
    · cases hun
    · exact .inl (.inr ⟨_, _, hpc'⟩)
  | @batchDone epoch stop idle =>
    obtain rfl := Option.some.inj hr'
    rcases hun with hun | ⟨start, again, hpc'⟩
    · exact .inl (.inl hun)
    · cases idle <;> cases hpc'
  | _ =>
    obtain rfl := Option.some.inj hr'
    rcases hun with hun | ⟨start, again, hpc'⟩
    · exact .inl (.inl hun)
    · cases hpc'

theorem Step.unmarked (h : Step u owner shard lease a lease' u') (hu : Unsought u)
    (ho : ∃ o, lease.openedAt = some o) (hr' : u'.reader = some r') (hun : Unmarked r') :
    ∃ r, u.reader = some r ∧ Unmarked r := by
  obtain ⟨o, ho⟩ := ho
  cases h with
  | reader hr h =>
    rcases h.unmarked (hu.reader _ hr).2 hr' hun with hun | hnone
    · exact ⟨_, hr, hun⟩
    · exact absurd (hnone.symm.trans ho) (by simp)
  | forgot => cases hr'
  | acquired =>
    obtain rfl := Option.some.inj hr'
    rcases hun with hun | ⟨start, again, hpc⟩
    · cases hun
    · cases hpc
  | @sent call c r _ _ hr =>
    obtain rfl := Option.some.inj hr'
    exact ⟨r, hr, hun⟩
  | _ => exact ⟨r', hr', hun⟩

theorem Step.taken_marked (h : Step u owner shard lease a lease' u') (hnone : u.reader = none)
    (hr' : u'.reader = some r') : ¬ Unmarked r' := by
  rintro hun
  cases h with
  | reader hr h => exact absurd (hnone.symm.trans hr) (by simp)
  | forgot => cases hr'
  | acquired =>
    obtain rfl := Option.some.inj hr'
    rcases hun with hun | ⟨start, again, hpc⟩
    · cases hun
    · cases hpc
  | sent _ _ hr => exact absurd (hnone.symm.trans hr) (by simp)
  | _ => exact absurd (hnone.symm.trans hr') (by simp)

theorem Step.opened_marked (h : Step u owner shard lease a lease' u')
    (ho : lease.openedAt = none) (ho' : lease'.openedAt = some o) (hr' : u'.reader = some r') :
    ¬ Unmarked r' := by
  rintro hun
  cases h with
  | reader hr h =>
    cases h with
    | recorded hpc =>
      obtain rfl := Option.some.inj hr'
      rcases hun with hun | ⟨start, again, hfetch⟩
      · cases hun
      · exact absurd (hpc.symm.trans hfetch) (by simp)
    | release =>
      rw [(release_row lease owner).2.1, ho] at ho'
      cases ho'
    | _ => exact absurd (ho.symm.trans ho') (by simp)
  | _ => exact absurd (ho.symm.trans ho') (by simp)

end Subscription

namespace System

variable {Owner : Type} [DecidableEq Owner] {owner : Nat → Owner} {s s' : System Owner} {act : Act}

/-- While the row holds no opening it holds no sequence number either, and no instance has handed
out anything. -/
def Blank (s : System Owner) : Prop :=
  s.lease.openedAt = none →
    (∀ c, s.lease.checkpoint ≠ some (.sequence c)) ∧ ∀ x, (s.subs x).Unopened

omit [DecidableEq Owner] in
theorem Blank.init (shard : Shard) : (init shard : System Owner).Blank := by
  intro _
  refine ⟨by simp [System.init, System.fresh], ?_⟩
  intro x
  constructor <;> simp [System.init, System.fresh]

theorem Blank.step (hs : s.Blank) (h : Step owner s act s') : s'.Blank := by
  intro ho'
  cases h with
  | service => exact hs ho'
  | @sub x a lease' u' hstep =>
    have hrow := hstep.row
    rcases hrow.openedAt with ho | ⟨_, n, _, _, _, _, rfl⟩
    · obtain ⟨hc, hx⟩ := hs (ho.symm.trans ho')
      refine ⟨?_, each_update ((hx x).step hstep hc (ho.symm.trans ho') ho') hx⟩
      intro c hc'
      rcases hrow.sequence hc' with hold | ⟨d, hd, _⟩
      · exact hc c hold
      · rw [(hx x).deliveries] at hd
        cases hd
    · cases ho'

/-- What every run without a seek keeps. -/
structure Steady (owner : Nat → Owner) (s : System Owner) : Prop where
  sound : ∀ x, (s.subs x).Sound
  unsought : ∀ x, (s.subs x).Unsought
  readable : s.Readable
  blank : s.Blank
  opened : ∀ o, s.lease.openedAt = some o →
    (∀ c, s.lease.checkpoint = some (.sequence c) → DoneTo s.Done o c) ∧
      ∀ x, (s.subs x).Follows s.Done o
  kept : ∀ o, s.lease.openedAt = some o → ∀ x r, s.lease.owner = some (owner x) →
    (s.subs x).reader = some r → ¬ Subscription.Unmarked r

omit [DecidableEq Owner] in
theorem Steady.init (shard : Shard) : Steady owner (init shard) where
  sound _ := .init
  unsought _ := .init
  readable x d hd := by simp [System.init, System.fresh] at hd
  blank := .init shard
  opened o ho := by simp [System.init, System.fresh] at ho
  kept o ho := by simp [System.init, System.fresh] at ho

omit [DecidableEq Owner] in
theorem acked_done {x : Nat} : ∀ d ∈ (s.subs x).deliveries, d.phase.acked = true →
    s.Done d.sequence := fun d hd hacked => .inr ⟨x, d, hd, rfl, hacked⟩

theorem Steady.step (hinj : Function.Injective owner) (hs : Steady owner s)
    (h : Step owner s act s') (hact : s.each Subscription.seekless act = true) :
    Steady owner s' := by
  have hmono : ∀ n, s.Done n → s'.Done n := fun n => h.done
  have hreadable := hs.readable.step h
  have hblank := hs.blank.step h
  cases h with
  | service =>
    refine ⟨hs.sound, hs.unsought, hreadable, hblank, ?_, hs.kept⟩
    intro o ho
    obtain ⟨hc, hx⟩ := hs.opened o ho
    exact ⟨fun c hc' => (hc c hc').mono hmono, fun x => (hx x).mono hmono⟩
  | @sub x a lease' u' hstep =>
    have hsound' := (hs.sound x).step hstep
    have hrow := hstep.row
    have hacked : ∀ d ∈ u'.deliveries, d.phase.acked = true →
        System.Done { s with lease := lease', subs := Function.update s.subs x u' } d.sequence :=
      fun d hd => acked_done (x := x) d (by simpa using hd)
    refine ⟨each_update hsound' hs.sound,
      each_update ((hs.unsought x).step hstep hact) hs.unsought, hreadable, hblank, ?_, ?_⟩
    · intro o ho'
      rcases hrow.openedAt with ho | ⟨r, n, hr, _, hun, hown, hl⟩
      · obtain ⟨hc, hx⟩ := hs.opened o (ho.symm.trans ho')
        refine ⟨?_, each_update ?_ fun y => (hx y).mono hmono⟩
        · intro c hc'
          rcases hrow.sequence hc' with hold | ⟨d, hd, hphase⟩
          · exact (hc c hold).mono hmono
          · exact ((hx x).gapless.tracked.watermark d hd trivial c (by rw [hphase]; rfl)).mono hmono
        · refine (hx x).step (hs.sound x) hstep hc (ho.symm.trans ho') ?_ hmono
            (fun n hn => .inl hn) hacked
          intro r hr hun hown
          exact hs.kept o (ho.symm.trans ho') x r hown hr (.inl hun)
      · cases hnone : s.lease.openedAt with
        | some o => exact absurd (.inl hun) (hs.kept o hnone x r hown hr)
        | none =>
          obtain ⟨hc, hx⟩ := hs.blank hnone
          refine ⟨?_, each_update ((hx x).opened hsound'.seated hstep hc hnone ho')
            fun y => (hx y).follows⟩
          intro c hc'
          rcases hrow.sequence hc' with hold | ⟨d, hd, _⟩
          · exact absurd hold (hc c)
          · rw [(hx x).deliveries] at hd
            cases hd
    · intro o ho' y r' hown' hr' hun'
      by_cases hy : y = x
      · subst hy
        simp only [Function.update_self] at hr'
        rcases hrow.openedAt with ho | ⟨r, _, hr, _, hun, hown, _⟩
        · rcases hrow.owned hown' with hown | ⟨_, hnone⟩
          · obtain ⟨r, hr, hun⟩ := hstep.unmarked (hs.unsought y) ⟨o, ho.symm.trans ho'⟩ hr' hun'
            exact hs.kept o (ho.symm.trans ho') y r hown hr hun
          · exact hstep.taken_marked hnone hr' hun'
        · cases hnone : s.lease.openedAt with
          | none => exact hstep.opened_marked hnone ho' hr' hun'
          | some o₀ => exact hs.kept o₀ hnone y r hown hr (.inl hun)
      · simp only [Function.update_of_ne hy] at hr'
        have hother : s.lease.owner = some (owner y) := by
          rcases hrow.owned hown' with hown | ⟨he, _⟩
          · exact hown
          · exact absurd (hinj he).symm hy
        rcases hrow.openedAt with ho | ⟨_, _, _, _, _, hown, _⟩
        · exact hs.kept o (ho.symm.trans ho') y r' hother hr' hun'
        · exact hy (hinj (Option.some.inj (hother.symm.trans hown)))

theorem Steady.run (hinj : Function.Injective owner) {shard : Shard}
    (h : Run (System.step owner) (fun s act => s.each Subscription.seekless act = true)
      (System.init shard) s) : Steady owner s :=
  h.invariant (fun _ _ _ hs hact h => hs.step hinj (step_cases h) hact) (.init shard)

/-- Whichever instance chooses a cursor over the row, and whenever the service then answers with
an iterator, every record handed out before that is not settled lies at or after it. -/
theorem cursor_covers_unsettled (hinj : Function.Injective owner) {shard : Shard} {x : Nat}
    {r' : Reader} {start : ShardStart} {recorded again : Bool}
    (hrun : Run (step owner) (fun s act => s.each Subscription.seekless act = true)
      (System.init shard) s)
    (hstep : s.step owner (.sub x (.reader (.readRow true))) = some s')
    (hr' : (s'.subs x).reader = some r') (hpc' : r'.pc = .fetching start recorded again) :
    ∀ y, ∀ d ∈ (s.subs y).deliveries, ¬ s.Settled d.sequence →
      ∀ later : Shard, later.place start ≤ d.sequence := by
  intro y d hd hunsettled later
  have hs := Steady.run hinj hrun
  have hundone := hs.readable.not_done hd hunsettled
  cases ho : s.lease.openedAt with
  | none =>
    rw [((hs.blank ho).2 y).deliveries] at hd
    cases hd
  | some o =>
    obtain ⟨hc, hfollows⟩ := hs.opened o ho
    have habove := (hfollows y).gapless.tracked.above d hd trivial
    obtain ⟨r, _, _, ⟨c, hck, rfl⟩ | ⟨_, rfl⟩⟩ := (sub_cases hstep).rowRead hr' hpc'
    · by_contra hlt
      have hle : d.sequence ≤ c := Nat.le_of_lt_succ (Nat.lt_of_not_le hlt)
      exact hundone ((hc c hck).2 d.sequence habove hle)
    · rw [ho]
      exact habove

/-- A reader opens an empty shard, hands out two records, and one of them is acked before another
instance takes the shard over. -/
def handover : List Act :=
  opening 0 .opens 0 ++ [.append [1], .append [2]] ++ reading 0 2 false ++
    [.sub 0 (.reader (.recordOpening true)), .sub 0 (.reader .handOut), .sub 0 (.reader .handOut),
      .sub 0 .poll, .sub 0 .poll] ++ acking 0 0 ++ [.sub 1 (.acquire .opens 20000)]

theorem cursor_covers_unsettled_handover : ∃ s : System Nat,
    exec (step id) (System.init {}) handover = some s ∧
      ∀ d ∈ (s.subs 0).deliveries, ¬ s.Settled d.sequence → 1 ≤ d.sequence := by
  have hread : ((check (step id) (each Subscription.seekless) (System.init {}) handover).bind
      fun s => (s.step id (.sub 1 (.reader (.readRow true)))).bind fun s' =>
        (s'.subs 1).reader.map Reader.pc) = some (.fetching (.afterSeq 0) true false) := by decide
  obtain ⟨s, hs, hread⟩ := Option.bind_eq_some_iff.mp hread
  obtain ⟨s', hs', hread⟩ := Option.bind_eq_some_iff.mp hread
  obtain ⟨r', hr', hpc'⟩ := Option.map_eq_some_iff.mp hread
  refine ⟨s, exec_of_check hs, ?_⟩
  intro d hd hn
  exact cursor_covers_unsettled Function.injective_id (.of_check hs) hs' hr' hpc' 0 d hd hn {}

end System

end RuststreamKinesis
