import RuststreamKinesis.Onward
import RuststreamKinesis.Takeover

/-!
# A shard outlives its readers

Whatever became of the readers of a shard, an instance that has none can take the lease once it has
run out and read on from the place the row names. The service does not refuse that place, as it is
one of a record that was read; and what it hands out is all that is not done since the shard was
first opened.
-/

namespace RuststreamKinesis

set_option autoImplicit false

open Window Runs

/-- The cursor that a row names, of a shard that was opened and is not finished. -/
def MemoryLease.cursor {Owner : Type} (lease : MemoryLease Owner) : Option ShardStart :=
  match lease.checkpoint, lease.openedAt with
  | some (.sequence c), _ => some (.afterSeq c)
  | none, some o => some (.atSeq o)
  | _, _ => none

/-- The steps of an instance that takes a shard and reads on, no request failing. -/
def SubAct.resumes : SubAct → Bool
  | .forgetFinished _ | .acquire _ _ | .reader (.readRow true)
  | .reader (.openIterator .iterator) => true
  | act => act.onward

namespace Subscription

variable {Owner : Type} [DecidableEq Owner] {u : Subscription} {lease : MemoryLease Owner}
variable {owner : Owner} {shard : Shard} {r : Reader} {start : ShardStart} {p : Nat}

/-- A reader that is gone is forgotten. -/
theorem forgets_gone (owner : Owner) (shard : Shard) (lease : MemoryLease Owner)
    (hgone : ∀ r, u.reader = some r → r.exited = true) :
    ∃ rewind, u.step owner shard lease (.forgetFinished true) =
      some (lease, { u with reader := none, rewind := rewind }) := by
  cases hr : u.reader with
  | none =>
    refine ⟨u.rewind, ?_⟩
    simp only [Subscription.step, forgetFinished, hr]
    rw [← hr]
  | some r =>
    have hexit := hgone r hr
    cases hpc : r.pc with
    | exited rewind =>
      cases rewind with
      | none => exact ⟨u.rewind, by simp only [Subscription.step, forgetFinished, hr, hpc]⟩
      | some rewind =>
        exact ⟨some rewind, by simp only [Subscription.step, forgetFinished, hr, hpc, if_true]⟩
    | _ => simp [Reader.exited, hpc] at hexit

theorem takes_lease {now : Nat} (hnone : u.reader = none)
    (hfree : lease.held owner now = false) :
    u.step owner shard lease (.acquire .opens now) =
      some ({ lease with owner := some owner, expires := some (now + leaseTtl) },
        u.spawn .opens) := by
  simp [Subscription.step, Subscription.acquire, hnone, MemoryLease.acquire, hfree]

theorem asks_cursor (hr : u.reader = some r) (hpc : r.pc = .opening false)
    (hcursor : lease.cursor = some start) :
    u.step owner shard lease (.reader (.readRow true)) =
      some (lease, u.goto r (.fetching start true false)) := by
  have hread : u.readRow lease r true = some (u.goto r (.fetching start true false)) := by
    unfold MemoryLease.cursor at hcursor
    split at hcursor
    · rename_i c hck
      obtain rfl := Option.some.inj hcursor
      simp [readRow, hpc, hck]
    · rename_i o hck ho
      obtain rfl := Option.some.inj hcursor
      simp [readRow, hpc, hck, ho]
    · cases hcursor
  simp only [Subscription.step, hr, Option.bind_some, readerStep, hread, Option.map_some]

theorem opens_at (hr : u.reader = some r) (hpc : r.pc = .fetching start true false)
    (hget : shard.getShardIterator (iteratorAt start) = some p) :
    u.step owner shard lease (.reader (.openIterator .iterator)) =
      some (lease, { u with reader := some { r with
        pc := .head
        iterator := p
        reading := { rewind := rewindTo start, unrecorded := false } } }) := by
  simp [Subscription.step, hr, readerStep, openIterator, hpc, hget]

end Subscription

namespace System

open Subscription

variable {Owner : Type} [DecidableEq Owner] {owner : Nat → Owner} {s s' : System Owner} {act : Act}
variable {x o p : Nat} {start : ShardStart}

/-- The act is a step onward of instance `x`, or one to a cursor to go on from. -/
def resumes (x : Nat) : Act → Bool
  | .sub y act => y == x && act.resumes
  | _ => false

/-- What the row and the trackers hold are places in the log. -/
structure Recorded (s : System Owner) : Prop where
  tracked : ∀ x, (s.subs x).Tracked (fun _ => True) (· < s.shard.log.length) 0
  checkpoint : ∀ c, s.lease.checkpoint = some (.sequence c) → c < s.shard.log.length
  openedAt : ∀ o, s.lease.openedAt = some o → o < s.shard.log.length

omit [DecidableEq Owner] in
theorem Readable.inLog {d : Delivery} (h : s.Readable) (hd : d ∈ (s.subs x).deliveries) :
    d.sequence < s.shard.log.length := by
  obtain ⟨record, hget, -⟩ := h x d hd
  exact (List.getElem?_eq_some_iff.mp hget).1

theorem Recorded.step (hs : Recorded s) (hord : ∀ x, Orderly s.shard (s.subs x))
    (hread : s'.Readable) (h : Step owner s act s') : Recorded s' := by
  cases h with
  | service hg =>
    have hle := hg.length_le
    refine ⟨fun x => (hs.tracked x).mono fun n hn => ?_, fun c hc => ?_, fun o ho => ?_⟩
    · exact Nat.lt_of_lt_of_le hn hle
    · exact Nat.lt_of_lt_of_le (hs.checkpoint c hc) hle
    · exact Nat.lt_of_lt_of_le (hs.openedAt o ho) hle
  | @sub x a lease' u' hstep =>
    have hacked : ∀ d ∈ u'.deliveries, d.sequence < s.shard.log.length := by
      intro d hd
      exact hread.inLog (x := x) (by simpa using hd)
    refine ⟨each_update ?_ hs.tracked, ?_, ?_⟩
    · refine (hs.tracked x).books (hord x).sound.linked hstep.books (fun n hn => hn)
        (fun d hd _ _ => hacked d hd) ?_
      intro r epoch next stop last idle d hr hpc _ _ _ _ hlt _
      have hin := ((hord x).inLog r epoch next stop last idle hr hpc).2
      refine .start ((hord x).sound.seated r hr).1 ⟨Nat.zero_le _, ?_⟩
      intro n _ hn
      exact .inl (by omega)
    · intro c hc
      rcases hstep.row.sequence hc with hold | ⟨d, hd, hphase⟩
      · exact hs.checkpoint c hold
      · have hdone := (hs.tracked x).watermark d hd trivial c (by rw [hphase]; rfl)
        exact hdone.2 c (Nat.zero_le c) (Nat.le_refl c)
    · intro o ho
      cases hstep.row with
      | kept _ hkept => exact hs.openedAt o (hkept ▸ ho)
      | taken _ hkept => exact hs.openedAt o (hkept ▸ ho)
      | @opened r epoch n stop last idle hr hpc _ _ hl hlt =>
        rw [hl] at ho
        obtain rfl := Option.some.inj ho
        have hin := ((hord x).inLog r epoch n stop last idle hr hpc).2
        exact Nat.lt_of_lt_of_le hlt hin
      | ended _ _ _ _ _ hl =>
        rw [hl] at ho
        exact hs.openedAt o ho
      | written _ _ _ _ hl =>
        rw [hl] at ho
        exact hs.openedAt o ho

theorem recorded_run {shard : Shard} (h : Run (step owner) (fun _ _ => True) (init shard) s) :
    Recorded s := by
  have hinv := h.invariant (I := fun s => (∀ x, Orderly s.shard (s.subs x)) ∧ s.Readable ∧
    Recorded s) ?_ ?_
  · exact hinv.2.2
  · rintro s act s' ⟨hord, hread, hrec⟩ _ hstep
    have hread' := hread.step (step_cases hstep)
    refine ⟨fun x => ?_, hread', hrec.step hord hread' (step_cases hstep)⟩
    have hg := (step_cases hstep).grows
    rcases (step_cases hstep).at x with he | ⟨a, rfl, ha⟩
    · exact he ▸ (hord x).grows hg
    · exact ((hord x).step ha).grows hg
  · refine ⟨fun x => .init, ?_, fun x => .idle ?_ rfl, ?_, ?_⟩
    · intro x d hd
      cases hd
    · intro w hw
      cases hw
    · intro c hc
      cases hc
    · intro o ho
      cases ho

omit [DecidableEq Owner] in
/-- The service gives an iterator at the cursor the row names, and all before it is done. -/
theorem cursor_iterator (hs : Steady owner s) (hrec : Recorded s) (ho : s.lease.openedAt = some o)
    (hend : s.lease.checkpoint ≠ some .shardEnd) :
    ∃ start p, s.lease.cursor = some start ∧
      s.shard.getShardIterator (iteratorAt start) = some p ∧ ∀ n, o ≤ n → n < p → s.Done n := by
  cases hck : s.lease.checkpoint with
  | none =>
    have hin := hrec.openedAt o ho
    refine ⟨.atSeq o, o, by simp [MemoryLease.cursor, hck, ho], ?_, ?_⟩
    · simp [iteratorAt, Shard.getShardIterator, hin]
    · intro n hle hlt
      omega
  | some checkpoint =>
    cases checkpoint with
    | shardEnd => exact absurd hck hend
    | sequence c =>
      have hin := hrec.checkpoint c hck
      refine ⟨.afterSeq c, c + 1, by simp [MemoryLease.cursor, hck], ?_, ?_⟩
      · simp [iteratorAt, Shard.getShardIterator, hin]
      · intro n hle hlt
        exact ((hs.opened o ho).1 c hck).2 n hle (Nat.le_of_lt_succ hlt)

theorem sub_leads {a : SubAct} {lease' : MemoryLease Owner} {u' : Subscription}
    (h : (s.subs x).step (owner x) s.shard s.lease a = some (lease', u')) :
    ∃ m, s.step owner (.sub x a) = some m ∧ m.shard = s.shard ∧ m.lease = lease' ∧
      m.subs x = u' :=
  ⟨_, sub_step h, rfl, rfl, Function.update_self ..⟩

theorem held_at_end {lease : MemoryLease Owner} {o : Owner} :
    lease.held o (lease.expires.getD 0) = false := by
  cases he : lease.expires <;> simp [MemoryLease.held, he]

/-- An instance without a reader takes the lease and opens at the cursor the row names. -/
theorem takes_up (owner : Nat → Owner) (hopen : (s.subs x).closed = false)
    (hgone : ∀ r, (s.subs x).reader = some r → r.exited = true)
    (hcursor : s.lease.cursor = some start)
    (hget : s.shard.getShardIterator (iteratorAt start) = some p) :
    ∃ m r, Run (step owner) (fun _ act => resumes x act = true) s m ∧ m.shard = s.shard ∧
      (m.subs x).sequences = (s.subs x).sequences ∧
      Onward m.shard (owner x) m.lease (m.subs x) r p := by
  obtain ⟨rewind, hforget⟩ := forgets_gone (owner x) s.shard s.lease hgone
  obtain ⟨m₀, h₀, hshard₀, hlease₀, hsub₀⟩ := sub_leads hforget
  have hnone : (m₀.subs x).reader = none := by rw [hsub₀]
  have hfree : m₀.lease.held (owner x) (m₀.lease.expires.getD 0) = false := held_at_end
  obtain ⟨m₁, h₁, hshard₁, hlease₁, hsub₁⟩ := sub_leads (takes_lease hnone hfree)
  have hcursor₁ : m₁.lease.cursor = some start := by
    rw [hlease₁, hlease₀]
    exact hcursor
  obtain ⟨m₂, h₂, hshard₂, hlease₂, hsub₂⟩ :=
    sub_leads (asks_cursor (congrArg Subscription.reader hsub₁) rfl hcursor₁)
  have hget₂ : m₂.shard.getShardIterator (iteratorAt start) = some p := by
    rw [hshard₂, hshard₁, hshard₀]
    exact hget
  obtain ⟨m₃, h₃, hshard₃, hlease₃, hsub₃⟩ :=
    sub_leads (opens_at (congrArg Subscription.reader hsub₂) rfl hget₂)
  have hmine : ∀ a : SubAct, a.resumes = true → resumes x (.sub x a) = true := by
    intro a ha
    simp only [resumes, beq_self_eq_true, ha, Bool.and_self]
  have hrun : Run (step owner) (fun _ act => resumes x act = true) s m₃ :=
    .tail (.tail (.tail (.single (hmine _ rfl) h₀) (hmine _ rfl) h₁) (hmine _ rfl) h₂)
      (hmine _ rfl) h₃
  have hu : ((m₃.subs x).closed, (m₃.subs x).deliveries) =
      ((s.subs x).closed, (s.subs x).deliveries) := by
    rw [hsub₃, hsub₂, hsub₁, hsub₀]
    rfl
  obtain ⟨hclosed, hdeliveries⟩ := Prod.mk.inj hu
  refine ⟨m₃, _, hrun, ?_, ?_, hclosed.trans hopen, congrArg Subscription.reader hsub₃, rfl, rfl,
    ?_, rfl, by simp⟩
  · rw [hshard₃, hshard₂, hshard₁, hshard₀]
  · rw [Subscription.sequences, hdeliveries, Subscription.sequences]
  · rw [hshard₃]
    exact Shard.getShardIterator_le hget₂

omit [DecidableEq Owner] in
theorem resumes_of_onward (h : onward x act = true) : resumes x act = true := by
  cases act with
  | sub y a =>
    simp only [onward, resumes, Bool.and_eq_true] at h ⊢
    refine ⟨h.1, ?_⟩
    unfold SubAct.resumes
    split
    · rfl
    · rfl
    · rfl
    · rfl
    · exact h.2
  | _ => cases h

omit [DecidableEq Owner] in
theorem refusedAt_unreadable {n : Nat} (h : s.refusedAt n = true) : s.shard.Unreadable n := by
  unfold refusedAt at h
  cases hget : s.shard.log[n]? with
  | none => simp [hget] at h
  | some record => exact ⟨record, hget, by simpa [hget] using h⟩

/-- However the readers of a shard fared, as long as no seek was made, the service gives an iterator
at the place the row names, all before it is done, and an instance that has no reader can, by steps
of its own alone, hand out in order every record since the shard was first opened that is not
done. -/
theorem recovers (hinj : Function.Injective owner) {shard : Shard}
    (hrun : Run (step owner) (fun s act => s.each Subscription.seekless act = true)
      (System.init shard) s)
    (hopen : (s.subs x).closed = false)
    (hgone : ∀ r, (s.subs x).reader = some r → r.exited = true)
    (ho : s.lease.openedAt = some o) (hend : s.lease.checkpoint ≠ some .shardEnd) :
    (∃ start p, s.lease.cursor = some start ∧
        s.shard.getShardIterator (iteratorAt start) = some p ∧
        ∀ n, o ≤ n → n < p → s.Done n) ∧
      ∃ bs s' again, (∀ act ∈ bs, resumes x act = true) ∧ exec (step owner) s bs = some s' ∧
        s'.shard = s.shard ∧ (s'.subs x).sequences = (s.subs x).sequences ++ again ∧
        again.Pairwise (· < ·) ∧
        ∀ n, o ≤ n → n < s.shard.log.length → s.Done n ∨ n ∈ again := by
  have hall : Run (step owner) (fun _ _ => True) (System.init shard) s :=
    hrun.mono fun _ _ _ => trivial
  obtain ⟨start, p, hcursor, hget, hbefore⟩ :=
    cursor_iterator (Steady.run hinj hrun) (recorded_run hall) ho hend
  obtain ⟨m, r, hup, hshard, hsame, honward⟩ := takes_up owner hopen hgone hcursor hget
  have hfull := hall.trans (hup.mono fun _ _ _ => trivial)
  obtain ⟨bs, s', hbs, hexec, hshard', hseq, -⟩ :=
    reads_to_end (orderly_run hfull x) (endsLog_run hfull x) honward
  obtain ⟨as, hmine, has⟩ := hup.exists_exec
  refine ⟨⟨start, p, hcursor, hget, hbefore⟩, as ++ bs, s', _, ?_, ?_, hshard'.trans hshard,
    hsame ▸ hseq, List.Pairwise.filter _ (List.pairwise_lt_range' ..), ?_⟩
  · intro act hact
    rcases List.mem_append.mp hact with hact | hact
    · exact hmine act hact
    · exact resumes_of_onward (hbs act hact)
  · rw [exec_append has, hexec]
  · intro n hle hlt
    rcases Nat.lt_or_ge n p with hlow | hhigh
    · exact .inl (hbefore n hle hlow)
    · have hin : n ∈ List.range' p (m.shard.log.length - p) := by
        rw [List.mem_range'_1, hshard]
        omega
      cases href : m.refusedAt n with
      | true =>
        have hunread := refusedAt_unreadable href
        rw [hshard] at hunread
        exact .inl (.inl hunread)
      | false => exact .inr (List.mem_filter.mpr ⟨hin, by simp [href]⟩)

/-- Of two records one is acked when the lease runs out: another instance hands out the other. -/
theorem recovers_handover : ∃ (s s' : System Nat) (bs : List Act) (again : List Nat),
    exec (step id) (System.init {}) handover.dropLast = some s ∧
    (∀ act ∈ bs, resumes 1 act = true) ∧ exec (step id) s bs = some s' ∧
    (s'.subs 1).sequences = again ∧ ∀ n < 2, s.Done n ∨ n ∈ again := by
  obtain ⟨s, hs, hopen, hgone, ho, hend, hlen, hseq⟩ : ∃ s : System Nat,
      check (step id) (each Subscription.seekless) (System.init {}) handover.dropLast = some s ∧
      (s.subs 1).closed = false ∧ (s.subs 1).reader = none ∧ s.lease.openedAt = some 0 ∧
      s.lease.checkpoint = some (.sequence 0) ∧ s.shard.log.length = 2 ∧
      (s.subs 1).sequences = [] := ⟨_, rfl, rfl, rfl, rfl, rfl, rfl, rfl⟩
  obtain ⟨-, bs, s', again, hmine, hexec, -, hagain, -, hdone⟩ :=
    recovers (x := 1) Function.injective_id (.of_check hs) hopen (by simp [hgone]) ho
      (by simp [hend])
  refine ⟨s, s', bs, again, exec_of_check hs, hmine, hexec, ?_, ?_⟩
  · rw [hagain, hseq, List.nil_append]
  · intro n hn
    exact hdone n (Nat.zero_le n) (hlen ▸ hn)

end System

end RuststreamKinesis
