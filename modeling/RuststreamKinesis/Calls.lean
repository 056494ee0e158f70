import RuststreamKinesis.Commands

/-!
# What becomes of a call

A seek returns without an error once the reader it was sent to has applied it. One over the whole
stream also does where there is no such reader any more: the next one opens at the installed
position. Either way what was read of the shard until then is old; nothing read later is.
-/

namespace RuststreamKinesis

set_option autoImplicit false

/-- A seek over every shard of the stream. -/
def ShardStart.wide : ShardStart → Bool
  | .stream _ => true
  | .atSeq _ | .afterSeq _ => false

def SeekCall.outcome (c : SeekCall) : Option Outcome :=
  match c.phase with
  | .answered outcome | .returned outcome => some outcome
  | _ => none

/-- The outcome is no error of the seek, which if it goes over the whole stream leaves a reader
that has gone alone. -/
def SeekCall.fine (c : SeekCall) : Bool :=
  match c.outcome with
  | some (.moved _) => true
  | some .shutDown | some .noReader => c.start.wide
  | _ => false

/-- The seek returned without an error of this shard. -/
def SeekCall.ok (c : SeekCall) : Bool :=
  match c.phase with
  | .returned _ => c.fine
  | _ => false

theorem SeekCall.fine_of_ok {c : SeekCall} (h : c.ok = true) : c.fine = true := by
  unfold SeekCall.ok at h
  split at h
  · exact h
  · cases h

/-- The gates of the readers up to the one the call was made on are those below. -/
def SeekCall.left (c : SeekCall) : Nat :=
  if c.outcome = some .noReader then c.gate else c.gate + 1

/-- The delivery was read before the call was applied, or by a reader that was gone. -/
def SeekCall.old (c : SeekCall) (d : Delivery) : Bool :=
  match c.outcome with
  | some (.moved applied) => decide (d.via < applied)
  | _ => decide (d.gate < c.left)

theorem SeekCall.old_congr {c c' : SeekCall} {d : Delivery} (ho : c.outcome = c'.outcome)
    (hg : c.gate = c'.gate) : c.old d = c'.old d := by
  unfold SeekCall.old SeekCall.left
  rw [ho, hg]

/-- The call has bumped its gate and its command has not been applied yet. -/
def SeekCall.Pending (c : SeekCall) : Prop := c.phase = .bumped ∨ c.phase = .sent

/-- There was no reader any more to apply the call. -/
def SeekCall.Gone (c : SeekCall) : Prop :=
  c.outcome = some .shutDown ∨ c.outcome = some .noReader

theorem SeekCall.Gone.old_eq {c : SeekCall} (h : c.Gone) (d : Delivery) :
    c.old d = decide (d.gate < c.left) := by
  unfold SeekCall.old
  rcases h with ho | ho <;> rw [ho]

/-- A call that came to a good end was applied, or was one over the stream whose reader was gone. -/
theorem SeekCall.fine_cases {c : SeekCall} (h : c.fine = true) :
    (∃ applied, c.outcome = some (.moved applied)) ∨ c.Gone := by
  unfold SeekCall.fine at h
  split at h
  · exact .inl ⟨_, ‹_›⟩
  · exact .inr (.inl ‹_›)
  · exact .inr (.inr ‹_›)
  · cases h

theorem SeekCall.outcome_of_fine {c : SeekCall} (h : c.fine = true) :
    ∃ outcome, c.outcome = some outcome := by
  rcases SeekCall.fine_cases h with ⟨_, ho⟩ | ho | ho <;> exact ⟨_, ho⟩

namespace Subscription

variable {Owner : Type} [DecidableEq Owner] {u u' : Subscription} {owner : Owner} {shard : Shard}
variable {lease lease' : MemoryLease Owner} {a : SubAct} {call gate : Nat} {c c' : SeekCall}

/-- What a step makes of a call. -/
inductive Answers (u u' : Subscription) (shard : Shard) (a : SubAct) (call : Nat) (c : SeekCall) :
    CallPhase → Prop where
  | same : Answers u u' shard a call c c.phase
  | bumped : c.phase = .found → Answers u u' shard a call c .bumped
  | sent : c.phase = .bumped → Answers u u' shard a call c .sent
  | gone : c.phase = .bumped ∨ c.phase = .sent → u.live c.gate = false → u'.reader = u.reader →
      Answers u u' shard a call c (.returned .shutDown)
  | failed : c.phase = .sent → Answers u u' shard a call c (.answered .failed)
  | moved {r r' : Reader} {p : Nat} : c.phase = .sent → a = .reader (.applySeek .iterator) →
      u.reader = some r → r.gate = c.gate → r.exited = false →
      shard.getShardIterator (iteratorAt c.start) = some p → u'.reader = some r' →
      r'.gate = c.gate → r'.position = some p → u'.applied = u.applied + 1 →
      Answers u u' shard a call c (.answered (.moved (u.applied + 1)))
  | returned {outcome : Outcome} : c.phase = .answered outcome →
      Answers u u' shard a call c (.returned outcome)

/-- A call stays the call it is, and its answer is the reader's. -/
theorem Step.answers (h : Step u owner shard lease a lease' u') (hcom : Commanded u)
    (hc : u.calls[call]? = some c) :
    ∃ c', u'.calls[call]? = some c' ∧ c'.gate = c.gate ∧ c'.start = c.start ∧
      Answers u u' shard a call c c'.phase := by
  have other : ∀ {j : Nat} {new : SeekCall}, u'.calls = u.calls.set j new → call ≠ j →
      u'.calls[call]? = some c := fun hcs hne => hcs ▸ (Cells.get_set_ne hne).trans hc
  have sent : ∀ {r : Reader} {j : Nat} {idle : Bool} {c₀ : SeekCall}, u.reader = some r →
      r.pc = .seeking j idle → u.calls[j]? = some c₀ → c₀.phase = .sent ∧ c₀.gate = r.gate := by
    intro r j idle c₀ hr hpc hj
    obtain ⟨c₁, hj₁, hp, hg⟩ := hcom.sent r j hr (by simp [Reader.waiting, hpc])
    obtain rfl := Option.some.inj (hj.symm.trans hj₁)
    exact ⟨hp, hg⟩
  cases h with
  | @reader r act _ _ hr hs =>
    cases hs with
    | @sought j idle c₀ p hpc hj hget =>
      by_cases he : call = j
      · subst he
        obtain rfl := Option.some.inj (hc.symm.trans hj)
        obtain ⟨hp, hg⟩ := sent hr hpc hj
        refine ⟨_, Cells.get_set_self hc, rfl, rfl, ?_⟩
        have hx : r.exited = false := by simp [Reader.exited, hpc]
        refine .moved hp rfl hr hg.symm hx hget rfl hg.symm ?_ rfl
        cases idle <;> rfl
      · exact ⟨c, other rfl he, rfl, rfl, .same⟩
    | @seekFailed j idle c₀ reply hpc hj =>
      by_cases he : call = j
      · subst he
        obtain rfl := Option.some.inj (hc.symm.trans hj)
        exact ⟨_, Cells.get_set_self hc, rfl, rfl, .failed (sent hr hpc hj).1⟩
      · exact ⟨c, other rfl he, rfl, rfl, .same⟩
    | _ => exact ⟨c, hc, rfl, rfl, .same⟩
  | findLive | findNone => exact ⟨c, Cells.get_push_old hc, rfl, rfl, .same⟩
  | @bump j epoch c₀ hj hp =>
    by_cases he : call = j
    · subst he
      obtain rfl := Option.some.inj (hc.symm.trans hj)
      exact ⟨_, Cells.get_set_self hc, rfl, rfl, .bumped hp⟩
    · exact ⟨c, other rfl he, rfl, rfl, .same⟩
  | @sent j c₀ r hj hp =>
    by_cases he : call = j
    · subst he
      obtain rfl := Option.some.inj (hc.symm.trans hj)
      exact ⟨_, Cells.get_set_self hc, rfl, rfl, .sent hp⟩
    · exact ⟨c, other rfl he, rfl, rfl, .same⟩
  | @sendGone j c₀ hj hp hlive =>
    by_cases he : call = j
    · subst he
      obtain rfl := Option.some.inj (hc.symm.trans hj)
      exact ⟨_, Cells.get_set_self hc, rfl, rfl, .gone (.inl hp) hlive rfl⟩
    · exact ⟨c, other rfl he, rfl, rfl, .same⟩
  | @answered j c₀ outcome hj hp =>
    by_cases he : call = j
    · subst he
      obtain rfl := Option.some.inj (hc.symm.trans hj)
      exact ⟨_, Cells.get_set_self hc, rfl, rfl, .returned hp⟩
    · exact ⟨c, other rfl he, rfl, rfl, .same⟩
  | @answerGone j c₀ hj hp hlive =>
    by_cases he : call = j
    · subst he
      obtain rfl := Option.some.inj (hc.symm.trans hj)
      exact ⟨_, Cells.get_set_self hc, rfl, rfl, .gone (.inr hp) hlive rfl⟩
    · exact ⟨c, other rfl he, rfl, rfl, .same⟩
  | _ => exact ⟨c, hc, rfl, rfl, .same⟩

/-- A call that returned is settled. -/
theorem Answers.returned_same {outcome : Outcome} {phase : CallPhase}
    (h : Answers u u' shard a call c phase) (hp : c.phase = .returned outcome) :
    phase = .returned outcome := by
  cases h with
  | same => exact hp
  | gone h => rcases h with h | h <;> cases h.symm.trans hp
  | bumped h | sent h | failed h | moved h | returned h => cases h.symm.trans hp

theorem live_iff : u.live gate = true ↔
    ∃ r, u.reader = some r ∧ r.gate = gate ∧ r.exited = false := by
  unfold live
  cases u.reader with
  | none => simp
  | some r => simp

/-- A reader that is gone does not come back: the next one has a gate of its own. -/
theorem Step.gone (h : Step u owner shard lease a lease' u') (hlive : u.live gate = false)
    (hlt : gate < u.gates.length) : u'.live gate = false := by
  rw [← Bool.not_eq_true, live_iff]
  rintro ⟨r', hr', rfl, hx'⟩
  obtain ⟨r, hr, hg, hx⟩ := h.reader_old hr' hx' hlt
  rw [← Bool.not_eq_true, live_iff] at hlive
  exact hlive ⟨r, hr, hg.symm, hx⟩

/-- How a call came to its outcome. -/
inductive Concluded (u u' : Subscription) (a : SubAct) (c' : SeekCall) : Outcome → Prop where
  | before {c : SeekCall} {outcome : Outcome} (hc : c ∈ u.calls) (ho : c.outcome = c'.outcome)
      (hg : c.gate = c'.gate) (hst : c.start = c'.start) : Concluded u u' a c' outcome
  | moved {c : SeekCall} {r : Reader} (hc : c ∈ u.calls) (hp : c.phase = .sent)
      (ha : a = .reader (.applySeek .iterator)) (hr : u.reader = some r) (hg : r.gate = c.gate)
      (hx : r.exited = false) (happ : u'.applied = u.applied + 1) :
      Concluded u u' a c' (.moved (u.applied + 1))
  | failed : Concluded u u' a c' .failed
  | gone {c : SeekCall} (hc : c ∈ u.calls) (hp : c.Pending) (hlive : u.live c.gate = false)
      (hg : c.gate = c'.gate) (hst : c.start = c'.start) : Concluded u u' a c' .shutDown
  | noReader (ha : a = .find c'.start) (hh : u.handle = none) (hg : c'.gate = u.gates.length) :
      Concluded u u' a c' .noReader

theorem Step.concluded {outcome : Outcome} (h : Step u owner shard lease a lease' u')
    (hcom : Commanded u) (hc' : c' ∈ u'.calls) (ho : c'.outcome = some outcome) :
    Concluded u u' a c' outcome := by
  obtain ⟨call, hget'⟩ := List.mem_iff_getElem?.mp hc'
  have hlt := Cells.get_lt hget'
  cases hold : u.calls[call]? with
  | some c =>
    obtain ⟨c₁, hc₁, hg, hst, hans⟩ := h.answers hcom hold
    obtain rfl := Option.some.inj (hget'.symm.trans hc₁)
    have hc := List.mem_of_getElem? hold
    generalize hp' : c'.phase = phase at hans
    cases hans with
    | same => exact .before hc (by simp [SeekCall.outcome, hp']) hg.symm hst.symm
    | returned hp => exact .before hc (by simp [SeekCall.outcome, hp', hp]) hg.symm hst.symm
    | gone hp hlive =>
      obtain rfl : Outcome.shutDown = outcome := by simpa [SeekCall.outcome, hp'] using ho
      exact .gone hc hp hlive hg.symm hst.symm
    | failed =>
      obtain rfl : Outcome.failed = outcome := by simpa [SeekCall.outcome, hp'] using ho
      exact .failed
    | moved hp ha hr hgate hx _ _ _ _ happ =>
      obtain rfl : Outcome.moved (u.applied + 1) = outcome := by
        simpa [SeekCall.outcome, hp'] using ho
      exact .moved hc hp ha hr hgate hx happ
    | bumped | sent => simp [SeekCall.outcome, hp'] at ho
  | none =>
    have hge : u.calls.length ≤ call := List.getElem?_eq_none_iff.mp hold
    cases h.gated with
    | found _ hcs _ hp ha =>
      rcases Cells.get_push (hcs ▸ hget') with hget' | ⟨_, rfl⟩
      · cases hold.symm.trans hget'
      · rcases hp with ⟨hp, _⟩ | ⟨hp, hh, hg⟩
        · simp [SeekCall.outcome, hp] at ho
        · obtain rfl : Outcome.noReader = outcome := by simpa [SeekCall.outcome, hp] using ho
          exact .noReader ha hh hg
    | quiet _ hcs | fresh _ hcs =>
      rw [hcs] at hlt
      omega
    | bumped _ _ _ _ hcs | applied _ _ _ _ hcs | turned _ _ hcs =>
      rw [hcs, List.length_set] at hlt
      omega

/-- The call that a step brings back to its seeker. -/
def returns (u : Subscription) : SubAct → Option SeekCall
  | .find start =>
    if u.handle.isNone then some ⟨u.gates.length, start, 0, .returned .noReader⟩ else none
  | .send call => do
    let c ← u.calls[call]?
    if c.phase = .bumped ∧ u.live c.gate = false then
      some { c with phase := .returned .shutDown }
    else none
  | .answer call => do
    let c ← u.calls[call]?
    match c.phase with
    | .answered outcome => some { c with phase := .returned outcome }
    | .sent => if u.live c.gate then none else some { c with phase := .returned .shutDown }
    | _ => none
  | _ => none

theorem Step.returns (hs : Step u owner shard lease a lease' u') (hc' : c' ∈ u'.calls)
    (hok : c'.ok = true) : c' ∈ u.calls ∨ u.returns a = some c' := by
  have turned : ∀ {j : Nat} {c : SeekCall} {phase : CallPhase},
      c' ∈ u.calls.set j { c with phase := phase } → (∀ outcome, phase ≠ .returned outcome) →
      c' ∈ u.calls := by
    intro j c phase hmem hne
    rcases Cells.mem_set hmem with rfl | hmem
    · cases phase with
      | returned outcome => exact absurd rfl (hne outcome)
      | _ => cases hok
    · exact hmem
  cases hs with
  | reader _ hs =>
    cases hs with
    | sought | seekFailed => exact .inl (turned hc' (by simp))
    | _ => exact .inl hc'
  | findLive =>
    rcases Cells.mem_push hc' with hc' | rfl
    · exact .inl hc'
    · cases hok
  | findNone hh =>
    rcases Cells.mem_push hc' with hc' | rfl
    · exact .inl hc'
    · exact .inr (by simp [Subscription.returns, hh])
  | bump =>
    rcases Cells.mem_set hc' with rfl | hc'
    · cases hok
    · exact .inl hc'
  | sent => exact .inl (turned hc' (by simp))
  | sendGone hget hp hlive =>
    rcases Cells.mem_set hc' with rfl | hc'
    · exact .inr (by simp [Subscription.returns, hget, hp, hlive])
    · exact .inl hc'
  | answered hget hp =>
    rcases Cells.mem_set hc' with rfl | hc'
    · exact .inr (by simp [Subscription.returns, hget, hp])
    · exact .inl hc'
  | answerGone hget hp hlive =>
    rcases Cells.mem_set hc' with rfl | hc'
    · exact .inr (by simp [Subscription.returns, hget, hp, hlive])
    · exact .inl hc'
  | _ => exact .inl hc'

/-- A step that brings a call back touches nothing but the calls. -/
theorem Step.returning (hs : Step u owner shard lease a lease' u') (h : u.returns a = some c) :
    u'.deliveries = u.deliveries ∧ u'.gates = u.gates := by
  cases hs with
  | findLive | findNone | sent | sendGone | answered | answerGone => exact ⟨rfl, rfl⟩
  | _ => cases h

/-- The gates rank the readers: the last one is the reader's there is, which is the registered one
as long as it lives, and a call that found its reader gone is about earlier ones only. -/
structure Ranked (u : Subscription) : Prop where
  commanded : Commanded u
  latest : ∀ r, u.reader = some r → r.gate + 1 = u.gates.length
  registered : ∀ r, u.reader = some r → r.exited = false → u.handle = some r.gate
  gone : ∀ c ∈ u.calls, c.Gone → c.left ≤ u.gates.length ∧
    ∀ r, u.reader = some r → r.exited = false → c.left ≤ r.gate
  applied : ∀ c ∈ u.calls, ∀ n, c.outcome = some (.moved n) → n ≤ u.applied

theorem Ranked.init : Ranked {} := by
  refine ⟨.init, ?_, ?_, ?_, ?_⟩ <;> simp

theorem ReaderStep.registered {r r' : Reader} {act : ReaderAct}
    (h : ReaderStep u owner shard lease r act lease' u') (hr' : u'.reader = some r')
    (hx : r'.exited = false) : u'.handle = u.handle := by
  cases h with
  | rowEnd | rowFailClosed | rowFail | openNone | openFailClosed | openFail | fenced | renewFails
  | readClosed | notRecorded | handClosedRefused | release | crash =>
    obtain rfl := Option.some.inj hr'
    cases hx
  | _ => rfl

theorem Ranked.reader_step (h : Ranked u) (hs : Step u owner shard lease a lease' u') :
    ∀ r', u'.reader = some r' →
      r'.gate + 1 = u'.gates.length ∧ (r'.exited = false → u'.handle = some r'.gate) := by
  intro r' hr'
  cases hs with
  | @reader r act _ _ hr hs =>
    obtain ⟨hgate, hgates, _⟩ := hs.seat hr'
    refine ⟨by rw [hgate, hgates, h.latest r hr], ?_⟩
    intro hx
    rw [hs.registered hr' hx, hgate]
    apply h.registered r hr
    cases hs.attends hr' with
    | same _ _ _ hx₀ => exact hx₀
    | gone _ _ hx' => cases hx.symm.trans hx'
    | answered _ _ _ _ _ hx₀ => exact hx₀
  | forgot => cases hr'
  | acquired =>
    obtain rfl := Option.some.inj hr'
    exact ⟨by simp [spawn], fun _ => rfl⟩
  | bump => exact ⟨by simpa using h.latest r' hr', h.registered r' hr'⟩
  | @sent _ _ r _ _ hr =>
    obtain rfl := Option.some.inj hr'
    exact ⟨h.latest r hr, h.registered r hr⟩
  | _ => exact ⟨h.latest r' hr', h.registered r' hr'⟩

theorem Ranked.gone_step (h : Ranked u) (hs : Step u owner shard lease a lease' u')
    (hc' : c' ∈ u'.calls) (hgone : c'.Gone) : c'.left ≤ u.gates.length ∧
      ∀ r, u.reader = some r → r.exited = false → c'.left ≤ r.gate := by
  have hout : ∃ outcome, c'.outcome = some outcome ∧
      (outcome = .shutDown ∨ outcome = .noReader) := by
    rcases hgone with ho | ho
    · exact ⟨_, ho, .inl rfl⟩
    · exact ⟨_, ho, .inr rfl⟩
  obtain ⟨outcome, ho, hout⟩ := hout
  cases hs.concluded h.commanded hc' ho with
  | before hc ho' hg =>
    have hold := h.gone _ hc (by simpa [SeekCall.Gone, ho'] using hgone)
    simpa [SeekCall.left, ho', hg] using hold
  | @gone c hc hp hlive hg =>
    have hleft : c'.left = c.gate + 1 := by simp [SeekCall.left, ho, hg]
    have hlt : c.gate < u.gates.length := h.commanded.calls c hc (.inr hp)
    rw [hleft]
    refine ⟨hlt, ?_⟩
    intro r hr hx
    have hlast := h.latest r hr
    have hne : r.gate ≠ c.gate := by
      intro he
      cases hx.symm.trans (live_eq_false hlive hr he)
    omega
  | noReader _ hh hg =>
    have hleft : c'.left = u.gates.length := by simp [SeekCall.left, ho, hg]
    rw [hleft]
    refine ⟨le_rfl, ?_⟩
    intro r hr hx
    cases hh.symm.trans (h.registered r hr hx)
  | moved | failed => rcases hout with hout | hout <;> cases hout

theorem Ranked.step (h : Ranked u) (hs : Step u owner shard lease a lease' u') : Ranked u' := by
  refine ⟨h.commanded.step hs, fun r' hr' => (h.reader_step hs r' hr').1,
    fun r' hr' => (h.reader_step hs r' hr').2, ?_, ?_⟩
  · intro c' hc' hgone
    obtain ⟨hle, hlive⟩ := h.gone_step hs hc' hgone
    refine ⟨Nat.le_trans hle hs.gated.gates_le, ?_⟩
    intro r' hr' hx
    -- A live reader is the one that was there, or it has a gate of its own.
    by_cases hlt : r'.gate < u.gates.length
    · obtain ⟨r, hr, hg, hx⟩ := hs.reader_old hr' hx hlt
      exact hg ▸ hlive r hr hx
    · exact Nat.le_trans hle (Nat.not_lt.mp hlt)
  · intro c' hc' n ho
    cases hs.concluded h.commanded hc' ho with
    | before hc ho' => exact Nat.le_trans (h.applied _ hc n (ho'.trans ho)) hs.applied_le
    | moved _ _ _ _ _ _ happ => exact Nat.le_of_eq happ.symm

/-- What a live reader hands out is old to no call that came to its end. -/
theorem Ranked.handed {r : Reader} {d : Delivery} (h : Ranked u) (hc : c ∈ u.calls)
    (hfine : c.fine = true) (hr : u.reader = some r) (hx : r.exited = false)
    (hg : d.gate = r.gate) (hvia : d.via = u.applied) : c.old d = false := by
  rcases SeekCall.fine_cases hfine with ⟨n, ho⟩ | hgone
  · simpa [SeekCall.old, ho, hvia] using h.applied c hc n ho
  · rw [hgone.old_eq, hg]
    simpa using (h.gone c hc hgone).2 r hr hx

end Subscription

end RuststreamKinesis
