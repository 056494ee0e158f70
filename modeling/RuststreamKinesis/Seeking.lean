import RuststreamKinesis.Calls
import RuststreamKinesis.Reposition

/-!
# A seek that returns

What a seek that returned without an error has done. A call that comes back as moved was answered
by the reader behind the gate it was made on, and that reader went to the position; one that comes
back as shut down found no such reader any more. Both stay true whatever the other tasks do.
-/

namespace RuststreamKinesis

set_option autoImplicit false

open Runs

namespace Stream

open Subscription

variable {Owner : Type} [DecidableEq Owner] {owner : Owner} {w w₀ w₁ w₂ w' : Stream Owner}
variable {act : StreamAct} {i k call gate : Nat} {start : ShardStart} {outcome : Outcome}
variable {position : KinesisPosition} {leg : Leg} {legs : List Leg}

/-- Since `w₁` the reader of shard `k` that is behind the gate went to `start`. -/
def Went (owner : Owner) (w₁ : Stream Owner) (k gate : Nat) (start : ShardStart)
    (w : Stream Owner) : Prop :=
  ∃ (m m' : Stream Owner) (r r' : Reader) (p : Nat),
    Run (step owner) (fun _ _ => True) w₁ m ∧
    step owner m (.sub k (.reader (.applySeek .iterator))) = some m' ∧
    Run (step owner) (fun _ _ => True) m' w ∧
    ((m.sub k).reader = some r ∧ r.gate = gate) ∧
    (m.node k).shard.getShardIterator (iteratorAt start) = some p ∧
    (m'.sub k).reader = some r' ∧ r'.gate = gate ∧ r'.position = some p

/-- What an answer to a call says of the time since `w₁`. -/
def Told (owner : Owner) (w₁ : Stream Owner) (k gate : Nat) (start : ShardStart)
    (w : Stream Owner) : Outcome → Prop
  | .moved _ => Went owner w₁ k gate start w
  | .failed => True
  | .shutDown => (w.sub k).live gate = false
  | .noReader => False

theorem Step.gone_at (h : Step owner w act w') (hlive : (w.sub k).live gate = false)
    (hlt : gate < (w.sub k).gates.length) : (w'.sub k).live gate = false := by
  rcases h.at k with ⟨hsub, -⟩ | ⟨a, -, hs⟩
  · rw [hsub]
    exact hlive
  · exact hs.gone hlive hlt

theorem Told.step (h : Told owner w₁ k gate start w outcome) (hs : step owner w act = some w')
    (hlt : gate < (w.sub k).gates.length) : Told owner w₁ k gate start w' outcome := by
  cases outcome with
  | moved n =>
    obtain ⟨m, m', r, r', p, hbefore, hm, hafter, hgone⟩ := h
    exact ⟨m, m', r, r', p, hbefore, hm, .tail hafter trivial hs, hgone⟩
  | failed => trivial
  | shutDown => exact (step_cases hs).gone_at h hlt
  | noReader => cases h

/-- A call that was made in `w₁` on the reader behind the gate, to go to `start`. -/
structure Called (owner : Owner) (w₁ : Stream Owner) (k call gate : Nat) (start : ShardStart)
    (w : Stream Owner) : Prop where
  run : Run (step owner) (fun _ _ => True) w₁ w
  commanded : (w.sub k).Commanded
  seated : gate < (w.sub k).gates.length
  made : ∃ c, (w.sub k).calls[call]? = some c ∧ c.gate = gate ∧ c.start = start ∧
    ∀ outcome, c.phase = .answered outcome ∨ c.phase = .returned outcome →
      Told owner w₁ k gate start w outcome

theorem Called.step (h : Called owner w₁ k call gate start w) (hs : step owner w act = some w') :
    Called owner w₁ k call gate start w' := by
  have hrun : Run (Stream.step owner) (fun _ _ => True) w₁ w' := .tail h.run trivial hs
  obtain ⟨c, hc, hg, hst, htold⟩ := h.made
  have hkept : ∀ outcome, c.phase = .answered outcome ∨ c.phase = .returned outcome →
      Told owner w₁ k gate start w' outcome := fun o ho => (htold o ho).step hs h.seated
  rcases (step_cases hs).at k with ⟨hsub, -⟩ | ⟨a, hdoes, hsub⟩
  · exact ⟨hrun, hsub ▸ h.commanded, hsub ▸ h.seated, c, hsub ▸ hc, hg, hst, hkept⟩
  · obtain ⟨c', hc', hg', hst', hans⟩ := hsub.answers h.commanded hc
    refine ⟨hrun, h.commanded.step hsub, Nat.lt_of_lt_of_le h.seated hsub.gated.gates_le, c', hc',
      hg'.trans hg, hst'.trans hst, ?_⟩
    generalize hphase : c'.phase = phase at hans
    intro o ho
    cases hans with
    | same => exact hkept o ho
    | bumped | sent => rcases ho with ho | ho <;> cases ho
    | gone _ hlive hr =>
      rcases ho with ho | ho
      · cases ho
      · obtain rfl := CallPhase.returned.inj ho
        subst hg
        simpa only [Told, Subscription.live, hr] using hlive
    | failed =>
      rcases ho with ho | ho
      · obtain rfl := CallPhase.answered.inj ho
        trivial
      · cases ho
    | moved _ ha hr hrg _ hget hr' hrg' hpos =>
      rcases ho with ho | ho
      · obtain rfl := CallPhase.answered.inj ho
        subst ha hg hst
        cases hdoes with
        | own => exact ⟨w, w', _, _, _, h.run, hs, .refl w', ⟨hr, hrg⟩, hget, hr', hrg', hpos⟩
      · cases ho
    | returned hp =>
      rcases ho with ho | ho
      · cases ho
      · obtain rfl := CallPhase.returned.inj ho
        exact hkept _ (.inl hp)

/-- A call that came back, and not because the service refused the position. Where a seek names
its shard, the reader must not have shut down either. -/
def Back (position : KinesisPosition) (w : Stream Owner) (leg : Leg) : Prop :=
  ∃ c outcome, (w.sub leg.shard).calls[leg.call]? = some c ∧ c.phase = .returned outcome ∧
    outcome ≠ .failed ∧ (outcome = .shutDown → position.stream.isSome = true)

/-- What a seek that goes through the legs knows of them. -/
def Gathered (position : KinesisPosition) (legs : List Leg) (w : Stream Owner) : SeekPhase → Prop
  | .installed _ => False
  | .bumping _ all => all = legs
  | .sending todo waits => ∀ leg ∈ legs, leg ∈ todo ∨ leg ∈ waits ∨ Back position w leg
  | .waiting todo => ∀ leg ∈ legs, leg ∈ todo ∨ Back position w leg
  | .returned ok => ok = true → ∀ leg ∈ legs, Back position w leg

theorem Back.step (h : Back position w leg) (hcom : (w.sub leg.shard).Commanded)
    (hs : Step owner w act w') : Back position w' leg := by
  obtain ⟨c, outcome, hc, hp, hok⟩ := h
  rcases hs.at leg.shard with ⟨hsub, -⟩ | ⟨a, -, hsub⟩
  · exact ⟨c, outcome, hsub ▸ hc, hp, hok⟩
  · obtain ⟨c', hc', -, -, hans⟩ := hsub.answers hcom hc
    exact ⟨c', outcome, hc', hans.returned_same hp, hok⟩

theorem Gathered.step {phase : SeekPhase} (h : Gathered position legs w phase)
    (hcom : ∀ k, (w.sub k).Commanded) (hs : Step owner w act w') :
    Gathered position legs w' phase := by
  cases phase with
  | installed => exact h
  | bumping => exact h
  | sending todo waits =>
    intro leg hleg
    exact (h leg hleg).imp_right (.imp_right fun hb => hb.step (hcom _) hs)
  | waiting todo =>
    intro leg hleg
    exact (h leg hleg).imp_right fun hb => hb.step (hcom _) hs
  | returned ok => exact fun hok leg hleg => (h hok leg hleg).step (hcom _) hs

/-- A command that could not be sent has come back: the reader had shut down. -/
theorem gathered_sent {todo waits : List Leg} {c : SeekCall} {u : Subscription}
    {lease : MemoryLease Owner} (hs : (w.sub leg.shard).Step owner (w.node leg.shard).shard
      (w.lease leg.shard) (.send leg.call) lease u)
    (hu : (w'.sub leg.shard) = u) (hc : u.calls[leg.call]? = some c)
    (h : ∀ l ∈ legs, l ∈ leg :: todo ∨ l ∈ waits ∨ Back position w' l) :
    Gathered position legs w' (position.afterSend todo waits leg c.phase) := by
  have hcall : (w'.sub leg.shard).calls[leg.call]? = some c := hu ▸ hc
  cases hs with
  | @sent _ c₀ r hget =>
    obtain rfl : { c₀ with phase := .sent } = c :=
      Option.some.inj ((Cells.get_set_self hget).symm.trans hc)
    intro l hl
    rcases h l hl with hmem | hmem | hb
    · rcases List.mem_cons.mp hmem with rfl | hmem
      · exact .inr (.inl (by simp))
      · exact .inl hmem
    · exact .inr (.inl (List.mem_append_left _ hmem))
    · exact .inr (.inr hb)
  | @sendGone _ c₀ hget =>
    obtain rfl : { c₀ with phase := .returned .shutDown } = c :=
      Option.some.inj ((Cells.get_set_self hget).symm.trans hc)
    simp only [KinesisPosition.afterSend]
    split
    · rename_i hwide
      intro l hl
      rcases h l hl with hmem | hmem | hb
      · rcases List.mem_cons.mp hmem with rfl | hmem
        · exact .inr (.inr ⟨_, _, hcall, rfl, by simp, fun _ => hwide⟩)
        · exact .inl hmem
      · exact .inr (.inl hmem)
      · exact .inr (.inr hb)
    · intro hok
      cases hok

theorem gathered_answered {todo : List Leg} {c : SeekCall} {u : Subscription}
    {lease : MemoryLease Owner} (hs : (w.sub leg.shard).Step owner (w.node leg.shard).shard
      (w.lease leg.shard) (.answer leg.call) lease u)
    (hu : (w'.sub leg.shard) = u) (hc : u.calls[leg.call]? = some c)
    (h : ∀ l ∈ legs, l ∈ leg :: todo ∨ Back position w' l) :
    Gathered position legs w' (position.afterAnswer todo c.phase) := by
  have hcall : (w'.sub leg.shard).calls[leg.call]? = some c := hu ▸ hc
  have goesOn : ∀ outcome : Outcome, c.phase = .returned outcome → outcome ≠ .failed →
      (outcome = .shutDown → position.stream.isSome = true) →
      Gathered position legs w' (.waiting todo) := by
    intro outcome hp hne hwide l hl
    rcases h l hl with hmem | hb
    · rcases List.mem_cons.mp hmem with rfl | hmem
      · exact .inr ⟨c, outcome, hcall, hp, hne, hwide⟩
      · exact .inl hmem
    · exact .inr hb
  have hback : ∃ outcome, c.phase = .returned outcome := by
    cases hs with
    | @answered _ c₀ outcome hget =>
      obtain rfl := Option.some.inj ((Cells.get_set_self hget).symm.trans hc)
      exact ⟨outcome, rfl⟩
    | @answerGone _ c₀ hget =>
      obtain rfl := Option.some.inj ((Cells.get_set_self hget).symm.trans hc)
      exact ⟨.shutDown, rfl⟩
  obtain ⟨outcome, hp⟩ := hback
  rw [hp]
  cases outcome with
  | moved | noReader => exact goesOn _ hp (by simp) (by simp)
  | failed => simp [KinesisPosition.afterAnswer, Gathered]
  | shutDown =>
    simp only [KinesisPosition.afterAnswer]
    split
    · rename_i hwide
      exact goesOn _ hp (by simp) fun _ => hwide
    · intro hok
      cases hok

theorem SeekStep.gathered {seek : Seek} {order : List Nat}
    (h : SeekStep w owner i seek order w') (hi : w.seeks[i]? = some seek)
    (hg : Gathered seek.position legs w seek.phase) (hcom : ∀ k, (w.sub k).Commanded) :
    ∃ phase, w'.seeks[i]? = some ⟨seek.position, phase⟩ ∧
      Gathered seek.position legs w' phase := by
  have hlater := hg.step hcom (.advance hi h)
  cases h with
  | found hphase =>
    rw [hphase] at hg
    cases hg
  | bumped hphase =>
    rw [hphase] at hg
    exact ⟨_, Cells.get_set_self hi, hg⟩
  | bumpedAll hphase =>
    rw [hphase] at hg
    obtain rfl := hg
    exact ⟨_, Cells.get_set_self hi, fun leg hleg => .inl hleg⟩
  | sent hphase hs hc =>
    rw [hphase] at hlater
    exact ⟨_, Cells.get_set_self hi, gathered_sent hs (by simp [setSeek, setSub]) hc hlater⟩
  | sentAll hphase =>
    rw [hphase] at hlater
    refine ⟨_, Cells.get_set_self hi, fun leg hleg => ?_⟩
    exact (hlater leg hleg).resolve_left (by simp)
  | answered hphase hs hc =>
    rw [hphase] at hlater
    exact ⟨_, Cells.get_set_self hi, gathered_answered hs (by simp [setSeek, setSub]) hc hlater⟩
  | answeredAll hphase =>
    rw [hphase] at hlater
    exact ⟨_, Cells.get_set_self hi, fun _ leg hleg => (hlater leg hleg).resolve_left (by simp)⟩

/-- A seek under way to its legs. -/
structure Gathering (position : KinesisPosition) (legs : List Leg) (i : Nat) (w : Stream Owner) :
    Prop where
  commanded : ∀ k, (w.sub k).Commanded
  seek : ∃ phase, w.seeks[i]? = some ⟨position, phase⟩ ∧ Gathered position legs w phase

theorem commanded_step (h : ∀ k, (w.sub k).Commanded) (hs : Step owner w act w') (k : Nat) :
    (w'.sub k).Commanded := by
  rcases hs.at k with ⟨hsub, -⟩ | ⟨a, -, hsub⟩
  · exact hsub ▸ h k
  · exact (h k).step hsub

theorem Gathering.step (h : Gathering position legs i w) (hs : Step owner w act w') :
    Gathering position legs i w' where
  commanded := commanded_step h.commanded hs
  seek := by
    obtain ⟨phase, hi, hg⟩ := h.seek
    rcases hs.seeks hi with hi' | ⟨order, -, hself⟩
    · exact ⟨phase, hi', hg.step h.commanded hs⟩
    · exact hself.gathered hi hg h.commanded

theorem commanded_run (hnew : ∀ k, w₀.sub k = {}) (hrun : Run (step owner) (fun _ _ => True) w₀ w)
    (k : Nat) : (w.sub k).Commanded := by
  refine hrun.invariant (I := fun w => ∀ k, (w.sub k).Commanded) ?_ ?_ k
  · intro w act w' h _ hs
    exact commanded_step h (step_cases hs)
  · intro k
    rw [hnew k]
    exact .init

/-- Of a seek that returned without an error each call went to the reader it was made on, or that
reader had shut down. -/
theorem ok_seek_came (hcom : ∀ k, (w₁.sub k).Commanded)
    (hi : w₁.seeks[i]? = some ⟨position, .bumping legs legs⟩)
    (hmade : ∃ c, (w₁.sub k).calls[call]? = some c ∧ c.gate = gate ∧ c.start = start ∧
      c.phase = .found)
    (hleg : ⟨k, call⟩ ∈ legs) (hrun : Run (step owner) (fun _ _ => True) w₁ w₂)
    (hok : w₂.seeks[i]? = some ⟨position, .returned true⟩) :
    Went owner w₁ k gate start w₂ ∨
      (position.stream.isSome = true ∧ (w₂.sub k).live gate = false) := by
  have hgathering : Gathering position legs i w₂ :=
    hrun.invariant (fun _ _ _ h _ hs => h.step (step_cases hs))
      ⟨hcom, _, hi, (rfl : Gathered position legs w₁ (.bumping legs legs))⟩
  have hcalled : Called owner w₁ k call gate start w₂ := by
    refine hrun.invariant (I := Called owner w₁ k call gate start)
      (fun _ _ _ h _ hs => h.step hs) ?_
    obtain ⟨c, hc, rfl, hst, hp⟩ := hmade
    refine ⟨.refl w₁, hcom k, (hcom k).calls c (List.mem_of_getElem? hc) (.inl hp), c, hc, rfl, hst,
      ?_⟩
    rintro outcome (ho | ho) <;> cases hp.symm.trans ho
  obtain ⟨phase, hphase, hg⟩ := hgathering.seek
  obtain rfl : .returned true = phase :=
    congrArg Seek.phase (Option.some.inj (hok.symm.trans hphase))
  obtain ⟨c, outcome, hc, hp, hne, hwide⟩ := hg rfl _ hleg
  obtain ⟨c', hc', -, -, htold⟩ := hcalled.made
  obtain rfl := Option.some.inj (hc.symm.trans hc')
  have hback := htold outcome (.inr hp)
  cases outcome with
  | moved n => exact .inl hback
  | failed => exact absurd rfl hne
  | shutDown => exact .inr ⟨hwide rfl, hback⟩
  | noReader => cases hback

theorem find_live {u : Subscription} (h : u.handle = some gate) :
    (u.find start).calls[u.calls.length]? = some ⟨gate, start, 0, .found⟩ := by
  simp [Subscription.find, h]

/-- A seek over all shards that returned without an error has put the reader of every shard that was
live when it looked them up at the position, or that reader has shut down. -/
theorem ok_seek_moved_all {order : List Nat} {position : KinesisPosition} {start : StreamStart}
    (hnew : ∀ k, w₀.sub k = {}) (hbefore : Run (step owner) (fun _ _ => True) w₀ w)
    (hi : w.seeks[i]? = some ⟨position, .installed start⟩)
    (hfind : step owner w (.advance i order) = some w₁)
    (hafter : Run (step owner) (fun _ _ => True) w₁ w₂)
    (hok : w₂.seeks[i]? = some ⟨position, .returned true⟩) :
    ∀ k < w.count, ∀ gate, (w.sub k).handle = some gate →
      Went owner w₁ k gate (.stream start) w₂ ∨ (w₂.sub k).live gate = false := by
  intro k hk gate hhandle
  have hcom : ∀ k, (w₁.sub k).Commanded :=
    commanded_run hnew (.tail hbefore trivial hfind)
  simp only [step, advance, hi, Option.bind_eq_bind, Option.bind_some,
    Option.ite_none_right_eq_some, Option.some.injEq] at hfind
  obtain ⟨hperm, rfl⟩ := hfind
  have hmem : k ∈ order := by
    refine (List.isPerm_iff.mp hperm).mem_iff.mpr ?_
    simp [Stream.live, hk, hhandle]
  have hleg : (⟨k, (w.sub k).calls.length⟩ : Leg) ∈
      order.map fun k => (⟨k, (w.sub k).calls.length⟩ : Leg) :=
    List.mem_map_of_mem (f := fun k => (⟨k, (w.sub k).calls.length⟩ : Leg)) hmem
  refine (ok_seek_came hcom (Cells.get_set_self hi) ?_ hleg hafter hok).imp_right And.right
  refine ⟨⟨gate, .stream start, 0, .found⟩, ?_, rfl, rfl, rfl⟩
  simp only [setSeek, if_pos hmem]
  exact find_live hhandle

/-- The seek bumps the gate of the only reader and sends its command, which the reader answers. -/
def answeringSeek : List StreamAct := [
  .advance 0 [], .advance 0 [], .advance 0 [], .advance 0 [], .sub 0 (.reader .checkClosed),
  .sub 0 (.reader .takeSeek), .sub 0 (.reader (.applySeek .iterator)), .advance 0 [],
  .advance 0 []]

theorem ok_seek_moved_all_horizon : ∃ w w₁ w₂ : Stream Nat,
    exec (step 0) single (openingSingle ++ [.append 0 [1], .seek .horizon]) = some w ∧
    step 0 w (.advance 0 [0]) = some w₁ ∧ exec (step 0) w₁ answeringSeek = some w₂ ∧
    w₂.seeks[0]? = some ⟨.horizon, .returned true⟩ ∧
    Went 0 w₁ 0 0 (.stream .horizon) w₂ := by
  obtain ⟨w, w₁, w₂, hw, hw₁, hw₂, hcount, hi, hhandle, hok, hlive⟩ : ∃ w w₁ w₂ : Stream Nat,
      exec (step 0) single (openingSingle ++ [.append 0 [1], .seek .horizon]) = some w ∧
      step 0 w (.advance 0 [0]) = some w₁ ∧ exec (step 0) w₁ answeringSeek = some w₂ ∧
      0 < w.count ∧ w.seeks[0]? = some ⟨.horizon, .installed .horizon⟩ ∧
      (w.sub 0).handle = some 0 ∧ w₂.seeks[0]? = some ⟨.horizon, .returned true⟩ ∧
      (w₂.sub 0).live 0 = true := by
    refine ⟨_, _, _, rfl, rfl, rfl, ?_, rfl, rfl, rfl, rfl⟩
    decide
  have hmoved := ok_seek_moved_all (fun _ => rfl) (.of_exec (fun _ _ => trivial) hw) hi hw₁
    (.of_exec (fun _ _ => trivial) hw₂) hok 0 hcount 0 hhandle
  exact ⟨w, w₁, w₂, hw, hw₁, hw₂, hok, hmoved.resolve_right (by simp [hlive])⟩

/-- A seek to a captured position that returned without an error has put the live reader of the
shard it names at that very record. -/
theorem ok_seek_moved {n : Nat} (hnew : ∀ k, w₀.sub k = {})
    (hbefore : Run (step owner) (fun _ _ => True) w₀ w)
    (hseek : step owner w (.seek (.sequence k n)) = some w₁)
    (hafter : Run (step owner) (fun _ _ => True) w₁ w₂)
    (hok : w₂.seeks[w.seeks.length]? = some ⟨.sequence k n, .returned true⟩) :
    ∃ gate, (w.sub k).handle = some gate ∧ Went owner w₁ k gate (.atSeq n) w₂ := by
  have hcom : ∀ k, (w₁.sub k).Commanded :=
    commanded_run hnew (.tail hbefore trivial hseek)
  have hnot : w₁.seeks[w.seeks.length]? ≠ some ⟨.sequence k n, .returned false⟩ := by
    intro hfalse
    cases hok.symm.trans (returned_stays hafter hfalse)
  have hstep := step_cases hseek
  cases hstep with
  | refused => exact absurd (by simp) hnot
  | installs hstart => cases hstart
  | looks =>
    cases hhandle : (w.sub k).handle with
    | none => exact absurd (by simp [seekShard, hhandle]) hnot
    | some gate =>
      refine ⟨gate, rfl, ?_⟩
      have hi : (w.seekShard k n).seeks[w.seeks.length]? = some ⟨.sequence k n,
          .bumping [⟨k, (w.sub k).calls.length⟩] [⟨k, (w.sub k).calls.length⟩]⟩ := by
        simp [seekShard, hhandle]
      refine (ok_seek_came hcom hi ?_ (List.mem_singleton_self _) hafter hok).resolve_right ?_
      · refine ⟨⟨gate, .atSeq n, 0, .found⟩, ?_, rfl, rfl, rfl⟩
        simp only [seekShard, Function.update_self]
        exact find_live hhandle
      · simp [KinesisPosition.stream]
  | grows hact => simp at hact

theorem ok_seek_moved_first : ∃ w w₁ w₂ : Stream Nat,
    exec (step 0) single (openingSingle ++ [.append 0 [1]]) = some w ∧
    step 0 w (.seek (.sequence 0 0)) = some w₁ ∧ exec (step 0) w₁ answeringSeek = some w₂ ∧
    w₂.seeks[w.seeks.length]? = some ⟨.sequence 0 0, .returned true⟩ ∧
    ∃ gate, Went 0 w₁ 0 gate (.atSeq 0) w₂ := by
  obtain ⟨w, w₁, w₂, hw, hw₁, hw₂, hok⟩ : ∃ w w₁ w₂ : Stream Nat,
      exec (step 0) single (openingSingle ++ [.append 0 [1]]) = some w ∧
      step 0 w (.seek (.sequence 0 0)) = some w₁ ∧ exec (step 0) w₁ answeringSeek = some w₂ ∧
      w₂.seeks[w.seeks.length]? = some ⟨.sequence 0 0, .returned true⟩ :=
    ⟨_, _, _, rfl, rfl, rfl, rfl⟩
  obtain ⟨gate, -, hwent⟩ := ok_seek_moved (fun _ => rfl) (.of_exec (fun _ _ => trivial) hw) hw₁
    (.of_exec (fun _ _ => trivial) hw₂) hok
  exact ⟨w, w₁, w₂, hw, hw₁, hw₂, hok, gate, hwent⟩

end Stream

end RuststreamKinesis
