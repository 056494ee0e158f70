import RuststreamKinesis.Beginning

/-!
# A seek that fails

A seek installs its position and bumps every gate it goes through before its first call that can
fail, and takes nothing of it back. A gate only ever counts up, so whatever the other tasks do in
the meantime, a seek that has bumped one leaves a trace. What is left are the seeks that are refused
before that.
-/

namespace RuststreamKinesis

set_option autoImplicit false

open Runs

namespace Subscription

variable {Owner : Type} [DecidableEq Owner] {u u' : Subscription} {owner : Owner} {shard : Shard}
variable {lease lease' : MemoryLease Owner} {a : SubAct} {call : Nat}

theorem sum_bumped {gates : List Nat} {gate epoch : Nat} (h : gates[gate]? = some epoch) :
    (gates.set gate (epoch + 1)).sum = gates.sum + 1 := by
  have hsum := Cells.sum_set (v := epoch + 1) (f := id) h
  simp only [List.map_id, id_eq] at hsum
  omega

theorem Step.gates_sum (hs : Step u owner shard lease a lease' u') :
    u.gates.sum ≤ u'.gates.sum := by
  cases hs with
  | reader hr hs =>
    obtain ⟨r', hr'⟩ := hs.reader_isSome
    rw [(hs.seat hr').2.1]
  | acquired => simp [spawn]
  | bump _ _ hg => simp [sum_bumped hg]
  | _ => exact Nat.le_refl _

theorem Step.bump_sum (hs : Step u owner shard lease (.bump call) lease' u') :
    u.gates.sum < u'.gates.sum := by
  cases hs with
  | bump _ _ hg => simp [sum_bumped hg]

/-- A seek left the shard's part of the subscription as it was: the installed position, the gates
and trackers, the reader's cursor and reading; what was queued is still handed out and what was
handed out may still be acked. -/
structure Restored (u u' : Subscription) : Prop where
  installed : u'.installed = u.installed
  gates : u'.gates = u.gates
  trackers : u'.trackers = u.trackers
  reader : u'.reader.map (fun r => (r.iterator, r.tracker, r.reading)) =
    u.reader.map fun r => (r.iterator, r.tracker, r.reading)
  handed : ∀ stamped ∈ u.queue, stamped ∈ u'.queue ∧ stamped.current u'.gates =
    stamped.current u.gates
  acked : ∀ (id : Nat) d, u.deliveries[id]? = some d → u'.deliveries[id]? = some d ∧
    (u'.gates[d.gate]? = some d.epoch ↔ u.gates[d.gate]? = some d.epoch)

theorem Restored.refl : Restored u u where
  installed := rfl
  gates := rfl
  trackers := rfl
  reader := rfl
  handed _ h := ⟨h, rfl⟩
  acked _ _ h := ⟨h, .rfl⟩

theorem Restored.find {start : ShardStart} : Restored u (u.find start) := by
  unfold Subscription.find
  split
  · exact ⟨rfl, rfl, rfl, rfl, fun _ h => ⟨h, rfl⟩, fun _ _ h => ⟨h, .rfl⟩⟩
  · exact ⟨rfl, rfl, rfl, rfl, fun _ h => ⟨h, rfl⟩, fun _ _ h => ⟨h, .rfl⟩⟩

end Subscription

namespace Stream

open Subscription

variable {Owner : Type} [DecidableEq Owner] {owner : Owner} {w w₁ w₂ w' : Stream Owner}
variable {act : StreamAct} {i k : Nat} {position : KinesisPosition}

/-- A seek to `position` that is called in `w` has returned an error in `w'`, either on the spot or
by a step of its own after any steps of the other tasks. -/
inductive Fails (owner : Owner) (w : Stream Owner) (position : KinesisPosition) :
    Stream Owner → Prop where
  | atOnce {w' : Stream Owner} : step owner w (.seek position) = some w' →
      w'.seeks[w.seeks.length]? = some ⟨position, .returned false⟩ → Fails owner w position w'
  | later {w₁ w₂ w' : Stream Owner} {order : List Nat} : step owner w (.seek position) = some w₁ →
      Run (step owner) (fun _ _ => True) w₁ w₂ →
      step owner w₂ (.advance w.seeks.length order) = some w' →
      w'.seeks[w.seeks.length]? = some ⟨position, .returned false⟩ → Fails owner w position w'

/-- The seek is refused before it touches anything: the broker was shut down, or the shard its
position names has no live reader. -/
def Refused (w : Stream Owner) (position : KinesisPosition) : Prop :=
  w.connected = false ∨
    ∃ k sequence, position = .sequence k sequence ∧ (w.sub k).handle = none

def Restored (w w' : Stream Owner) : Prop := ∀ k, (w.sub k).Restored (w'.sub k)

/-- Since `w` a gate of shard `k` was bumped. -/
def Bumped (w w' : Stream Owner) (k : Nat) : Prop := (w.sub k).gates.sum < (w'.sub k).gates.sum

omit [DecidableEq Owner] in
theorem Restored.not_bumped (h : Restored w w') : ¬ Bumped w w' k := by
  intro hb
  have he := congrArg List.sum (h k).gates
  unfold Bumped at hb
  omega

/-- What a seek has bumped by the time it comes to a phase. -/
def Committed (w w' : Stream Owner) : SeekPhase → Prop
  | .installed _ => True
  | .bumping todo legs => ∀ leg ∈ legs, leg ∈ todo ∨ Bumped w w' leg.shard
  | .sending todo waits => (∀ leg ∈ todo, Bumped w w' leg.shard) ∧
      ∀ leg ∈ waits, Bumped w w' leg.shard
  | .waiting todo => ∀ leg ∈ todo, Bumped w w' leg.shard
  | .returned ok => ok = false → ∃ k, Bumped w w' k

theorem Step.gates_sum (h : Step owner w act w') (k : Nat) :
    (w.sub k).gates.sum ≤ (w'.sub k).gates.sum := by
  rcases h.at k with ⟨hsub, _⟩ | ⟨a, _, hs⟩
  · rw [hsub]
  · exact hs.gates_sum

theorem Bumped.step (h : Bumped w w₁ k) (hs : Step owner w₁ act w₂) : Bumped w w₂ k :=
  Nat.lt_of_lt_of_le h (hs.gates_sum k)

theorem Committed.step {phase : SeekPhase} (h : Committed w w₁ phase)
    (hs : Step owner w₁ act w₂) : Committed w w₂ phase := by
  cases phase with
  | installed => trivial
  | bumping => exact fun leg hleg => (h leg hleg).imp_right (·.step hs)
  | sending =>
    exact ⟨fun leg hleg => (h.1 leg hleg).step hs, fun leg hleg => (h.2 leg hleg).step hs⟩
  | waiting => exact fun leg hleg => (h leg hleg).step hs
  | returned =>
    intro hok
    obtain ⟨k, hb⟩ := h hok
    exact ⟨k, hb.step hs⟩

omit [DecidableEq Owner] in
theorem noting_seeks {a : SubAct} : (w.noting k a w').seeks = w'.seeks := by
  unfold noting
  split <;> rfl

theorem SeekStep.others {seek : Seek} {order : List Nat} {j : Nat}
    (h : SeekStep w owner j seek order w') (hne : i ≠ j) : w'.seeks[i]? = w.seeks[i]? := by
  cases h <;> exact Cells.get_set_ne hne

theorem Step.seeks {seek : Seek} (h : Step owner w act w') (hi : w.seeks[i]? = some seek) :
    w'.seeks[i]? = some seek ∨
      ∃ order, act = .advance i order ∧ SeekStep w owner i seek order w' := by
  cases h with
  | coordinator h => cases h <;> exact .inl hi
  | sub => exact .inl (by rw [noting_seeks]; exact hi)
  | refused | installs | looks => exact .inl (Cells.get_push_old hi)
  | @advance j order seek' _ hj hs =>
    by_cases he : i = j
    · subst he
      obtain rfl : seek = seek' := Option.some.inj (hi.symm.trans hj)
      exact .inr ⟨order, rfl, hs⟩
    · exact .inl ((hs.others he).trans hi)
  | _ => exact .inl hi

/-- The seek's own step: it bumps before it sends, and sends before it can fail. -/
theorem SeekStep.committed {seek : Seek} {order : List Nat} (h : SeekStep w₁ owner i seek order w₂)
    (hi : w₁.seeks[i]? = some seek) (hc : Committed w w₁ seek.phase)
    (hle : ∀ k, (w.sub k).gates.sum ≤ (w₁.sub k).gates.sum) :
    ∃ phase, w₂.seeks[i]? = some { seek with phase := phase } ∧ Committed w w₂ phase := by
  have hlater : ∀ phase, Committed w w₁ phase → Committed w w₂ phase :=
    fun phase hc => hc.step (.advance hi h)
  cases h with
  | found hphase =>
    exact ⟨_, Cells.get_set_self hi, fun leg hleg => .inl hleg⟩
  | @bumped leg todo legs _ lease u hphase hs =>
    refine ⟨_, Cells.get_set_self hi, ?_⟩
    rw [hphase] at hc
    intro l hl
    rcases hlater (.bumping (leg :: todo) legs) hc l hl with hmem | hb
    · rcases List.mem_cons.mp hmem with rfl | hmem
      · refine .inr (Nat.lt_of_le_of_lt (hle _) ?_)
        simpa [setSeek, setSub] using hs.bump_sum
      · exact .inl hmem
    · exact .inr hb
  | @bumpedAll legs _ hphase =>
    refine ⟨_, Cells.get_set_self hi, ?_, by simp⟩
    rw [hphase] at hc
    intro leg hleg
    exact (hc leg hleg).resolve_left (by simp)
  | @sent leg todo waits _ _ _ c hphase =>
    refine ⟨_, Cells.get_set_self hi, ?_⟩
    rw [hphase] at hc
    obtain ⟨htodo, hwaits⟩ := hlater (.sending (leg :: todo) waits) hc
    have hleg : Bumped w _ leg.shard := htodo leg List.mem_cons_self
    unfold KinesisPosition.afterSend
    split
    · refine ⟨fun l hl => htodo l (List.mem_cons_of_mem _ hl), ?_⟩
      intro l hl
      rcases List.mem_append.mp hl with hl | hl
      · exact hwaits l hl
      · exact List.mem_singleton.mp hl ▸ hleg
    · split
      · exact ⟨fun l hl => htodo l (List.mem_cons_of_mem _ hl), hwaits⟩
      · exact fun _ => ⟨_, hleg⟩
  | sentAll hphase =>
    refine ⟨_, Cells.get_set_self hi, ?_⟩
    rw [hphase] at hc
    exact hc.2
  | @answered leg todo _ _ _ c hphase =>
    refine ⟨_, Cells.get_set_self hi, ?_⟩
    rw [hphase] at hc
    have hall := hlater (.waiting (leg :: todo)) hc
    have hleg : Bumped w _ leg.shard := hall leg List.mem_cons_self
    have htodo : ∀ l ∈ todo, Bumped w _ l.shard := fun l hl => hall l (List.mem_cons_of_mem _ hl)
    unfold KinesisPosition.afterAnswer
    split
    · exact fun _ => ⟨_, hleg⟩
    · split
      · exact htodo
      · exact fun _ => ⟨_, hleg⟩
    · exact htodo
  | answeredAll =>
    refine ⟨_, Cells.get_set_self hi, ?_⟩
    intro hfailed
    cases hfailed

/-- A seek under way since `w`, the `i`-th one. -/
structure Underway (w : Stream Owner) (i : Nat) (w' : Stream Owner) : Prop where
  grown : ∀ k, (w.sub k).gates.sum ≤ (w'.sub k).gates.sum
  seek : ∃ seek, w'.seeks[i]? = some seek ∧ Committed w w' seek.phase

theorem Underway.step (h : Underway w i w₁) (hs : Step owner w₁ act w₂) : Underway w i w₂ where
  grown k := (h.grown k).trans (hs.gates_sum k)
  seek := by
    obtain ⟨seek, hi, hc⟩ := h.seek
    rcases hs.seeks hi with hi' | ⟨order, _, hself⟩
    · exact ⟨seek, hi', hc.step hs⟩
    · obtain ⟨phase, hi', hc'⟩ := hself.committed hi hc h.grown
      exact ⟨_, hi', hc'⟩

theorem Underway.begins (hs : Step owner w (.seek position) w') (hr : ¬ Refused w position) :
    Underway w w.seeks.length w' where
  grown k := hs.gates_sum k
  seek := by
    cases hs with
    | grows hact => simp at hact
    | refused hc => exact absurd (.inl hc) hr
    | @installs _ start =>
      exact ⟨⟨position, .installed start⟩, by simp [seekStream], trivial⟩
    | @looks k sequence =>
      have hsome : (w.sub k).handle.isSome = true := by
        cases hh : (w.sub k).handle with
        | none => exact absurd (.inr ⟨k, sequence, rfl, hh⟩) hr
        | some gate => rfl
      let leg : Leg := ⟨k, (w.sub k).calls.length⟩
      exact ⟨⟨.sequence k sequence, .bumping [leg] [leg]⟩, by simp [seekShard, hsome, leg],
        fun leg hleg => .inl hleg⟩

theorem Refused.restored (hr : Refused w position) (hs : Step owner w (.seek position) w') :
    Restored w w' ∧ w'.seeks[w.seeks.length]? = some ⟨position, .returned false⟩ := by
  cases hs with
  | grows hact => simp at hact
  | refused => exact ⟨fun _ => .refl, by simp⟩
  | installs hstart hc =>
    rcases hr with hr | ⟨k, sequence, rfl, _⟩
    · exact absurd (hr.symm.trans hc) (by simp)
    · cases hstart
  | @looks k sequence hc =>
    rcases hr with hr | ⟨j, sequence', he, hh⟩
    · exact absurd (hr.symm.trans hc) (by simp)
    · obtain ⟨rfl, rfl⟩ : k = j ∧ sequence = sequence' := by simpa using he
      refine ⟨?_, by simp [seekShard, hh]⟩
      intro j
      simp only [seekShard]
      by_cases he : j = k
      · subst he
        simpa using .find
      · simpa [he] using .refl

theorem SeekStep.unreturned {seek : Seek} {order : List Nat} {ok : Bool}
    (h : SeekStep w owner i seek order w') : seek.phase ≠ .returned ok := by
  cases h with
  | found hphase | bumped hphase | bumpedAll hphase | sent hphase | sentAll hphase
  | answered hphase | answeredAll hphase =>
    rw [hphase]
    simp

theorem returned_stays {ok : Bool} (h : Run (step owner) (fun _ _ => True) w w')
    (hi : w.seeks[i]? = some ⟨position, .returned ok⟩) :
    w'.seeks[i]? = some ⟨position, .returned ok⟩ := by
  refine h.invariant (I := fun w => w.seeks[i]? = some ⟨position, .returned ok⟩) ?_ hi
  intro w act w' hi _ hs
  rcases (step_cases hs).seeks hi with hi' | ⟨order, _, hself⟩
  · exact hi'
  · exact absurd rfl hself.unreturned

theorem returned_final {ok : Bool} {order : List Nat}
    (hi : w.seeks[i]? = some ⟨position, .returned ok⟩) :
    step owner w (.advance i order) = none := by
  simp [step, advance, hi]

/-- Whatever the state, a seek that fails leaves it as it was if and only if it was refused before
its gate bump. -/
theorem failed_seek_restored_iff (h : Fails owner w position w') :
    Restored w w' ↔ Refused w position := by
  constructor
  · intro hrestored
    by_contra hr
    have hdone : ∀ {seek : Seek}, Underway w w.seeks.length w' →
        w'.seeks[w.seeks.length]? = some seek → seek.phase ≠ .returned false := by
      intro seek hunder hi hphase
      obtain ⟨seek', hi', hc⟩ := hunder.seek
      obtain rfl : seek = seek' := Option.some.inj (hi.symm.trans hi')
      rw [hphase] at hc
      obtain ⟨k, hb⟩ := hc rfl
      exact hrestored.not_bumped hb
    cases h with
    | atOnce hs hi => exact hdone (.begins (step_cases hs) hr) hi rfl
    | later hbegin hrun hs hi =>
      have hunder := hrun.invariant (I := Underway w w.seeks.length)
        (fun _ _ _ h _ hs => h.step (step_cases hs)) (.begins (step_cases hbegin) hr)
      exact hdone (hunder.step (step_cases hs)) hi rfl
  · intro hr
    cases h with
    | atOnce hs => exact (hr.restored (step_cases hs)).1
    | later hbegin hrun hs =>
      have hi := returned_stays hrun (hr.restored (step_cases hbegin)).2
      rw [returned_final hi] at hs
      cases hs

/-- A record is read and handed out, and waits in the channel for the consumer. -/
def queueing : List StreamAct :=
  openingSingle ++ [.append 0 [1]] ++ reading 0 false ++ [.sub 0 (.reader .handOut)]

/-- A seek that moves every shard, up to the answer of the only reader: the service gave it no
iterator. -/
def failing : List StreamAct := [
  .advance 0 [0], .advance 0 [], .advance 0 [], .advance 0 [], .advance 0 [],
  .sub 0 (.reader .batchDone), .sub 0 (.reader .checkClosed), .sub 0 (.reader .takeSeek),
  .sub 0 (.reader (.applySeek .fails))]

/-- The seek fails, yet its position is installed, and the delivery that was queued before it is
not handed out any more. -/
theorem failed_seek_discards : ∃ w w' : Stream Nat, ∃ stamped : Stamped,
    check (step 0) (fun _ _ => true) single queueing = some w ∧ Fails 0 w .horizon w' ∧
      stamped ∈ (w.sub 0).queue ∧ stamped.current (w.sub 0).gates = true ∧
      stamped.current (w'.sub 0).gates = false ∧ (w.sub 0).installed = none ∧
      (w'.sub 0).installed = some .horizon ∧ ¬ Restored w w' := by
  have hrun : ((check (step 0) (fun _ _ => true) single queueing).bind fun w =>
      (step 0 w (.seek .horizon)).bind fun w₁ =>
        (check (step 0) (fun _ _ => true) w₁ failing).bind fun w₂ =>
          (step 0 w₂ (.advance 0 [])).map fun w' => w.seeks == [] &&
            w'.seeks == [⟨.horizon, .returned false⟩] &&
            (w.sub 0).queue == [⟨some (0, 0), .delivery 0⟩] && (w.sub 0).gates == [0] &&
            (w'.sub 0).gates == [1] && (w.sub 0).installed == none &&
            (w'.sub 0).installed == some .horizon) = some true := by decide
  obtain ⟨w, hw, hrun⟩ := Option.bind_eq_some_iff.mp hrun
  obtain ⟨w₁, hw₁, hrun⟩ := Option.bind_eq_some_iff.mp hrun
  obtain ⟨w₂, hw₂, hrun⟩ := Option.bind_eq_some_iff.mp hrun
  obtain ⟨w', hw', hrun⟩ := Option.map_eq_some_iff.mp hrun
  simp only [Bool.and_eq_true, beq_iff_eq] at hrun
  obtain ⟨⟨⟨⟨⟨⟨hnone, hseek⟩, hqueue⟩, hgates⟩, hgates'⟩, hinst⟩, hinst'⟩ := hrun
  have hw' : step 0 w₂ (.advance w.seeks.length []) = some w' := by simpa [hnone] using hw'
  refine ⟨w, w', ⟨some (0, 0), .delivery 0⟩, hw, ?_, by simp [hqueue], by simp [hgates,
    Stamped.current], by simp [hgates', Stamped.current], hinst, hinst', ?_⟩
  · exact .later hw₁ ((Run.of_check hw₂).mono fun _ _ _ => trivial) hw' (by simp [hnone, hseek])
  · intro h
    have he := (h 0).gates
    rw [hgates, hgates'] at he
    cases he

/-- A position on a shard that is not read here is refused, and the one that is read goes on. -/
theorem failed_seek_restored_unowned : ∃ w w' : Stream Nat,
    check (step 0) (fun _ _ => true) single queueing = some w ∧
      Fails 0 w (.sequence 1 0) w' ∧ Restored w w' := by
  have hrun : ((check (step 0) (fun _ _ => true) single queueing).bind fun w =>
      (step 0 w (.seek (.sequence 1 0))).map fun w' => w.seeks == [] &&
        w'.seeks == [⟨.sequence 1 0, .returned false⟩] && (w.sub 1).handle == none) =
      some true := by decide
  obtain ⟨w, hw, hrun⟩ := Option.bind_eq_some_iff.mp hrun
  obtain ⟨w', hw', hrun⟩ := Option.map_eq_some_iff.mp hrun
  simp only [Bool.and_eq_true, beq_iff_eq] at hrun
  obtain ⟨⟨hnone, hseek⟩, hhandle⟩ := hrun
  have hfails : Fails 0 w (.sequence 1 0) w' := .atOnce hw' (by simp [hnone, hseek])
  exact ⟨w, w', hw, hfails,
    (failed_seek_restored_iff hfails).mpr (.inr ⟨1, 0, rfl, hhandle⟩)⟩

end Stream

end RuststreamKinesis
