import RuststreamKinesis.Beginning
import RuststreamKinesis.Order

/-!
# The shards of a subscription, each on its own

To a shard a subscription is what an instance is that reads this shard alone: the passes of the
coordinator and the seeks over all shards come to it as steps of such an instance, and what the
other shards, their readers and their consumers do does not come to it at all.
-/

namespace RuststreamKinesis

set_option autoImplicit false

open Runs

/-- The step of an instance on shard `k` alone, where the subscription makes it on shard `j`. -/
def ifShard (k j : Nat) (act : Act) : List Act := if j = k then [act] else []

/-- What a step of the coordinator is to shard `k`. -/
def CoordinatorAct.toShard (k : Nat) (pass : Pass) : CoordinatorAct → List Act
  | .forget lost => [.sub 0 (.forgetFinished (k ∉ lost))]
  | .acquire ok now =>
    match ok, pass with
    | true, .acquiring j lineage _ => ifShard k j (.sub 0 (.acquire lineage now))
    | _, _ => []
  | _ => []

/-- What the next step of a seek is to shard `k`. -/
def SeekPhase.toShard (k : Nat) (order : List Nat) : SeekPhase → List Act
  | .installed start => if k ∈ order then [.sub 0 (.find (.stream start))] else []
  | .bumping (leg :: _) _ => ifShard k leg.shard (.sub 0 (.bump leg.call))
  | .sending (leg :: _) _ => ifShard k leg.shard (.sub 0 (.send leg.call))
  | .waiting (leg :: _) => ifShard k leg.shard (.sub 0 (.answer leg.call))
  | _ => []

namespace Stream

variable {Owner : Type} [DecidableEq Owner] {owner : Owner} {w w' w₀ : Stream Owner}
variable {act : StreamAct} {as : List StreamAct} {k j : Nat} {a : SubAct} {s : System Owner}

/-- What a step of the subscription and of its stream is to shard `k`. -/
def toShard (k : Nat) (w : Stream Owner) : StreamAct → List Act
  | .tick j => ifShard k j .tick
  | .append j data => ifShard k j (.append data)
  | .close j => ifShard k j .close
  | .coordinator act => act.toShard k w.pass
  | .sub j act => ifShard k j (.sub 0 act)
  | .seek position =>
    if !w.connected then []
    else
      match position with
      | .horizon => [.sub 0 (.install .horizon)]
      | .latest => [.sub 0 (.install .latest)]
      | .timestamp millis => [.sub 0 (.install (.timestamp millis))]
      | .sequence j sequence => ifShard k j (.sub 0 (.find (.atSeq sequence)))
  | .advance i order => (w.seeks[i]?).elim [] fun seek => seek.phase.toShard k order
  | .leave => [.sub 0 .leave]
  | _ => []

/-- The shard, its lease row and the subscription on it are those of the first instance of a
system over this one shard. -/
structure Alone (k : Nat) (w : Stream Owner) (s : System Owner) : Prop where
  shard : s.shard = (w.node k).shard
  lease : s.lease = w.lease k
  sub : s.subs 0 = w.sub k

/-- The system of the shard follows with some steps. -/
def Followed (owner : Owner) (k : Nat) (w' : Stream Owner) (s : System Owner) (acts : List Act) :
    Prop :=
  ∃ s', exec (System.step fun _ => owner) s acts = some s' ∧ Alone k w' s'

theorem Alone.unmoved (h : Alone k w s) (hnode : (w'.node k).shard = (w.node k).shard)
    (hlease : w'.lease k = w.lease k) (hsub : w'.sub k = w.sub k) : Followed owner k w' s [] :=
  ⟨s, rfl, ⟨h.shard.trans hnode.symm, h.lease.trans hlease.symm, h.sub.trans hsub.symm⟩⟩

theorem Alone.stepped {lease : MemoryLease Owner} {u : Subscription} (h : Alone k w s)
    (hu : (w.sub k).step owner (w.node k).shard (w.lease k) a = some (lease, u))
    (hnode : (w'.node k).shard = (w.node k).shard) (hlease : w'.lease k = lease)
    (hsub : w'.sub k = u) : Followed owner k w' s [.sub 0 a] := by
  refine ⟨{ s with lease := lease, subs := Function.update s.subs 0 u }, ?_, ?_⟩
  · simp only [exec, System.step, h.sub, h.shard, h.lease, hu, Option.map_some, Option.bind_some]
  · exact ⟨h.shard.trans hnode.symm, hlease.symm, by simp [hsub]⟩

theorem Alone.on (h : Alone k w s) (hw : w.on owner j a = some w') :
    Followed owner k w' s (ifShard k j (.sub 0 a)) := by
  obtain ⟨⟨lease, u⟩, hu, rfl⟩ := Option.map_eq_some_iff.mp hw
  unfold ifShard
  by_cases he : j = k
  · subst he
    rw [if_pos rfl]
    exact h.stepped hu rfl (by simp [setSub]) (by simp [setSub])
  · rw [if_neg he]
    exact h.unmoved rfl (Function.update_of_ne (Ne.symm he) _ _)
      (Function.update_of_ne (Ne.symm he) _ _)

/-- The service changes one shard. -/
theorem Alone.served {shard : Shard} {act : Act} (h : Alone k w s)
    (hact : j = k → System.step (fun _ => owner) s act = some { s with shard := shard }) :
    Followed owner k (w.setShard j shard) s (ifShard k j act) := by
  unfold ifShard
  by_cases he : j = k
  · rw [if_pos he]
    refine ⟨{ s with shard := shard }, ?_, ?_⟩
    · simp only [exec, hact he, Option.bind_some]
    · subst he
      exact ⟨by simp [setShard], h.lease, h.sub⟩
  · rw [if_neg he]
    exact h.unmoved (by simp [setShard, Function.update_of_ne (Ne.symm he)]) rfl rfl

theorem Alone.coordinated {c : CoordinatorAct} (h : Alone k w s)
    (hw : w.coordinate owner c = some w') :
    Followed owner k w' s (toShard k w (.coordinator c)) := by
  have hstep := coordinate_cases hw
  cases hstep with
  | @forgot lost hpass => exact h.stepped rfl rfl rfl rfl
  | @acquired l now lineage todo lease u hpass =>
    simp only [coordinate, hpass] at hw
    obtain ⟨v, hv, hw⟩ := Option.map_eq_some_iff.mp hw
    have hshard : toShard k w (.coordinator (.acquire true now)) =
        ifShard k l (.sub 0 (.acquire lineage now)) := by
      simp only [toShard, CoordinatorAct.toShard, hpass]
    rw [hshard]
    obtain ⟨s', hs', ha⟩ := h.on hv
    exact ⟨s', hs', hw ▸ ⟨ha.shard, ha.lease, ha.sub⟩⟩
  | _ => exact h.unmoved rfl rfl rfl

theorem Alone.sought {position : KinesisPosition} (h : Alone k w s)
    (hw : w.seek position = some w') : Followed owner k w' s (toShard k w (.seek position)) := by
  unfold seek at hw
  simp only [toShard]
  split at hw
  · cases hw
  · split at hw
    · rename_i hconnected
      obtain rfl := Option.some.inj hw
      rw [if_pos hconnected]
      exact h.unmoved rfl rfl rfl
    · rename_i hconnected
      rw [if_neg hconnected]
      cases position with
      | horizon | latest | timestamp =>
        obtain rfl := Option.some.inj hw
        exact h.stepped rfl rfl rfl rfl
      | sequence l sequence =>
        obtain rfl := Option.some.inj hw
        simp only [ifShard]
        by_cases he : l = k
        · subst he
          rw [if_pos rfl]
          exact h.stepped rfl rfl rfl (by simp [seekShard])
        · rw [if_neg he]
          exact h.unmoved rfl rfl (Function.update_of_ne (Ne.symm he) _ _)

theorem Alone.advanced {i : Nat} {order : List Nat} (h : Alone k w s)
    (hw : w.advance owner i order = some w') :
    Followed owner k w' s (toShard k w (.advance i order)) := by
  obtain ⟨⟨position, phase⟩, hseek, hw⟩ := Option.bind_eq_some_iff.mp hw
  simp only [toShard, hseek, Option.elim_some]
  cases phase with
  | installed start =>
    simp only [Option.ite_none_right_eq_some, Option.some.injEq] at hw
    obtain ⟨-, rfl⟩ := hw
    simp only [SeekPhase.toShard]
    by_cases he : k ∈ order
    · rw [if_pos he]
      exact h.stepped rfl rfl rfl (by simp [setSeek, he])
    · rw [if_neg he]
      exact h.unmoved rfl rfl (by simp [setSeek, he])
  | bumping todo legs =>
    cases todo with
    | nil =>
      obtain rfl := Option.some.inj hw
      exact h.unmoved rfl rfl rfl
    | cons leg todo =>
      obtain ⟨v, hv, rfl⟩ := Option.map_eq_some_iff.mp hw
      obtain ⟨s', hs', ha⟩ := h.on hv
      exact ⟨s', hs', ⟨ha.shard, ha.lease, ha.sub⟩⟩
  | sending todo waits =>
    cases todo with
    | nil =>
      obtain rfl := Option.some.inj hw
      exact h.unmoved rfl rfl rfl
    | cons leg todo =>
      obtain ⟨v, hv, hw⟩ := Option.bind_eq_some_iff.mp hw
      obtain ⟨c, -, hw⟩ := Option.bind_eq_some_iff.mp hw
      obtain rfl := Option.some.inj hw
      obtain ⟨s', hs', ha⟩ := h.on hv
      exact ⟨s', hs', ⟨ha.shard, ha.lease, ha.sub⟩⟩
  | waiting todo =>
    cases todo with
    | nil =>
      obtain rfl := Option.some.inj hw
      exact h.unmoved rfl rfl rfl
    | cons leg todo =>
      obtain ⟨v, hv, hw⟩ := Option.bind_eq_some_iff.mp hw
      obtain ⟨c, -, hw⟩ := Option.bind_eq_some_iff.mp hw
      obtain rfl := Option.some.inj hw
      obtain ⟨s', hs', ha⟩ := h.on hv
      exact ⟨s', hs', ⟨ha.shard, ha.lease, ha.sub⟩⟩
  | returned => cases hw

/-- One step of the subscription, seen from one of its shards. -/
theorem step_alone (hw : step owner w act = some w') (h : Alone k w s) :
    Followed owner k w' s (toShard k w act) := by
  cases act with
  | tick l =>
    simp only [step, Option.ite_none_right_eq_some, Option.some.injEq] at hw
    obtain ⟨-, rfl⟩ := hw
    refine h.served fun he => ?_
    subst he
    rw [System.step, h.shard]
  | append l data =>
    simp only [step, Option.ite_none_right_eq_some, Option.some.injEq, Bool.and_eq_true,
      Bool.not_eq_true'] at hw
    obtain ⟨⟨-, hopen⟩, rfl⟩ := hw
    refine h.served fun he => ?_
    subst he
    rw [System.step, h.shard, hopen, if_neg Bool.false_ne_true]
  | close l =>
    simp only [step, Option.ite_none_right_eq_some, Option.some.injEq] at hw
    obtain ⟨-, rfl⟩ := hw
    refine h.served fun he => ?_
    subst he
    rw [System.step, h.shard]
  | reshard parent adjacent =>
    simp only [step, reshard, Option.ite_none_right_eq_some, Option.some.injEq] at hw
    obtain ⟨-, rfl⟩ := hw
    refine h.unmoved ?_ rfl rfl
    by_cases he : k = w.count
    · subst he
      simp
    · simp [Function.update_of_ne he]
  | trim l =>
    simp only [step, Option.ite_none_right_eq_some, Option.some.injEq] at hw
    obtain ⟨-, rfl⟩ := hw
    refine h.unmoved ?_ rfl rfl
    by_cases he : k = l
    · subst he
      simp
    · simp [Function.update_of_ne he]
  | coordinator c => exact h.coordinated hw
  | sub l a =>
    simp only [step, Option.ite_none_right_eq_some] at hw
    obtain ⟨v, hv, rfl⟩ := Option.map_eq_some_iff.mp hw.2
    obtain ⟨s', hs', ha⟩ := h.on hv
    refine ⟨s', hs', ?_⟩
    exact ⟨by simpa using ha.shard, by simpa using ha.lease, by simpa using ha.sub⟩
  | seek position => exact h.sought hw
  | advance i order => exact h.advanced hw
  | leave =>
    obtain rfl := Option.some.inj hw
    exact h.stepped rfl rfl rfl rfl
  | disconnect =>
    obtain rfl := Option.some.inj hw
    exact h.unmoved rfl rfl rfl

/-- What a run of the subscription is to shard `k`. -/
def runOn (owner : Owner) (k : Nat) (w : Stream Owner) (as : List StreamAct) : List Act :=
  labels (step owner) (toShard k) w as

theorem run_alone (hrun : exec (step owner) w as = some w') (h : Alone k w s) :
    Followed owner k w' s (runOn owner k w as) :=
  exec_simulates (R := Alone k) (fun _ _ _ _ h hw => step_alone hw h) hrun h

/-- Every run of a subscription is, for each shard of the stream, a run of one instance that reads
this shard alone: what becomes of the shard, of its lease row and of all the subscription has on it
is what that run makes of them. -/
theorem shards_apart (hrun : exec (step owner) w₀ as = some w) (hsub : ∀ k, w₀.sub k = {})
    (k : Nat) :
    ∃ s, exec (System.step fun _ => owner) (System.fresh (w₀.node k).shard (w₀.lease k))
        (runOn owner k w₀ as) = some s ∧
      s.shard = (w.node k).shard ∧ s.lease = w.lease k ∧ s.subs 0 = w.sub k := by
  have hstart : Alone k w₀ (System.fresh (w₀.node k).shard (w₀.lease k)) :=
    ⟨rfl, rfl, (hsub k).symm⟩
  obtain ⟨s, hs, ha⟩ := run_alone hrun hstart
  exact ⟨s, hs, ha.shard, ha.lease, ha.sub⟩

/-- A shard is split and read to its end, and a child of it is opened. -/
def openingChild : List StreamAct :=
  openingSingle ++ splitting ++ finishing ++ visitingAfter ++ [
    .coordinator (.acquire true 0), .sub 1 (.reader (.readRow true)),
    .sub 1 (.reader (.openIterator .iterator))]

/-- A record of the child is handed out while its parent's row is looked at by another pass. -/
def readingOn : List StreamAct := reading 1 false ++ [
  .append 1 [3], .coordinator .visit, .sub 1 (.reader .handOut)]

/-- The child of that run, read alone. -/
theorem shards_apart_child : ∃ (w : Stream Nat) (s : System Nat),
    exec (step 0) single (openingChild ++ readingOn) = some w ∧
    exec (System.step fun _ => 0) (System.fresh {} {})
      (runOn 0 1 single (openingChild ++ readingOn)) = some s ∧
    s.shard = (w.node 1).shard ∧ s.subs 0 = w.sub 1 ∧ (w.sub 1).sequences = [0] := by
  obtain ⟨w, hw, hseq⟩ : ∃ w : Stream Nat,
      exec (step 0) single (openingChild ++ readingOn) = some w ∧
      (w.sub 1).sequences = [0] := ⟨_, rfl, rfl⟩
  obtain ⟨s, hs, hshard, -, hsub⟩ := shards_apart hw (fun _ => rfl) 1
  exact ⟨w, s, hw, hs, hshard, hsub, hseq⟩

/-- The steps in which the reader of shard `k` fetches a cursor. -/
def fetches (k : Nat) : StreamAct → Bool
  | .sub j act => j == k && act.fetches
  | _ => false

theorem ifShard_fetches {b : Act} (hact : j = k → System.fetches 0 b = false) :
    ∀ c ∈ ifShard k j b, System.fetches 0 c = false := by
  intro c hc
  simp only [ifShard] at hc
  split at hc
  · rename_i hj
    obtain rfl := List.mem_singleton.mp hc
    exact hact hj
  · cases hc

omit [DecidableEq Owner] in
theorem toShard_fetches (hact : fetches k act = false) :
    ∀ b ∈ toShard k w act, System.fetches 0 b = false := by
  cases act with
  | tick j => exact ifShard_fetches fun _ => rfl
  | append j data => exact ifShard_fetches fun _ => rfl
  | close j => exact ifShard_fetches fun _ => rfl
  | sub j a =>
    refine ifShard_fetches fun hj => ?_
    simpa [fetches, System.fetches, hj] using hact
  | coordinator c =>
    simp only [toShard]
    unfold CoordinatorAct.toShard
    split
    · simp [System.fetches, SubAct.fetches]
    · split
      · exact ifShard_fetches fun _ => rfl
      · simp
    · simp
  | seek position =>
    simp only [toShard]
    split
    · simp
    · cases position with
      | sequence => exact ifShard_fetches fun _ => rfl
      | _ => simp [System.fetches, SubAct.fetches]
  | advance i order =>
    simp only [toShard]
    cases w.seeks[i]? with
    | none => simp
    | some seek =>
      rw [Option.elim_some]
      unfold SeekPhase.toShard
      split
      · split <;> simp [System.fetches, SubAct.fetches]
      · exact ifShard_fetches fun _ => rfl
      · exact ifShard_fetches fun _ => rfl
      · exact ifShard_fetches fun _ => rfl
      · simp
  | leave => simp [toShard, System.fetches, SubAct.fetches]
  | reshard | trim | disconnect => simp [toShard]

theorem runOn_fetches (hrun : exec (step owner) w as = some w')
    (hact : ∀ act ∈ as, fetches k act = false) :
    ∀ b ∈ runOn owner k w as, System.fetches 0 b = false := by
  induction as generalizing w with
  | nil => simp [runOn, labels]
  | cons act as ih =>
    obtain ⟨m, hm, hrest⟩ := Option.bind_eq_some_iff.mp hrun
    rw [runOn, labels_cons hm]
    intro b hb
    rcases List.mem_append.mp hb with hb | hb
    · exact toShard_fetches (hact act List.mem_cons_self) b hb
    · exact ih hrest (fun act ha => hact act (List.mem_cons_of_mem _ ha)) b hb

/-- The record at a place of shard `k` is one that is refused. -/
def refusedAt (w : Stream Owner) (k n : Nat) : Bool :=
  ((w.node k).shard.log[n]?).any Record.aggregated

/-- Whatever the coordinator, the seeks and the readers of other shards do in the meantime, the
reader of a shard hands out its records in the shard's order, each once, from one cursor it fetches
to the next. -/
theorem shard_in_order {r : Reader} {p : Nat} (hrun : exec (step owner) w as = some w')
    (hact : ∀ act ∈ as, fetches k act = false) (hr : (w.sub k).reader = some r)
    (hp : r.position = some p) :
    ∃ p', p ≤ p' ∧
      (∀ r' q, (w'.sub k).reader = some r' → r'.position = some q → q = p') ∧
      (w'.sub k).sequences = (w.sub k).sequences ++
        (List.range' p (p' - p)).filter (fun n => !w'.refusedAt k n) ∧
      (w'.sub k).refused = (w.sub k).refused ++
        (List.range' p (p' - p)).filter (w'.refusedAt k) := by
  have hstart : Alone k w (⟨(w.node k).shard, w.lease k, fun _ => w.sub k⟩ : System Owner) :=
    ⟨rfl, rfl, rfl⟩
  obtain ⟨s', hs', ha⟩ := run_alone hrun hstart
  obtain ⟨⟨t, ht, hf⟩, hseq, href⟩ := System.run_follows hs' (System.Follows.from hr hp)
  obtain ⟨hle, hout, hrefused⟩ := System.handsOut_stretch ht hf.log
    (System.labels_still hs' (runOn_fetches hrun hact))
  have hat : s'.refusedAt = w'.refusedAt k := by
    funext n
    rw [System.refusedAt, ha.shard, refusedAt]
  rw [hout, ha.sub, hat] at hseq
  rw [hrefused, ha.sub, hat] at href
  exact ⟨t.cursor, hle, ha.sub ▸ hf.cursor, hseq, href⟩

/-- The record of the child, handed out from where its reader opened. -/
theorem shard_in_order_child : ∃ (w w' : Stream Nat) (p' : Nat),
    exec (step 0) single openingChild = some w ∧ exec (step 0) w readingOn = some w' ∧
    (w'.sub 1).sequences = (w.sub 1).sequences ++
      (List.range' 0 (p' - 0)).filter (fun n => !w'.refusedAt 1 n) ∧
    (w'.sub 1).sequences = [0] := by
  obtain ⟨w, w', hw, hw', ⟨r, hr, hp⟩, hseq⟩ : ∃ w w' : Stream Nat,
      exec (step 0) single openingChild = some w ∧ exec (step 0) w readingOn = some w' ∧
      (∃ r, (w.sub 1).reader = some r ∧ r.position = some 0) ∧
      (w'.sub 1).sequences = [0] := ⟨_, _, rfl, rfl, ⟨_, rfl, rfl⟩, rfl⟩
  obtain ⟨p', -, -, hout, -⟩ := shard_in_order hw' (by decide) hr hp
  exact ⟨w, w', p', hw, hw', hout, hseq⟩

end Stream

end RuststreamKinesis
