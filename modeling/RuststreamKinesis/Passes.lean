import RuststreamKinesis.Stream
import RuststreamKinesis.Lib.Cells

/-!
# What a step of a stream does

`Stream.Step` lists every outcome of `Stream.step`. From it `Does` says which step a shard's part
of the subscription makes, `Evolves` what becomes of the shard graph, and `Examined` what a pass
has found out about the parents of the shard it is about to start.
-/

namespace RuststreamKinesis

set_option autoImplicit false

/-- What is left of the listing. -/
def Pass.todo : Pass → List Listed
  | .visiting todo | .gating _ _ _ todo | .checking _ _ todo | .acquiring _ _ todo => todo
  | _ => []

/-- The shard a pass is about to start: whose parents are still to be looked at, and the lineage
it gets if they let it through. -/
def Pass.examining : Pass → Option (Nat × List Nat × Option Lineage)
  | .gating k rest outcome _ => some (k, rest, outcome.lineage)
  | .checking k lineage _ | .acquiring k lineage _ => some (k, [], some lineage)
  | _ => none

namespace Stream

open Runs

variable {Owner : Type} [DecidableEq Owner]

theorem mark_mono {flags : Nat → Bool} {flag : Bool} {k p : Nat} (h : flags p = true) :
    mark flags k flag p = true := by
  unfold mark
  by_cases he : p = k
  · subst he
    simp [h]
  · simpa [he] using h

theorem mark_self {flags : Nat → Bool} {k : Nat} : mark flags k true k = true := by simp [mark]

theorem mark_cases {flags : Nat → Bool} {flag : Bool} {k p : Nat}
    (h : mark flags k flag p = true) : flags p = true ∨ (p = k ∧ flag = true) := by
  unfold mark at h
  by_cases he : p = k
  · subst he
    simpa using h
  · exact .inl (by simpa [he] using h)

/-- The outcomes of a step of the coordinator. -/
inductive CoordinatorStep (w : Stream Owner) (owner : Owner) :
    CoordinatorAct → Stream Owner → Prop where
  | forgot {lost : List Nat} : w.pass = .resting → CoordinatorStep w owner (.forget lost)
      { w with pass := .listing, sub := fun k => (w.sub k).forgetFinished (k ∉ lost) }
  | listed : w.pass = .listing → CoordinatorStep w owner (.list true)
      { w with pass := .visiting w.listing, known := w.listing }
  | notListed : w.pass = .listing → CoordinatorStep w owner (.list false) w.endPass
  | ended : w.pass = .visiting [] → CoordinatorStep w owner .visit w.endPass
  | read {s : Listed} {todo : List Listed} : w.pass = .visiting (s :: todo) →
      (w.sub s.id).reader ≠ none →
      CoordinatorStep w owner .visit { w with pass := .visiting todo }
  | gate {s : Listed} {todo : List Listed} : w.pass = .visiting (s :: todo) →
      (w.sub s.id).reader = none →
      CoordinatorStep w owner .visit { w with pass := .gating s.id s.parents .skipped todo }
  | cleared {k : Nat} {outcome : Parents} {lineage : Lineage} {todo : List Listed} :
      w.pass = .gating k [] outcome todo → outcome.lineage = some lineage →
      CoordinatorStep w owner .visit { w with pass := .checking k lineage todo }
  | notCleared {k : Nat} {outcome : Parents} {todo : List Listed} :
      w.pass = .gating k [] outcome todo → outcome.lineage = none →
      CoordinatorStep w owner .visit { w with pass := .visiting todo }
  | trimmed {k p : Nat} {rest : List Nat} {outcome : Parents} {todo : List Listed} :
      w.pass = .gating k (p :: rest) outcome todo → (∀ s ∈ w.known, s.id ≠ p) →
      CoordinatorStep w owner .visit { w with pass := .gating k rest outcome todo }
  | waits {k p : Nat} {rest : List Nat} {outcome : Parents} {todo : List Listed} {ok : Bool} :
      w.pass = .gating k (p :: rest) outcome todo →
      CoordinatorStep w owner (.row ok) { w with pass := .visiting todo }
  | passed {k : Nat} {s : Listed} {rest : List Nat} {outcome : Parents} {todo : List Listed} :
      w.pass = .gating k (s.id :: rest) outcome todo → s ∈ w.known →
      outcome.afterRow s.closed (w.sub k).installed (w.lease s.id).checkpoint ≠ .pending →
      CoordinatorStep w owner (.row true) { w with
        pass := .gating k rest
          (outcome.afterRow s.closed (w.sub k).installed (w.lease s.id).checkpoint) todo
        skipped := mark w.skipped s.id (w.lease s.id).checkpoint.isNone }
  | finished {k : Nat} {lineage : Lineage} {todo : List Listed} {ok : Bool} :
      w.pass = .checking k lineage todo →
      CoordinatorStep w owner (.row ok) { w with pass := .visiting todo }
  | unfinished {k : Nat} {lineage : Lineage} {todo : List Listed} :
      w.pass = .checking k lineage todo →
      CoordinatorStep w owner (.row true) { w with pass := .acquiring k lineage todo }
  | acquired {k now : Nat} {lineage : Lineage} {todo : List Listed} {lease : MemoryLease Owner}
      {u : Subscription} : w.pass = .acquiring k lineage todo →
      (w.sub k).Step owner (w.node k).shard (w.lease k) (.acquire lineage now) lease u →
      CoordinatorStep w owner (.acquire true now)
        { w.setSub k lease u with pass := .visiting todo }
  | notAcquired {k now : Nat} {lineage : Lineage} {todo : List Listed} :
      w.pass = .acquiring k lineage todo →
      CoordinatorStep w owner (.acquire false now) { w with pass := .visiting todo }
  | positioned : w.pass = .positioning →
      (∀ k < w.count, (w.sub k).reader.all Reader.positioned = true) →
      CoordinatorStep w owner .positioned { w with pass := .resting, opened := true }

/-- The outcomes of a step of a seek that has begun. -/
inductive SeekStep (w : Stream Owner) (owner : Owner) (i : Nat) (seek : Seek) :
    List Nat → Stream Owner → Prop where
  | found {start : StreamStart} {order : List Nat} : seek.phase = .installed start →
      order.Perm w.live → SeekStep w owner i seek order
        ({ w with sub := fun k =>
          if k ∈ order then (w.sub k).find (.stream start) else w.sub k }.setSeek i seek
            (.bumping (order.map fun k => ⟨k, (w.sub k).calls.length⟩)
              (order.map fun k => ⟨k, (w.sub k).calls.length⟩)))
  | bumped {leg : Leg} {todo legs : List Leg} {order : List Nat} {lease : MemoryLease Owner}
      {u : Subscription} : seek.phase = .bumping (leg :: todo) legs →
      (w.sub leg.shard).Step owner (w.node leg.shard).shard (w.lease leg.shard) (.bump leg.call)
        lease u → SeekStep w owner i seek order
          ((w.setSub leg.shard lease u).setSeek i seek (.bumping todo legs))
  | bumpedAll {legs : List Leg} {order : List Nat} : seek.phase = .bumping [] legs →
      SeekStep w owner i seek order (w.setSeek i seek (.sending legs []))
  | sent {leg : Leg} {todo waits : List Leg} {order : List Nat} {lease : MemoryLease Owner}
      {u : Subscription} {c : SeekCall} : seek.phase = .sending (leg :: todo) waits →
      (w.sub leg.shard).Step owner (w.node leg.shard).shard (w.lease leg.shard) (.send leg.call)
        lease u → u.calls[leg.call]? = some c → SeekStep w owner i seek order
          ((w.setSub leg.shard lease u).setSeek i seek
            (seek.position.afterSend todo waits leg c.phase))
  | sentAll {waits : List Leg} {order : List Nat} : seek.phase = .sending [] waits →
      SeekStep w owner i seek order (w.setSeek i seek (.waiting waits))
  | answered {leg : Leg} {todo : List Leg} {order : List Nat} {lease : MemoryLease Owner}
      {u : Subscription} {c : SeekCall} : seek.phase = .waiting (leg :: todo) →
      (w.sub leg.shard).Step owner (w.node leg.shard).shard (w.lease leg.shard) (.answer leg.call)
        lease u → u.calls[leg.call]? = some c → SeekStep w owner i seek order
          ((w.setSub leg.shard lease u).setSeek i seek (seek.position.afterAnswer todo c.phase))
  | answeredAll {order : List Nat} : seek.phase = .waiting [] →
      SeekStep w owner i seek order (w.setSeek i seek (.returned true))

/-- The outcomes of a step of a stream. -/
inductive Step (owner : Owner) (w : Stream Owner) : StreamAct → Stream Owner → Prop where
  | grows {act : StreamAct} {k : Nat} {shard : Shard} :
      (act = .tick k ∨ (∃ data, act = .append k data) ∨ act = .close k) →
      Shard.Grows (w.node k).shard shard → Step owner w act (w.setShard k shard)
  | reshard {parent adjacent : Option Nat} {node : Node} :
      node = { w.node w.count with parent := parent, adjacent := adjacent } →
      (∀ p ∈ node.parents, p < w.count ∧ (w.node p).shard.closed = true) →
      Step owner w (.reshard parent adjacent)
        { w with count := w.count + 1, node := Function.update w.node w.count node }
  | trim {k : Nat} : Step owner w (.trim k)
      { w with node := Function.update w.node k { w.node k with listed := false } }
  | coordinator {c : CoordinatorAct} {w' : Stream Owner} : CoordinatorStep w owner c w' →
      Step owner w (.coordinator c) w'
  | sub {k : Nat} {a : SubAct} {lease : MemoryLease Owner} {u : Subscription} : a.own = true →
      (w.sub k).Step owner (w.node k).shard (w.lease k) a lease u →
      Step owner w (.sub k a) (w.noting k a (w.setSub k lease u))
  | refused {position : KinesisPosition} : w.connected = false →
      Step owner w (.seek position) { w with seeks := w.seeks ++ [⟨position, .returned false⟩] }
  | installs {position : KinesisPosition} {start : StreamStart} : position.stream = some start →
      w.connected = true → Step owner w (.seek position) (w.seekStream position start)
  | looks {k sequence : Nat} : w.connected = true →
      Step owner w (.seek (.sequence k sequence)) (w.seekShard k sequence)
  | advance {i : Nat} {order : List Nat} {seek : Seek} {w' : Stream Owner} :
      w.seeks[i]? = some seek → SeekStep w owner i seek order w' →
      Step owner w (.advance i order) w'
  | leave : Step owner w .leave { w with sub := fun k => (w.sub k).leave }
  | disconnect : Step owner w .disconnect { w with connected := false }

variable {owner : Owner} {w w' : Stream Owner} {act : StreamAct} {k p : Nat} {a : SubAct}

theorem on_eq (h : w.on owner k a = some w') : ∃ lease u,
    (w.sub k).Step owner (w.node k).shard (w.lease k) a lease u ∧ w' = w.setSub k lease u := by
  obtain ⟨⟨lease, u⟩, hu, rfl⟩ := Option.map_eq_some_iff.mp h
  exact ⟨lease, u, Subscription.step_cases hu, rfl⟩

theorem readParent_cases {rest : List Nat} {outcome : Parents} {todo : List Listed} {ok : Bool}
    (hpass : w.pass = .gating k (p :: rest) outcome todo)
    (h : w.readParent k p rest outcome todo ok = some w') :
    CoordinatorStep w owner (.row ok) w' := by
  obtain ⟨s, hs, h⟩ := Option.bind_eq_some_iff.mp h
  have hid : s.id = p := by simpa using List.find?_some hs
  subst hid
  cases ok with
  | false =>
    simp only [Bool.false_eq_true, if_false, if_true] at h
    obtain rfl := Option.some.inj h
    exact .waits hpass
  | true =>
    simp only [if_true] at h
    split at h
    · obtain rfl := Option.some.inj h
      exact .waits hpass
    · rename_i hne
      obtain rfl := Option.some.inj h
      exact .passed hpass (List.mem_of_find?_eq_some hs) hne

theorem coordinate_cases {c : CoordinatorAct} (h : w.coordinate owner c = some w') :
    CoordinatorStep w owner c w' := by
  unfold coordinate at h
  split at h
  · rename_i hpass
    obtain rfl := Option.some.inj h
    exact .forgot hpass
  · rename_i ok hpass
    cases ok with
    | false =>
      obtain rfl := Option.some.inj h
      exact .notListed hpass
    | true =>
      obtain rfl := Option.some.inj h
      exact .listed hpass
  · rename_i hpass
    obtain rfl := Option.some.inj h
    exact .ended hpass
  · rename_i s todo hpass
    obtain rfl := Option.some.inj h
    cases hr : (w.sub s.id).reader with
    | none => exact .gate hpass hr
    | some r => exact .read hpass (by simp [hr])
  · rename_i hpass
    split at h
    · rename_i hl
      obtain rfl := Option.some.inj h
      exact .cleared hpass hl
    · rename_i hl
      obtain rfl := Option.some.inj h
      exact .notCleared hpass hl
  · rename_i hpass
    split at h
    · rename_i hnone
      obtain rfl := Option.some.inj h
      exact .trimmed hpass (by simpa using hnone)
    · cases h
  · rename_i hpass
    exact readParent_cases hpass h
  · rename_i ok k lineage todo hpass
    obtain rfl := Option.some.inj h
    by_cases hgo : (ok && (w.lease k).checkpoint != some .shardEnd) = true
    · obtain ⟨rfl, _⟩ := Bool.and_eq_true_iff.mp hgo
      rw [if_pos hgo]
      exact .unfinished hpass
    · rw [if_neg hgo]
      exact .finished hpass
  · rename_i ok now k lineage todo hpass
    cases ok with
    | false =>
      obtain rfl := Option.some.inj h
      exact .notAcquired hpass
    | true =>
      obtain ⟨w₁, h₁, rfl⟩ := Option.map_eq_some_iff.mp h
      obtain ⟨lease, u, hs, rfl⟩ := on_eq h₁
      exact .acquired hpass hs
  · rename_i hpass
    split at h
    · rename_i hall
      obtain rfl := Option.some.inj h
      exact .positioned hpass (by simpa using hall)
    · cases h
  · cases h

theorem advance_cases {i : Nat} {order : List Nat} (h : w.advance owner i order = some w') :
    ∃ seek, w.seeks[i]? = some seek ∧ SeekStep w owner i seek order w' := by
  obtain ⟨seek, hseek, h⟩ := Option.bind_eq_some_iff.mp h
  refine ⟨seek, hseek, ?_⟩
  split at h
  · rename_i start hphase
    split at h
    · rename_i hperm
      obtain rfl := Option.some.inj h
      exact .found hphase (List.isPerm_iff.mp hperm)
    · cases h
  · rename_i hphase
    obtain ⟨w₁, h₁, rfl⟩ := Option.map_eq_some_iff.mp h
    obtain ⟨lease, u, hs, rfl⟩ := on_eq h₁
    exact .bumped hphase hs
  · rename_i hphase
    obtain rfl := Option.some.inj h
    exact .bumpedAll hphase
  · rename_i hphase
    obtain ⟨w₁, h₁, h⟩ := Option.bind_eq_some_iff.mp h
    obtain ⟨c, hc, h⟩ := Option.bind_eq_some_iff.mp h
    obtain ⟨lease, u, hs, rfl⟩ := on_eq h₁
    obtain rfl := Option.some.inj h
    exact .sent hphase hs (by simpa [setSub] using hc)
  · rename_i hphase
    obtain rfl := Option.some.inj h
    exact .sentAll hphase
  · rename_i hphase
    obtain ⟨w₁, h₁, h⟩ := Option.bind_eq_some_iff.mp h
    obtain ⟨c, hc, h⟩ := Option.bind_eq_some_iff.mp h
    obtain ⟨lease, u, hs, rfl⟩ := on_eq h₁
    obtain rfl := Option.some.inj h
    exact .answered hphase hs (by simpa [setSub] using hc)
  · rename_i hphase
    obtain rfl := Option.some.inj h
    exact .answeredAll hphase
  · cases h

theorem seek_cases {position : KinesisPosition} (h : w.seek position = some w') :
    Step owner w (.seek position) w' := by
  unfold seek at h
  split at h
  · cases h
  split at h
  · rename_i hc
    obtain rfl := Option.some.inj h
    exact .refused (by simpa using hc)
  · rename_i hc
    cases position with
    | sequence k sequence =>
      obtain rfl := Option.some.inj h
      exact .looks (by simpa using hc)
    | _ =>
      obtain rfl := Option.some.inj h
      exact .installs rfl (by simpa using hc)

theorem step_cases (h : step owner w act = some w') : Step owner w act w' := by
  cases act with
  | tick k =>
    simp only [step, Option.ite_none_right_eq_some, Option.some.injEq] at h
    obtain ⟨_, rfl⟩ := h
    exact .grows (.inl rfl) (.tick _)
  | append k data =>
    simp only [step, Option.ite_none_right_eq_some, Option.some.injEq, Bool.and_eq_true,
      Bool.not_eq_true'] at h
    obtain ⟨⟨_, hopen⟩, rfl⟩ := h
    exact .grows (.inr (.inl ⟨data, rfl⟩)) (.append data hopen)
  | close k =>
    simp only [step, Option.ite_none_right_eq_some, Option.some.injEq] at h
    obtain ⟨_, rfl⟩ := h
    exact .grows (.inr (.inr rfl)) (.close _)
  | reshard parent adjacent =>
    simp only [step, reshard, Option.ite_none_right_eq_some, Option.some.injEq] at h
    obtain ⟨hall, rfl⟩ := h
    exact .reshard rfl (by simpa using hall)
  | trim k =>
    simp only [step, Option.ite_none_right_eq_some, Option.some.injEq] at h
    obtain ⟨_, rfl⟩ := h
    exact .trim
  | coordinator c => exact .coordinator (coordinate_cases h)
  | sub k a =>
    simp only [step, Option.ite_none_right_eq_some] at h
    obtain ⟨hown, h⟩ := h
    obtain ⟨w₁, h₁, rfl⟩ := Option.map_eq_some_iff.mp h
    obtain ⟨lease, u, hs, rfl⟩ := on_eq h₁
    exact .sub hown hs
  | seek position => exact seek_cases h
  | advance i order =>
    obtain ⟨seek, hseek, hs⟩ := advance_cases h
    exact .advance hseek hs
  | leave =>
    obtain rfl := Option.some.inj h
    exact .leave
  | disconnect =>
    obtain rfl := Option.some.inj h
    exact .disconnect

/-- The step that `act` makes on shard `k`. -/
inductive Does (w : Stream Owner) : StreamAct → Nat → SubAct → Prop where
  | own {k : Nat} {a : SubAct} : a.own = true → Does w (.sub k a) k a
  | forget {k : Nat} {lost : List Nat} :
      Does w (.coordinator (.forget lost)) k (.forgetFinished (k ∉ lost))
  | acquire {k now : Nat} {lineage : Lineage} {todo : List Listed} :
      w.pass = .acquiring k lineage todo →
      Does w (.coordinator (.acquire true now)) k (.acquire lineage now)
  | install {k : Nat} {position : KinesisPosition} {start : StreamStart} :
      position.stream = some start → Does w (.seek position) k (.install start)
  | find {k sequence : Nat} : Does w (.seek (.sequence k sequence)) k (.find (.atSeq sequence))
  | findAll {k i : Nat} {order : List Nat} {seek : Seek} {start : StreamStart} :
      w.seeks[i]? = some seek → seek.phase = .installed start →
      Does w (.advance i order) k (.find (.stream start))
  | bump {i : Nat} {order : List Nat} {leg : Leg} :
      Does w (.advance i order) leg.shard (.bump leg.call)
  | send {i : Nat} {order : List Nat} {leg : Leg} :
      Does w (.advance i order) leg.shard (.send leg.call)
  | answer {i : Nat} {order : List Nat} {leg : Leg} :
      Does w (.advance i order) leg.shard (.answer leg.call)
  | leave {k : Nat} : Does w .leave k .leave

/-- Shard `k` stays as it was, or makes a step. -/
def At (owner : Owner) (w w' : Stream Owner) (act : StreamAct) (k : Nat) : Prop :=
  (w'.sub k = w.sub k ∧ w'.lease k = w.lease k) ∨ ∃ a, Does w act k a ∧
    (w.sub k).Step owner (w.node k).shard (w.lease k) a (w'.lease k) (w'.sub k)

theorem at_setSub {lease : MemoryLease Owner} {u : Subscription} (hd : Does w act k a)
    (hs : (w.sub k).Step owner (w.node k).shard (w.lease k) a lease u)
    (hsub : w'.sub = (w.setSub k lease u).sub) (hlease : w'.lease = (w.setSub k lease u).lease)
    (j : Nat) : At owner w w' act j := by
  unfold At
  rw [hsub, hlease]
  by_cases he : j = k
  · subst he
    exact .inr ⟨a, hd, by simpa [setSub] using hs⟩
  · exact .inl ⟨Function.update_of_ne he _ _, Function.update_of_ne he _ _⟩

theorem SeekStep.at {i : Nat} {seek : Seek} {order : List Nat}
    (h : SeekStep w owner i seek order w') (hseek : w.seeks[i]? = some seek) (j : Nat) :
    At owner w w' (.advance i order) j := by
  cases h with
  | found hphase =>
    by_cases he : j ∈ order
    · refine .inr ⟨_, .findAll hseek hphase, ?_⟩
      simp only [setSeek, he, if_true]
      exact Subscription.step_cases rfl
    · exact .inl ⟨by simp [setSeek, he], rfl⟩
  | bumped _ hs => exact at_setSub .bump hs rfl rfl j
  | sent _ hs => exact at_setSub .send hs rfl rfl j
  | answered _ hs => exact at_setSub .answer hs rfl rfl j
  | _ => exact .inl ⟨rfl, rfl⟩

omit [DecidableEq Owner] in
@[simp] theorem noting_sub : (w.noting k a w').sub = w'.sub := by
  unfold noting
  split <;> rfl

omit [DecidableEq Owner] in
@[simp] theorem noting_lease : (w.noting k a w').lease = w'.lease := by
  unfold noting
  split <;> rfl

omit [DecidableEq Owner] in
@[simp] theorem noting_node : (w.noting k a w').node = w'.node := by
  unfold noting
  split <;> rfl

omit [DecidableEq Owner] in
@[simp] theorem noting_count : (w.noting k a w').count = w'.count := by
  unfold noting
  split <;> rfl

omit [DecidableEq Owner] in
@[simp] theorem noting_pass : (w.noting k a w').pass = w'.pass := by
  unfold noting
  split <;> rfl

omit [DecidableEq Owner] in
@[simp] theorem noting_known : (w.noting k a w').known = w'.known := by
  unfold noting
  split <;> rfl

theorem Step.at (h : Step owner w act w') (j : Nat) : At owner w w' act j := by
  cases h with
  | coordinator h =>
    cases h with
    | forgot => exact .inr ⟨_, .forget, Subscription.step_cases rfl⟩
    | acquired hpass hs => exact at_setSub (.acquire hpass) hs rfl rfl j
    | _ => exact .inl ⟨rfl, rfl⟩
  | sub hown hs => exact at_setSub (.own hown) hs noting_sub noting_lease j
  | installs hstart => exact .inr ⟨_, .install hstart, Subscription.step_cases rfl⟩
  | @looks k sequence =>
    by_cases he : j = k
    · subst he
      refine .inr ⟨_, .find, ?_⟩
      simp only [seekShard, Function.update_self]
      exact Subscription.step_cases rfl
    · exact .inl ⟨Function.update_of_ne he _ _, rfl⟩
  | advance hseek hs => exact hs.at hseek j
  | leave => exact .inr ⟨_, .leave, Subscription.step_cases rfl⟩
  | _ => exact .inl ⟨rfl, rfl⟩

/-- What becomes of the shard graph. -/
structure Evolves (w w' : Stream Owner) : Prop where
  count : w.count ≤ w'.count
  grows : ∀ k, Shard.Grows (w.node k).shard (w'.node k).shard
  listed : ∀ k, (w'.node k).listed = true → (w.node k).listed = true
  parents : ∀ k < w.count, (w'.node k).parents = (w.node k).parents
  opens : ∀ k < w'.count, w.count ≤ k → ∀ p ∈ (w'.node k).parents, p < w.count

omit [DecidableEq Owner] in
theorem Evolves.same (hcount : w'.count = w.count) (hnode : w'.node = w.node) : Evolves w w' where
  count := le_of_eq hcount.symm
  grows k := hnode ▸ .refl _
  listed _ h := hnode ▸ h
  parents _ _ := by rw [hnode]
  opens _ hlt hle := absurd (hcount ▸ hlt) (Nat.not_lt.mpr hle)

omit [DecidableEq Owner] in
theorem Evolves.update {count : Nat} {node : Node} (hcount : w.count ≤ count)
    (hgrows : Shard.Grows (w.node k).shard node.shard)
    (hlisted : node.listed = true → (w.node k).listed = true)
    (hparents : k < w.count → node.parents = (w.node k).parents)
    (hopens : ∀ j < count, w.count ≤ j → j = k ∧ ∀ p ∈ node.parents, p < w.count) :
    Evolves w { w with count := count, node := Function.update w.node k node } := by
  refine ⟨hcount, ?_, ?_, ?_, ?_⟩
  · intro j
    by_cases he : j = k
    · subst he
      simpa using hgrows
    · simpa [he] using .refl _
  · intro j
    by_cases he : j = k
    · subst he
      simpa using hlisted
    · simp [he]
  · intro j hj
    by_cases he : j = k
    · subst he
      simpa using hparents hj
    · simp [he]
  · intro j hj hle
    obtain ⟨rfl, hp⟩ := hopens j hj hle
    simpa using hp

theorem SeekStep.evolves {i : Nat} {seek : Seek} {order : List Nat}
    (h : SeekStep w owner i seek order w') : Evolves w w' := by
  cases h <;> exact .same rfl rfl

theorem Step.evolves (h : Step owner w act w') : Evolves w w' := by
  cases h with
  | grows _ hg =>
    exact .update le_rfl hg (fun h => h) (fun _ => rfl) fun _ hlt hle => absurd hlt (by omega)
  | reshard hnode hparents =>
    subst hnode
    refine .update (Nat.le_succ _) (.refl _) (fun h => h) (fun hlt => absurd hlt (lt_irrefl _)) ?_
    intro j hlt hle
    exact ⟨Nat.le_antisymm (Nat.le_of_lt_succ hlt) hle, fun p hp => (hparents p hp).1⟩
  | trim =>
    exact .update le_rfl (.refl _) (fun h => by cases h) (fun _ => rfl) fun _ hlt hle =>
      absurd hlt (by omega)
  | coordinator h => cases h <;> exact .same rfl rfl
  | sub => exact .same noting_count noting_node
  | advance _ hs => exact hs.evolves
  | _ => exact .same rfl rfl

/-- A law of one shard's part of the subscription that its steps keep, and the service's. -/
theorem Step.keeps {I : Shard → Subscription → Prop} (h : Step owner w act w')
    (hI : I (w.node k).shard (w.sub k))
    (grows : ∀ shard shard' u, I shard u → Shard.Grows shard shard' → I shard' u)
    (keep : ∀ a, Does w act k a → (w.sub k).Step owner (w.node k).shard (w.lease k) a (w'.lease k)
      (w'.sub k) → I (w.node k).shard (w'.sub k)) :
    I (w'.node k).shard (w'.sub k) := by
  refine grows _ _ _ ?_ (h.evolves.grows k)
  rcases h.at k with ⟨hsub, _⟩ | ⟨a, hdoes, hs⟩
  · exact hsub ▸ hI
  · exact keep a hdoes hs

theorem Parents.lineage_ne_none {outcome : Parents} (h : outcome ≠ .pending) :
    outcome.lineage ≠ none := by
  cases outcome <;> simp_all [Parents.lineage]

/-- How a pass comes to examine shard `k` with `rest` still to be looked at. -/
inductive Examines (w w' : Stream Owner) (c : CoordinatorAct) (k : Nat) (rest : List Nat)
    (lineage : Option Lineage) : Prop where
  | stays (h : w.pass.examining = some (k, rest, lineage))
  | begins {s : Listed} (hs : s ∈ w.pass.todo) (hk : s.id = k) (hrest : s.parents = rest)
      (hl : lineage = some .opens)
  | trimmed {p : Nat} (h : w.pass.examining = some (k, p :: rest, lineage))
      (hp : ∀ s ∈ w.known, s.id ≠ p)
  | passed {s : Listed} {outcome : Parents} {todo : List Listed} (hc : c = .row true)
      (h : w.pass = .gating k (s.id :: rest) outcome todo) (hs : s ∈ w.known)
      (hne : outcome.afterRow s.closed (w.sub k).installed (w.lease s.id).checkpoint ≠ .pending)
      (hl : lineage = (outcome.afterRow s.closed (w.sub k).installed
        (w.lease s.id).checkpoint).lineage)
      (hskipped : w'.skipped = mark w.skipped s.id (w.lease s.id).checkpoint.isNone)

theorem CoordinatorStep.examines {c : CoordinatorAct} {rest : List Nat} {lineage : Option Lineage}
    (h : CoordinatorStep w owner c w') (hex : w'.pass.examining = some (k, rest, lineage)) :
    Examines w w' c k rest lineage := by
  cases h with
  | notListed | ended =>
    simp only [endPass] at hex
    split at hex <;> cases hex
  | gate hpass =>
    obtain ⟨rfl, rfl, rfl⟩ : _ ∧ _ ∧ _ := by simpa [Pass.examining] using hex
    exact .begins (hpass ▸ List.mem_cons_self) rfl rfl rfl
  | cleared hpass hl =>
    obtain ⟨rfl, rfl, rfl⟩ : _ ∧ _ ∧ _ := by simpa [Pass.examining] using hex
    exact .stays (by simp [hpass, Pass.examining, hl])
  | trimmed hpass hp =>
    obtain ⟨rfl, rfl, rfl⟩ : _ ∧ _ ∧ _ := by simpa [Pass.examining] using hex
    exact .trimmed (by simp [hpass, Pass.examining]) hp
  | passed hpass hs hne =>
    obtain ⟨rfl, rfl, rfl⟩ : _ ∧ _ ∧ _ := by simpa [Pass.examining] using hex
    exact .passed rfl hpass hs hne rfl rfl
  | unfinished hpass =>
    obtain ⟨rfl, rfl, rfl⟩ : _ ∧ _ ∧ _ := by simpa [Pass.examining] using hex
    exact .stays (by simp [hpass, Pass.examining])
  | _ => cases hex

theorem CoordinatorStep.todo {c : CoordinatorAct} {s : Listed} (h : CoordinatorStep w owner c w')
    (hs : s ∈ w'.pass.todo) : (s ∈ w.pass.todo ∧ w'.known = w.known) ∨ s ∈ w'.known := by
  cases h with
  | listed => exact .inr hs
  | notListed | ended =>
    simp only [endPass] at hs
    split at hs <;> cases hs
  | read hpass | gate hpass => exact .inl ⟨hpass ▸ List.mem_cons_of_mem _ hs, rfl⟩
  | cleared hpass | notCleared hpass | trimmed hpass | waits hpass | passed hpass
  | finished hpass | unfinished hpass | acquired hpass | notAcquired hpass =>
    exact .inl ⟨hpass ▸ hs, rfl⟩
  | _ => cases hs

/-- The listing a pass goes by was true when it was made, and the pass keeps to it. -/
structure Charted (w : Stream Owner) : Prop where
  rooted : ∀ k < w.count, ∀ p ∈ (w.node k).parents, p < w.count
  id_lt : ∀ s ∈ w.known, s.id < w.count
  parents : ∀ s ∈ w.known, s.parents = (w.node s.id).parents
  closed : ∀ s ∈ w.known, s.closed = true → (w.node s.id).shard.closed = true
  complete : ∀ s ∈ w.known, ∀ p ∈ s.parents, (w.node p).listed = true → ∃ s ∈ w.known, s.id = p
  todo : ∀ s ∈ w.pass.todo, s ∈ w.known
  examining : ∀ k rest lineage, w.pass.examining = some (k, rest, lineage) →
    (∃ s ∈ w.known, s.id = k) ∧ lineage ≠ none

theorem Step.outside (h : Step owner w act w') :
    (∃ c, act = .coordinator c ∧ CoordinatorStep w owner c w') ∨
      (w'.pass = w.pass ∧ w'.known = w.known) := by
  cases h with
  | coordinator h => exact .inl ⟨_, rfl, h⟩
  | sub => exact .inr ⟨noting_pass, noting_known⟩
  | advance _ hs => exact .inr (by cases hs <;> exact ⟨rfl, rfl⟩)
  | _ => exact .inr ⟨rfl, rfl⟩

omit [DecidableEq Owner] in
theorem Charted.fresh (h : Fresh w) : Charted w where
  rooted := h.rooted
  id_lt s hs := by simp [h.known] at hs
  parents s hs := by simp [h.known] at hs
  closed s hs := by simp [h.known] at hs
  complete s hs := by simp [h.known] at hs
  todo s hs := by
    rw [h.pass] at hs
    cases hs
  examining k rest lineage hex := by
    rw [h.pass] at hex
    cases hex

omit [DecidableEq Owner] in
theorem mem_listing {s : Listed} : s ∈ w.listing ↔ s.id < w.count ∧
    (w.node s.id).listed = true ∧
    s = ⟨s.id, (w.node s.id).parents, (w.node s.id).shard.closed⟩ := by
  unfold listing
  constructor
  · intro hs
    obtain ⟨k, hk, rfl⟩ := List.mem_map.mp hs
    obtain ⟨hlt, hlisted⟩ := List.mem_filter.mp hk
    exact ⟨List.mem_range.mp hlt, hlisted, rfl⟩
  · rintro ⟨hlt, hlisted, he⟩
    exact List.mem_map.mpr ⟨s.id, List.mem_filter.mpr ⟨List.mem_range.mpr hlt, hlisted⟩, he.symm⟩

omit [DecidableEq Owner] in
theorem Charted.evolves (h : Charted w) (he : Evolves w w') (hknown : w'.known = w.known)
    (htodo : ∀ s ∈ w'.pass.todo, s ∈ w.known)
    (hex : ∀ k rest lineage, w'.pass.examining = some (k, rest, lineage) →
      (∃ s ∈ w.known, s.id = k) ∧ lineage ≠ none) : Charted w' where
  rooted k hk p hp := by
    by_cases hlt : k < w.count
    · exact Nat.lt_of_lt_of_le (h.rooted k hlt p (he.parents k hlt ▸ hp)) he.count
    · exact Nat.lt_of_lt_of_le (he.opens k hk (Nat.not_lt.mp hlt) p hp) he.count
  id_lt s hs := Nat.lt_of_lt_of_le (h.id_lt s (hknown ▸ hs)) he.count
  parents s hs := by
    rw [hknown] at hs
    rw [h.parents s hs, he.parents _ (h.id_lt s hs)]
  closed s hs hc := ((he.grows s.id).closed (h.closed s (hknown ▸ hs) hc)).1
  complete s hs p hp hl := by
    rw [hknown] at hs ⊢
    exact h.complete s hs p hp (he.listed p hl)
  todo s hs := hknown ▸ htodo s hs
  examining k rest lineage hx := hknown ▸ hex k rest lineage hx

omit [DecidableEq Owner] in
theorem Charted.relisted (h : Charted w) :
    Charted { w with pass := .visiting w.listing, known := w.listing } where
  rooted := h.rooted
  id_lt s hs := (mem_listing.mp hs).1
  parents s hs := by rw [(mem_listing.mp hs).2.2]
  closed s hs hc := by
    rw [(mem_listing.mp hs).2.2] at hc
    exact hc
  complete s hs p hp hl := by
    obtain ⟨hlt, _, he⟩ := mem_listing.mp hs
    rw [he] at hp
    exact ⟨⟨p, (w.node p).parents, (w.node p).shard.closed⟩,
      mem_listing.mpr ⟨h.rooted _ hlt p hp, hl, rfl⟩, rfl⟩
  todo s hs := hs
  examining k rest lineage hex := by cases hex

theorem CoordinatorStep.known {c : CoordinatorAct} (h : CoordinatorStep w owner c w') :
    w' = { w with pass := .visiting w.listing, known := w.listing } ∨ w'.known = w.known := by
  cases h with
  | listed => exact .inl rfl
  | _ => exact .inr rfl

theorem Charted.step (h : Charted w) (hs : Step owner w act w') : Charted w' := by
  rcases hs.outside with ⟨c, _, hc⟩ | ⟨hpass, hknown⟩
  · rcases hc.known with rfl | hknown
    · exact h.relisted
    · refine h.evolves hs.evolves hknown ?_ ?_
      · intro s hmem
        rcases hc.todo hmem with ⟨hmem, _⟩ | hmem
        · exact h.todo s hmem
        · exact hknown ▸ hmem
      · intro k rest lineage hex
        cases hc.examines hex with
        | stays hex => exact h.examining k rest lineage hex
        | begins hmem hk _ hl => exact ⟨⟨_, h.todo _ hmem, hk⟩, by simp [hl]⟩
        | trimmed hex => exact h.examining k _ lineage hex
        | passed _ hpass _ hne hl =>
          refine ⟨(h.examining k _ _ (by rw [hpass]; rfl)).1, ?_⟩
          rw [hl]
          exact Parents.lineage_ne_none hne
  · exact h.evolves hs.evolves hknown (fun s hmem => h.todo s (hpass ▸ hmem))
      fun k rest lineage hex => h.examining k rest lineage (hpass ▸ hex)

/-- What a pass has found out about the parents of the shard it is about to start: `Found` of the
lineage the shard gets and of each listed parent that was looked at. -/
def Examined (Found : Stream Owner → Lineage → Nat → Prop) (w : Stream Owner) : Prop :=
  ∀ k rest lineage, w.pass.examining = some (k, rest, some lineage) →
    ∀ p ∈ (w.node k).parents, (w.node p).listed = true → p ∉ rest → Found w lineage p

theorem Examined.step {Found : Stream Owner → Lineage → Nat → Prop} (h : Examined Found w)
    (hchart : Charted w) (hs : Step owner w act w')
    (hkeep : ∀ lineage p, Found w lineage p → Found w' lineage p)
    (hrow : ∀ k s rest outcome todo installed lineage, act = .coordinator (.row true) →
      w.pass = .gating k (s.id :: rest) outcome todo → s ∈ w.known →
      (outcome.afterRow s.closed installed (w.lease s.id).checkpoint).lineage = some lineage →
      w'.skipped = mark w.skipped s.id (w.lease s.id).checkpoint.isNone →
      Found w' lineage s.id ∧ ∀ before p, outcome.lineage = some before → Found w before p →
        Found w lineage p) : Examined Found w' := by
  have he := hs.evolves
  have hsame : ∀ {k rest lineage}, w.pass.examining = some (k, rest, lineage) →
      (w'.node k).parents = (w.node k).parents := by
    intro k rest lineage hex
    obtain ⟨⟨s, hs, rfl⟩, _⟩ := hchart.examining k rest lineage hex
    exact he.parents _ (hchart.id_lt s hs)
  intro k rest lineage hex p hp hlisted hrest
  have hlisted' := he.listed p hlisted
  rcases hs.outside with ⟨c, rfl, hc⟩ | ⟨hpass, _⟩
  · cases hc.examines hex with
    | stays hex => exact hkeep _ _ (h k rest lineage hex p (hsame hex ▸ hp) hlisted' hrest)
    | @begins s hmem hk hparents =>
      have hknown := hchart.todo s hmem
      subst hk hparents
      rw [he.parents _ (hchart.id_lt s hknown), ← hchart.parents s hknown] at hp
      exact absurd hp hrest
    | @trimmed q hex hq =>
      rw [hsame hex] at hp
      refine hkeep _ _ (h k _ lineage hex p hp hlisted' ?_)
      rintro (_ | ⟨_, hmem⟩)
      · obtain ⟨⟨s, hs, rfl⟩, _⟩ := hchart.examining k _ _ hex
        rw [← hchart.parents s hs] at hp
        obtain ⟨s', hs', he'⟩ := hchart.complete s hs p hp hlisted'
        exact hq s' hs' he'
      · exact hrest hmem
    | @passed s outcome todo hact hpass hmem hne hl hskipped =>
      subst hact
      have hex : w.pass.examining = some (k, s.id :: rest, outcome.lineage) := by
        rw [hpass]
        rfl
      rw [hsame hex] at hp
      obtain ⟨hself, hothers⟩ :=
        hrow k s rest outcome todo _ lineage rfl hpass hmem hl.symm hskipped
      by_cases hps : p = s.id
      · exact hps ▸ hself
      · obtain ⟨before, hbefore⟩ := Option.ne_none_iff_exists'.mp (hchart.examining k _ _ hex).2
        refine hkeep _ _ (hothers before p hbefore (h k _ before (hbefore ▸ hex) p hp hlisted' ?_))
        rintro (_ | ⟨_, hmem⟩)
        · exact hps rfl
        · exact hrest hmem
  · rw [hpass] at hex
    exact hkeep _ _ (h k rest lineage hex p (hsame hex ▸ hp) hlisted' hrest)

end Stream

end RuststreamKinesis
