import RuststreamKinesis.Lib.Runs
import RuststreamKinesis.Positions

/-!
# Instances sharing a shard

Any number of instances, each with one subscription, read one shard and share its lease row. A
run is any interleaving of the steps of their tasks and of the service.
-/

namespace RuststreamKinesis

set_option autoImplicit false

structure System (Owner : Type) where
  shard : Shard
  lease : MemoryLease Owner
  subs : Nat → Subscription

inductive Act where
  | tick
  | append (data : List UInt8)
  | close
  | sub (x : Nat) (act : SubAct)
deriving DecidableEq, Repr

/-- No seek begins. -/
def Subscription.seekless (_ : Subscription) : SubAct → Bool
  | .install _ | .find _ => false
  | _ => true

/-- How the service changes a shard. -/
inductive Shard.Grows : Shard → Shard → Prop where
  | refl (shard : Shard) : Grows shard shard
  | tick (shard : Shard) : Grows shard { shard with clock := shard.clock + 1 }
  | append {shard : Shard} (data : List UInt8) (h : shard.closed = false) :
      Grows shard (shard.append data)
  | close (shard : Shard) : Grows shard { shard with closed := true }

namespace Shard.Grows

variable {shard shard' : Shard} {n : Nat} {record : Record}

theorem get (h : Shard.Grows shard shard') (hn : shard.log[n]? = some record) :
    shard'.log[n]? = some record := by
  cases h with
  | append => exact Cells.get_push_old hn
  | _ => exact hn

theorem unreadable (h : Shard.Grows shard shard') (hn : shard.Unreadable n) :
    shard'.Unreadable n := by
  obtain ⟨record, hr, hagg⟩ := hn
  exact ⟨record, h.get hr, hagg⟩

theorem length_le (h : Shard.Grows shard shard') : shard.log.length ≤ shard'.log.length := by
  cases h with
  | append => simp [Shard.append]
  | _ => exact le_rfl

theorem closed (h : Shard.Grows shard shard') (hc : shard.closed = true) :
    shard'.closed = true ∧ shard'.log = shard.log := by
  cases h with
  | append _ hopen => exact absurd (hc.symm.trans hopen) (by simp)
  | refl | tick => exact ⟨hc, rfl⟩
  | close => exact ⟨rfl, rfl⟩

end Shard.Grows

namespace System

open Runs

variable {Owner : Type} [DecidableEq Owner]

/-- No instance has begun, over whatever lease row there is. -/
def fresh (shard : Shard) (lease : MemoryLease Owner) : System Owner where
  shard := shard
  lease := lease
  subs _ := {}

def init (shard : Shard) : System Owner := fresh shard {}

def step (owner : Nat → Owner) (s : System Owner) : Act → Option (System Owner)
  | .tick => some { s with shard := { s.shard with clock := s.shard.clock + 1 } }
  | .append data =>
    if s.shard.closed then none else some { s with shard := s.shard.append data }
  | .close => some { s with shard := { s.shard with closed := true } }
  | .sub x act =>
    ((s.subs x).step (owner x) s.shard s.lease act).map fun (lease, u) =>
      { s with lease := lease, subs := Function.update s.subs x u }

/-- A side condition on the steps of each subscription. -/
def each (p : Subscription → SubAct → Bool) (s : System Owner) : Act → Bool
  | .sub x act => p (s.subs x) act
  | _ => true

/-- The lease is acquired and the reader gets its first iterator. -/
def opening (x : Nat) (lineage : Lineage) (now : Nat) : List Act := [
  .sub x (.acquire lineage now), .sub x (.reader (.readRow true)),
  .sub x (.reader (.openIterator .iterator))]

/-- The reader goes from the head of its loop to the answer of `GetRecords`. -/
def reading (x count : Nat) (last : Bool) : List Act := [
  .sub x (.reader .checkClosed), .sub x (.reader .drained), .sub x (.reader .notDue),
  .sub x (.reader .stamp), .sub x (.reader (.getRecords count last))]

/-- A delivery is acked and its checkpoint written. -/
def acking (x id : Nat) : List Act :=
  [.sub x (.ack id), .sub x (.settle id), .sub x (.write id true)]

/-- The outcomes of a step of the system. -/
inductive Step (owner : Nat → Owner) (s : System Owner) : Act → System Owner → Prop where
  | service {act : Act} {shard : Shard} : Shard.Grows s.shard shard →
      (∀ x a, act ≠ .sub x a) → Step owner s act { s with shard := shard }
  | sub {x : Nat} {act : SubAct} {lease : MemoryLease Owner} {u : Subscription} :
      (s.subs x).Step (owner x) s.shard s.lease act lease u →
      Step owner s (.sub x act)
        { s with lease := lease, subs := Function.update s.subs x u }

variable {owner : Nat → Owner} {s s' : System Owner} {act : Act} {x n : Nat}

theorem sub_cases {a : SubAct} (h : s.step owner (.sub x a) = some s') :
    (s.subs x).Step (owner x) s.shard s.lease a s'.lease (s'.subs x) := by
  obtain ⟨⟨lease, u⟩, hu, rfl⟩ := Option.map_eq_some_iff.mp h
  have hu' := Subscription.step_cases hu
  simpa using hu'

theorem step_cases (h : s.step owner act = some s') : Step owner s act s' := by
  cases act with
  | tick =>
    obtain rfl := Option.some.inj h
    exact .service (.tick _) (by simp)
  | append data =>
    simp only [step] at h
    split at h
    · cases h
    · rename_i hopen
      obtain rfl := Option.some.inj h
      exact .service (.append data (by simpa using hopen)) (by simp)
  | close =>
    obtain rfl := Option.some.inj h
    exact .service (.close _) (by simp)
  | sub x act =>
    obtain ⟨⟨lease, u⟩, hu, rfl⟩ := Option.map_eq_some_iff.mp h
    exact .sub (Subscription.step_cases hu)

theorem Step.grows (h : Step owner s act s') : Shard.Grows s.shard s'.shard := by
  cases h with
  | service hg => exact hg
  | sub => exact .refl _

theorem Step.at (h : Step owner s act s') (x : Nat) : s'.subs x = s.subs x ∨
    ∃ a, act = .sub x a ∧ (s.subs x).Step (owner x) s.shard s.lease a s'.lease (s'.subs x) := by
  cases h with
  | service => exact .inl rfl
  | @sub y a lease u h =>
    by_cases he : x = y
    · subst he
      refine .inr ⟨a, rfl, ?_⟩
      simpa using h
    · exact .inl (Function.update_of_ne he _ _)

omit [DecidableEq Owner] in
theorem each_update {P : Subscription → Prop} {u : Subscription} (hu : P u)
    (hall : ∀ y, P (s.subs y)) (y : Nat) : P (Function.update s.subs x u y) := by
  by_cases hy : y = x
  · subst hy
    rw [Function.update_self]
    exact hu
  · rw [Function.update_of_ne hy]
    exact hall y

/-- A law that one subscription's steps keep holds of every subscription in a run. -/
theorem run_each {I : Subscription → Prop} {p : Subscription → SubAct → Bool} {shard : Shard}
    {lease : MemoryLease Owner} (hinit : I {})
    (keep : ∀ {u u' owner shard a} {lease lease' : MemoryLease Owner}, I u →
      p u a = true → Subscription.Step u owner shard lease a lease' u' → I u')
    (h : Run (step owner) (fun s act => s.each p act = true) (fresh shard lease) s) (x : Nat) :
    I (s.subs x) := by
  refine h.invariant (I := fun s => ∀ x, I (s.subs x)) ?_ (fun _ => hinit) x
  intro s act s' hs hok hstep x
  rcases (step_cases hstep).at x with he | ⟨a, rfl, ha⟩
  · exact he ▸ hs x
  · exact keep (hs x) hok ha

/-- Some delivery of the record was acked or dropped, and its tracker told. -/
def Settled (s : System Owner) (n : Nat) : Prop :=
  ∃ x, ∃ d ∈ (s.subs x).deliveries, d.sequence = n ∧ d.phase.acked = true

/-- Nothing is left to do with the record: it is settled, or it is refused to every reader. -/
def Done (s : System Owner) (n : Nat) : Prop := s.shard.Unreadable n ∨ s.Settled n

theorem Step.settled (h : Step owner s act s') (hn : s.Settled n) : s'.Settled n := by
  obtain ⟨x, d, hd, rfl, hacked⟩ := hn
  rcases h.at x with he | ⟨a, _, hs⟩
  · exact ⟨x, d, he ▸ hd, rfl, hacked⟩
  · obtain ⟨i, hi⟩ := List.mem_iff_getElem?.mp hd
    obtain ⟨phase, hi', hkeep⟩ := hs.books.get hi
    exact ⟨x, _, List.mem_of_getElem? hi', rfl, hkeep hacked⟩

theorem Step.done (h : Step owner s act s') (hn : s.Done n) : s'.Done n :=
  hn.imp h.grows.unreadable h.settled

/-- A delivery carries a record that can be read. -/
def Readable (s : System Owner) : Prop :=
  ∀ x, ∀ d ∈ (s.subs x).deliveries, ∃ record,
    s.shard.log[d.sequence]? = some record ∧ record.aggregated = false

theorem Readable.step (hs : s.Readable) (h : Step owner s act s') : s'.Readable := by
  intro x d hd
  have hold : ∀ d ∈ (s.subs x).deliveries, ∃ record,
      s'.shard.log[d.sequence]? = some record ∧ record.aggregated = false := by
    intro d hd
    obtain ⟨record, hr, hagg⟩ := hs x d hd
    exact ⟨record, h.grows.get hr, hagg⟩
  rcases h.at x with he | ⟨a, _, hstep⟩
  · exact hold d (he ▸ hd)
  · rcases hstep.books.mem hd with ⟨d₀, hd₀, he⟩ | ⟨record, hr, hagg⟩
    · rw [he]
      exact hold d₀ hd₀
    · exact ⟨record, h.grows.get hr, hagg⟩

omit [DecidableEq Owner] in
theorem Readable.not_done (hs : s.Readable) {d : Delivery} (hd : d ∈ (s.subs x).deliveries)
    (hn : ¬ s.Settled d.sequence) : ¬ s.Done d.sequence := by
  rintro (⟨record, hr, hagg⟩ | h)
  · obtain ⟨record', hr', hagg'⟩ := hs x d hd
    obtain rfl : record = record' := Option.some.inj (hr ▸ hr')
    exact absurd (hagg.symm.trans hagg') (by simp)
  · exact hn h

end System

namespace Subscription

/-- The bookkeeping of a subscription is in order. -/
structure Sound (u : Subscription) : Prop where
  linked : u.Linked
  seated : u.Seated

/-- No seek was made so far. -/
structure Unsought (u : Subscription) : Prop where
  installed : u.installed = none
  calls : u.calls = []
  reader : ∀ r, u.reader = some r → r.commands = [] ∧ ∀ call idle, r.pc ≠ .seeking call idle

variable {Owner : Type} [DecidableEq Owner] {u u' : Subscription} {owner : Owner} {shard : Shard}
variable {lease lease' : MemoryLease Owner} {r r' : Reader} {act : ReaderAct} {a : SubAct}

theorem Sound.init : Sound {} where
  linked := by constructor <;> simp
  seated := by
    intro r hr
    cases hr

theorem Sound.step (hs : Sound u) (h : Step u owner shard lease a lease' u') : Sound u' where
  linked := hs.linked.books h.books
  seated := hs.seated.step h

theorem Unsought.init : Unsought {} where
  installed := rfl
  calls := rfl
  reader := by
    intro r hr
    cases hr

theorem ReaderStep.unsought (h : ReaderStep u owner shard lease r act lease' u')
    (hu : Unsought u) (hr : u.reader = some r) : Unsought u' := by
  obtain ⟨hnone, hpc⟩ := hu.reader r hr
  cases h with
  | takeDraining _ hc | takeIdle _ hc => exact absurd (hc.symm.trans hnone) (by simp)
  | sought hseek | seekFailed hseek => exact absurd hseek (hpc _ _)
  | recorded =>
    refine ⟨hu.installed, hu.calls, ?_⟩
    intro r' hr'
    obtain rfl := Option.some.inj hr'
    exact ⟨hnone, hpc⟩
  | @batchDone epoch stop idle =>
    refine ⟨hu.installed, hu.calls, ?_⟩
    intro r' hr'
    obtain rfl := Option.some.inj hr'
    cases idle <;> exact ⟨hnone, by simp⟩
  | _ =>
    refine ⟨hu.installed, hu.calls, ?_⟩
    intro r' hr'
    obtain rfl := Option.some.inj hr'
    exact ⟨by simp [hnone], by simp⟩

theorem Unsought.step (hu : Unsought u) (h : Step u owner shard lease a lease' u')
    (ha : seekless u a = true) : Unsought u' := by
  cases h with
  | reader hr h => exact h.unsought hu hr
  | forgot => exact ⟨hu.installed, hu.calls, by simp⟩
  | acquired =>
    refine ⟨hu.installed, hu.calls, ?_⟩
    intro r hr
    obtain rfl := Option.some.inj hr
    exact ⟨rfl, by simp⟩
  | install | findLive | findNone => cases ha
  | bump hc | sent hc | sendGone hc | answered hc | answerGone hc =>
    rw [hu.calls] at hc
    cases hc
  | _ => exact ⟨hu.installed, hu.calls, hu.reader⟩

end Subscription

end RuststreamKinesis
