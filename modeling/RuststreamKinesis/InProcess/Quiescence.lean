import RuststreamKinesis.InProcess.Order
import Mathlib.Algebra.Order.BigOperators.Group.List
import Mathlib.Algebra.Order.Group.Int
import Mathlib.Algebra.Ring.Int.Defs

/-!
# When the total may be zero

A harness takes a total of zero for quiescence. The fanout sends a delivery before it counts it,
and a poll receives without the log's lock; a plan is counted for the records the log held when it
was resolved. So the total can be zero, or less, with a delivery on its way or a record to replay.
It is not in a run in which what is not yet counted is never all there is.
-/

namespace RuststreamKinesis.InProcess

set_option autoImplicit false

open Cells Runs

namespace Sub

/-- A delivery is queued, on its way to the queue or out of it, or handed out, or a plan that is
not applied has a record to replay. -/
def Busy (sub : Sub) (log : List Record) : Prop :=
  sub.queue ≠ [] ∨ sub.ahead ≠ [] ∨ (∃ delivery, sub.poll = .holding delivery) ∨ sub.out ≠ [] ∨
    (sub.alive = true ∧ ∃ plan, (sub.pending = some plan ∨ sub.poll = .taken plan) ∧
      plan.target < log.length)

/-- A plan that counts nothing stands before the end of the log. -/
def stale (plan : Plan) (log : List Record) : Bool := plan.count = 0 ∧ plan.target < log.length

/-- A record is to be replayed and nothing of the replay is counted. -/
def short (sub : Sub) (log : List Record) : Bool :=
  (sub.alive && sub.pending.any fun plan => stale plan log) ||
    match sub.poll with
    | .taken plan => stale plan log
    | .counting 0 (_ :: _) => true
    | _ => false

/-- A plan that counts nothing is pending or taken. -/
def hollow (sub : Sub) : Bool :=
  (sub.alive && sub.pending.any fun plan => plan.count == 0) ||
    match sub.poll with
    | .taken plan => plan.count == 0
    | _ => false

variable {sub sub' : Sub} {phase : Phase} {log : List Record} {a : SubAct}

theorem not_busy (howed : sub.owed = 0) (hshort : sub.short log = false) : ¬ sub.Busy log := by
  simp only [owed, Nat.add_eq_zero_iff, List.length_eq_zero_iff] at howed
  obtain ⟨⟨⟨⟨hqueue, hpending⟩, hpoll⟩, -⟩, hout⟩ := howed
  simp only [short, Bool.or_eq_false_iff, Bool.and_eq_false_imp] at hshort
  rintro (hbusy | hbusy | ⟨delivery, hbusy⟩ | hbusy | ⟨halive, plan, hplan | hplan, hlt⟩)
  · exact hbusy hqueue
  · apply hbusy
    cases hp : sub.poll with
    | counting n suffix =>
      simp only [hp, Poll.owed] at hpoll
      subst hpoll
      cases suffix with
      | nil => simp only [ahead, hp]
      | cons delivery suffix => simp [hp] at hshort
    | draining suffix =>
      simp only [hp, Poll.owed, List.length_eq_zero_iff] at hpoll
      simp only [ahead, hp, hpoll]
    | drained suffix =>
      simp only [hp, Poll.owed] at hpoll
      omega
    | sending left =>
      simp only [hp, Poll.owed, List.length_eq_zero_iff] at hpoll
      simp only [ahead, hp, hpoll, hqueue, List.append_nil]
    | _ => simp only [ahead, hp, hqueue]
  · simp only [hbusy, Poll.owed] at hpoll
    omega
  · exact hbusy hout
  · simp only [hplan, countOf, Option.elim_some] at hpending
    have := hshort.1 halive
    simp [hplan, stale, hpending, hlt] at this
  · simp only [hplan, Poll.owed] at hpoll
    have := hshort.2
    simp [hplan, stale, hpoll, hlt] at this

/-- A step leaves a replay uncounted that was not, only by swapping in a plan that counts
nothing. -/
theorem Moves.short (hm : Moves phase log sub a sub') (h : sub'.short log = true) :
    sub.short log = true ∨ ∃ k plan, a = .swap k ∧
      sub.seeks[k]? = some (.counting plan plan.count) ∧ sub.alive = true ∧
      stale plan log = true := by
  cases hm with
  | seek _ | planned _ _ | refused _ | count _ _ | release _ | wake _ | drop _ => exact Or.inl h
  | @swap k plan hk =>
    simp only [Sub.short, Bool.or_eq_true, Bool.and_eq_true, Option.any_some] at h
    rcases h with ⟨halive, hstale⟩ | h
    · exact Or.inr ⟨k, plan, rfl, hk, halive, hstale⟩
    · left
      simp only [Sub.short, h, Bool.or_true]
  | @take plan halive hpoll hpending =>
    left
    simp only [Sub.short, Option.any_none, Bool.and_false, Bool.false_or] at h
    simp only [Sub.short, halive, hpending, Option.any_some, h, Bool.and_self, Bool.true_or]
  | pass halive hpoll hpending =>
    simp [Sub.short, hpending] at h
  | @reposition plan hpoll =>
    left
    simp only [Sub.short, Bool.or_eq_true] at h ⊢
    rcases h with h | h
    · exact Or.inl h
    · right
      cases hsuffix : suffixFrom log plan.target with
      | nil => simp [hsuffix] at h
      | cons delivery suffix =>
        have hlen : (suffixFrom log plan.target).length = log.length - plan.target :=
          length_suffixFrom
        rw [hsuffix, List.length_cons] at hlen
        have hcount : plan.count = 0 := by
          by_contra hne
          obtain ⟨n, hn⟩ := Nat.exists_eq_succ_of_ne_zero hne
          simp [hn, hsuffix] at h
        simp only [hpoll, stale, hcount, decide_eq_true_eq, true_and]
        omega
  | _ =>
    left
    simp only [Sub.short, Bool.or_eq_true] at h ⊢
    rcases h with h | h
    · exact Or.inl h
    · cases h

theorem short_of_cleared (h : sub.short [] = true) : sub.short log = true := by
  have hnever : ∀ plan, stale plan [] = false := by
    intro plan
    simp only [stale, List.length_nil, Nat.not_lt_zero, and_false, decide_false]
  simp only [short, hnever, Bool.or_eq_true, Bool.and_eq_true] at h ⊢
  rcases h with ⟨-, h⟩ | h
  · obtain ⟨plan, -, hplan⟩ := (Option.any_eq_true _ _).mp h
    cases hplan
  · right
    cases hpoll : sub.poll with
    | counting n suffix =>
      simp only [hpoll] at h
      split at h
      · cases h
      · rfl
      · cases h
    | _ => simp [hpoll] at h

/-- A longer log leaves a replay uncounted only behind a plan that counts nothing. -/
theorem short_of_grown {log' : List Record} (h : sub.short log' = true) :
    sub.short log = true ∨ sub.hollow = true := by
  simp only [short, hollow, Bool.or_eq_true, Bool.and_eq_true] at h ⊢
  rcases h with ⟨halive, h⟩ | h
  · obtain ⟨plan, hplan, hstale⟩ := (Option.any_eq_true _ _).mp h
    simp only [stale, decide_eq_true_eq] at hstale
    refine Or.inr (Or.inl ⟨halive, (Option.any_eq_true _ _).mpr ⟨plan, hplan, ?_⟩⟩)
    simpa using hstale.1
  · cases hpoll : sub.poll with
    | taken plan =>
      simp only [hpoll, stale, decide_eq_true_eq] at h
      refine Or.inr (Or.inr ?_)
      simpa using h.1
    | counting n suffix =>
      simp only [hpoll] at h
      refine Or.inl (Or.inr ?_)
      split at h
      · cases ‹Poll.counting n suffix = .taken _›
      · rfl
      · cases h
    | _ => simp [hpoll] at h

/-- Whether a step makes a `consumed`. -/
def consumes (sub : Sub) : SubAct → Bool
  | .release _ | .consume | .drop _ => true
  | .hand =>
    match sub.poll with
    | .holding delivery => (deliver delivery).toOption.isNone
    | _ => false
  | _ => false

/-- The delivery it is made for, outside a reposition. -/
def consumed? (sub : Sub) : SubAct → Option Delivery
  | .drop k => sub.out[k]?
  | .hand =>
    match sub.poll with
    | .holding delivery => some delivery
    | _ => none
  | _ => none

theorem Moves.contribution (hm : Moves phase log sub a sub') :
    sub.contribution ≤ sub'.contribution ∨
      (sub.consumes a = true ∧ sub'.contribution = sub.contribution - 1) := by
  cases hm with
  | release _ | consume _ | drop _ =>
    refine Or.inr ⟨rfl, ?_⟩
    simp only [Sub.contribution]
    omega
  | refuse hpoll herror =>
    refine Or.inr ⟨?_, ?_⟩
    · simp [consumes, hpoll, herror, Except.toOption]
    · simp only [Sub.contribution]
      omega
  | count _ _ | grow _ _ =>
    left
    simp only [Sub.contribution]
    omega
  | _ => exact Or.inl (Int.le_refl _)

/-- The subscription still has the delivery. -/
def Has (sub : Sub) (delivery : Delivery) : Prop :=
  delivery ∈ sub.queue ∨ sub.poll = .holding delivery ∨ delivery ∈ sub.out

/-- Outside a reposition a delivery stays until it is consumed. -/
theorem Has.moves {delivery : Delivery} (h : sub.Has delivery)
    (hm : Moves phase log sub a sub') (hout : ¬ sub.inside)
    (hkept : sub.consumes a = true → sub.consumed? a ≠ some delivery) : sub'.Has delivery := by
  cases hm with
  | seek _ | planned _ _ | refused _ | count _ _ | swap _ | release _ | wake _ => exact h
  | take _ hpoll _ | pass _ hpoll _ | reposition hpoll | waits hpoll _ =>
    rcases h with h | h | h
    · exact Or.inl h
    · cases hpoll.symm.trans h
    · exact Or.inr (Or.inr h)
  | grow hpoll _ | counted hpoll _ | drain hpoll _ | empty hpoll _ | consume hpoll
  | replay hpoll | unlock hpoll =>
    simp only [inside, hpoll, not_true_eq_false] at hout
  | receive hpoll hqueue =>
    rcases h with h | h | h
    · rw [hqueue] at h
      rcases List.mem_cons.mp h with rfl | h
      · exact Or.inr (Or.inl rfl)
      · exact Or.inl h
    · cases hpoll.symm.trans h
    · exact Or.inr (Or.inr h)
  | refuse hpoll herror =>
    have hconsumes : sub.consumes .hand = true := by
      simp [consumes, hpoll, herror, Except.toOption]
    rcases h with h | h | h
    · exact Or.inl h
    · refine absurd ?_ (hkept hconsumes)
      simp only [consumed?, h]
    · exact Or.inr (Or.inr h)
  | hand hpoll _ =>
    rcases h with h | h | h
    · exact Or.inl h
    · obtain rfl := Poll.holding.inj (hpoll.symm.trans h)
      exact Or.inr (Or.inr (List.mem_append_right _ List.mem_cons_self))
    · exact Or.inr (Or.inr (List.mem_append_left _ h))
  | @drop k dropped hk =>
    rcases h with h | h | h
    · exact Or.inl h
    · exact Or.inr (Or.inl h)
    · obtain ⟨i, hi⟩ := List.mem_iff_getElem?.mp h
      refine Or.inr (Or.inr (List.mem_eraseIdx_iff_getElem?.mpr ⟨i, ?_, hi⟩))
      rintro rfl
      exact hkept rfl hi

theorem Has.owed {delivery : Delivery} (h : sub.Has delivery) : 0 < sub.owed := by
  simp only [Sub.owed]
  rcases h with h | h | h
  · have := List.length_pos_of_mem h
    omega
  · simp only [h, Poll.owed]
    omega
  · have := List.length_pos_of_mem h
    omega

end Sub

namespace Bus

/-- The coordinator's total: each call on it is made for one subscription. -/
def total (b : Bus) : Int := (b.subs.map Sub.contribution).sum

/-- The delivery that is sent to the subscription and not yet counted. -/
def uncountedAt (b : Bus) (s : Nat) : Option Delivery :=
  match b.lock with
  | .append delivery _ (t :: _) true => if t = s then some delivery else none
  | _ => none

/-- The fanout stands between a send and its count. -/
def between (b : Bus) : Bool :=
  match b.lock with
  | .append _ _ (_ :: _) true => true
  | _ => false

/-- A delivery is sent, or a record is to be replayed, that the total does not count. -/
def unseen (b : Bus) : Bool :=
  b.between || b.subs.any fun sub => sub.short (b.records sub.stream)

/-- The steps that leave the total above zero while something is not counted. -/
def awake (b : Bus) : Act → Bool
  | .fan =>
    match b.lock with
    | .append _ stream (s :: _) false =>
      (b.subs[s]?).all fun sub => sub.stream = stream → sub.alive = true → 0 < b.total
    | _ => true
  | .push k _ =>
    match b.appends[k]? with
    | some (.stamped stream _) =>
      0 < b.total ∨ ∀ sub ∈ b.subs, sub.stream = stream → sub.hollow = false
    | _ => true
  | .sub s (.swap k) =>
    (b.subs[s]?).all fun sub : Sub =>
      match sub.seeks[k]? with
      | some (.counting plan _) =>
        0 < b.total ∨ sub.alive = false ∨ Sub.stale plan (b.records sub.stream) = false
      | _ => true
  | .sub s a =>
    (b.subs[s]?).all fun sub => sub.consumes a = true →
      (b.unseen = true → 2 ≤ b.total) ∧
        (b.uncountedAt s).all fun delivery => sub.consumed? a ≠ some delivery
  | _ => true

/-- The total is above zero while it misses something, and what it misses is still there. -/
structure Watched (b : Bus) : Prop where
  awake : b.unseen = true → 0 < b.total
  has : ∀ (s : Nat) (sub : Sub) (delivery : Delivery), b.subs[s]? = some sub →
    b.uncountedAt s = some delivery → sub.Has delivery

/-- What a harness relies on at every instant. -/
structure Accounted (b : Bus) : Prop where
  nonneg : 0 ≤ b.total
  ordered : ∀ (s : Nat) (sub : Sub), b.subs[s]? = some sub → sub.consumed ≤ sub.enqueued
  /-- What is not yet enqueued is not yet consumed. -/
  balanced : ∀ (s : Nat) (sub : Sub) (delivery : Delivery), b.subs[s]? = some sub →
    b.uncountedAt s = some delivery → sub.Has delivery
  quiet : b.total = 0 → ∀ (s : Nat) (sub : Sub), b.subs[s]? = some sub →
    ¬ sub.Busy (b.records sub.stream)

variable {b b' : Bus} {act : Act} {s : Nat} {sub : Sub}

theorem unseen_iff : b.unseen = true ↔ b.between = true ∨
    ∃ (s : Nat) (sub : Sub), b.subs[s]? = some sub ∧
      sub.short (b.records sub.stream) = true := by
  simp only [unseen, Bool.or_eq_true, List.any_eq_true, List.mem_iff_getElem?]
  constructor
  · rintro (h | ⟨sub, ⟨s, hs⟩, h⟩)
    · exact Or.inl h
    · exact Or.inr ⟨s, sub, hs, h⟩
  · rintro (h | ⟨s, sub, hs, h⟩)
    · exact Or.inl h
    · exact Or.inr ⟨sub, ⟨s, hs⟩, h⟩

theorem uncountedAt_free (h : b.lock = .free) : b.uncountedAt s = none := by
  simp only [uncountedAt, h]

/-- Where the total grows, and what is not counted was not counted before, it stays above zero. -/
theorem awake_mono (h : b.unseen = true → 0 < b.total) (htotal : b.total ≤ b'.total)
    (hunseen : b'.unseen = true → b.unseen = true ∨ 0 < b.total) :
    b'.unseen = true → 0 < b'.total := by
  intro hb'
  have : 0 < b.total := (hunseen hb').elim h id
  omega

theorem uncountedAt_some {delivery : Delivery} (h : b.uncountedAt s = some delivery) :
    ∃ stream left sent, b.lock = .append delivery stream left sent := by
  simp only [uncountedAt] at h
  split at h
  · rename_i hlock
    split_ifs at h
    obtain rfl := Option.some.inj h
    exact ⟨_, _, _, hlock⟩
  · cases h

theorem between_after {lock : Lock} {a : SubAct} {t : Nat} {subs : List Sub}
    (h : b.lock.after t a = some lock) : ({ b with subs, lock } : Bus).between = b.between := by
  rcases Lock.after_cases h with ⟨-, rfl⟩ | ⟨-, hfree, rfl⟩ | ⟨-, hpoll, rfl⟩
  · rfl
  · simp only [between, hfree]
  · simp only [between, hpoll]

theorem uncountedAt_after {lock : Lock} {a : SubAct} {t : Nat} {subs : List Sub}
    (h : b.lock.after t a = some lock) :
    ({ b with subs, lock } : Bus).uncountedAt s = b.uncountedAt s := by
  rcases Lock.after_cases h with ⟨-, rfl⟩ | ⟨-, hfree, rfl⟩ | ⟨-, hpoll, rfl⟩
  · rfl
  · simp only [uncountedAt, hfree]
  · simp only [uncountedAt, hpoll]

theorem Watched.after {a : SubAct} {old new : Sub} {lock : Lock} (h : b.Watched)
    (hfollows : b.Follows s old) (hs : b.subs[s]? = some old)
    (hlock : b.lock.after s a = some lock)
    (hm : old.Moves b.phase (b.records old.stream) a new) (hok : b.awake (.sub s a) = true) :
    ({ b with subs := b.subs.set s new, lock } : Bus).Watched := by
  have htotal : ({ b with subs := b.subs.set s new, lock } : Bus).total + old.contribution =
      b.total + new.contribution := sum_set (f := Sub.contribution) hs
  have hwakes : old.consumes a = true → (b.unseen = true → 2 ≤ b.total) ∧
      (b.uncountedAt s).all (fun delivery => old.consumed? a ≠ some delivery) = true := by
    intro hconsumes
    cases a with
    | swap _ => cases hconsumes
    | _ =>
      simp only [Bus.awake, hs, Option.all_some, decide_eq_true_eq] at hok
      exact hok hconsumes
  have hunseen : ({ b with subs := b.subs.set s new, lock } : Bus).unseen = true →
      b.unseen = true ∨ ∃ k plan, a = .swap k ∧
        old.seeks[k]? = some (.counting plan plan.count) ∧ old.alive = true ∧
        Sub.stale plan (b.records old.stream) = true := by
    rw [unseen_iff, unseen_iff, between_after hlock]
    rintro (hbetween | ⟨t, sub, ht, hshort⟩)
    · exact Or.inl (Or.inl hbetween)
    · rcases get_set ht with ⟨rfl, rfl⟩ | ⟨-, ht⟩
      · rw [hm.stream] at hshort
        rcases hm.short hshort with hold | hswap
        · exact Or.inl (Or.inr ⟨t, old, hs, hold⟩)
        · exact Or.inr hswap
      · exact Or.inl (Or.inr ⟨t, sub, ht, hshort⟩)
  constructor
  · rcases hm.contribution with hle | ⟨hconsumes, hone⟩
    · refine awake_mono h.awake (by omega) fun hb' => ?_
      rcases hunseen hb' with hb | ⟨k, plan, rfl, hk, halive, hstale⟩
      · exact Or.inl hb
      · simp only [Bus.awake, hs, Option.all_some, hk, decide_eq_true_eq, halive, hstale,
          Bool.true_eq_false, or_false] at hok
        exact Or.inr hok
    · intro hb'
      have hb : b.unseen = true := by
        rcases hunseen hb' with hb | ⟨k, plan, rfl, -⟩
        · exact hb
        · cases hconsumes
      have := (hwakes hconsumes).1 hb
      omega
  · intro t sub delivery ht hat
    rw [uncountedAt_after hlock] at hat
    rcases get_set ht with ⟨rfl, rfl⟩ | ⟨-, ht⟩
    · refine (h.has t old delivery hs hat).moves hm ?_ ?_
      · obtain ⟨_, _, _, hlocked⟩ := uncountedAt_some hat
        exact hfollows.outside hlocked
      · intro hconsumes heq
        have := (hwakes hconsumes).2
        simp only [hat, Option.all_some, decide_eq_true_eq] at this
        exact this heq
    · exact h.has t sub delivery ht hat

/-- A step on no subscription and no log, after which nothing new is between a send and its
count. -/
theorem Watched.keep (h : b.Watched) (hsubs : b'.subs = b.subs) (hrecords : b'.records = b.records)
    (hlock : b'.lock = b.lock ∨ (b'.between = false ∧ ∀ s, b'.uncountedAt s = none)) :
    b'.Watched := by
  constructor
  · apply awake_mono h.awake
    · simp only [total, hsubs, Int.le_refl]
    · intro hb'
      left
      rw [unseen_iff] at hb' ⊢
      rw [hsubs, hrecords] at hb'
      refine hb'.imp_left fun hbetween => ?_
      rcases hlock with hlock | ⟨hnone, -⟩
      · simpa only [between, hlock] using hbetween
      · cases hnone.symm.trans hbetween
  · intro s sub delivery hs hat
    rw [hsubs] at hs
    rcases hlock with hlock | ⟨-, hnone⟩
    · refine h.has s sub delivery hs ?_
      simpa only [uncountedAt, hlock] using hat
    · cases (hnone s).symm.trans hat

theorem watched_step (hfollows : ∀ s sub, b.subs[s]? = some sub → b.Follows s sub)
    (h : b.Watched) (hok : b.awake act = true) (hm : Moves b act b') : b'.Watched := by
  cases hm with
  | tick _ | subscribe _ _ | append _ _ _ _ | stamp _ | shut => exact h.keep rfl rfl (Or.inl rfl)
  | skip _ _ _ | finish _ =>
    refine h.keep rfl rfl (Or.inr ⟨?_, fun _ => ?_⟩)
    · simp only [between]
    · simp only [uncountedAt]
  | @register k stream _ hfree =>
    constructor
    · apply awake_mono h.awake
      · simp [total, Sub.contribution]
      · intro hb'
        left
        rw [unseen_iff] at hb' ⊢
        refine hb'.imp_right ?_
        rintro ⟨s, sub, hs, hshort⟩
        rcases get_push hs with hs | ⟨-, rfl⟩
        · exact ⟨s, sub, hs, hshort⟩
        · cases hshort
    · intro s sub delivery _ hat
      cases (uncountedAt_free hfree).symm.trans hat
  | @push k order stream record hk hfree _ =>
    constructor
    · apply awake_mono h.awake
      · exact Int.le_refl _
      · intro hb'
        rw [unseen_iff] at hb' ⊢
        rcases hb' with hbetween | ⟨s, sub, hs, hshort⟩
        · cases order <;> cases hbetween
        · by_cases hstream : sub.stream = stream
          · have hgrown : sub.short (b.records sub.stream) = true ∨ sub.hollow = true :=
              Sub.short_of_grown hshort
            rcases hgrown with hshort | hhollow
            · exact Or.inl (Or.inr ⟨s, sub, hs, hshort⟩)
            · right
              simp only [Bus.awake, hk, decide_eq_true_eq] at hok
              rcases hok with hpos | hnone
              · exact hpos
              · have := hnone sub (List.mem_of_getElem? hs) hstream
                cases this.symm.trans hhollow
          · simp only [Function.update_of_ne hstream] at hshort
            exact Or.inl (Or.inr ⟨s, sub, hs, hshort⟩)
    · intro s sub delivery _ hat
      cases order <;> cases hat
  | @send delivery t left old hlock ht halive =>
    have hpos : 0 < b.total := by
      simpa only [Bus.awake, hlock, ht, Option.all_some, decide_eq_true_eq, halive,
        forall_const] using hok
    have htotal : ({ b with
        subs := b.subs.set t { old with queue := old.queue ++ [delivery] }
        lock := .append delivery old.stream (t :: left) true } : Bus).total + old.contribution =
          b.total + old.contribution := sum_set (f := Sub.contribution) ht
    constructor
    · intro _
      omega
    · intro s sub sent hs hat
      simp only [uncountedAt] at hat
      split_ifs at hat with hts
      obtain rfl := Option.some.inj hat
      subst hts
      obtain rfl := Option.some.inj ((get_set_self ht).symm.trans hs)
      exact Or.inl (List.mem_append_right _ List.mem_cons_self)
  | @count delivery stream t left old hlock ht =>
    have htotal : ({ b with
        subs := b.subs.set t { old with enqueued := old.enqueued + 1 }
        lock := .append delivery stream left false } : Bus).total + old.contribution =
          b.total + ({ old with enqueued := old.enqueued + 1 } : Sub).contribution :=
      sum_set (f := Sub.contribution) ht
    constructor
    · apply awake_mono h.awake
      · simp only [Sub.contribution] at htotal
        omega
      · intro _
        left
        simp only [unseen, between, hlock, Bool.true_or]
    · intro s sub sent _ hat
      cases left <;> cases hat
  | sub ht hlock hmoves => exact h.after (hfollows _ _ ht) ht hlock hmoves hok
  | @part t old ht hfree _ hidle =>
    have htotal : ({ b with
        registry := b.registry.erase t
        subs := b.subs.set t { old with alive := false, queue := [] } } : Bus).total +
          old.contribution = b.total + old.contribution := sum_set (f := Sub.contribution) ht
    constructor
    · apply awake_mono h.awake (by omega)
      intro hb'
      left
      rw [unseen_iff] at hb' ⊢
      refine hb'.imp_right ?_
      rintro ⟨s, sub, hs, hshort⟩
      rcases get_set hs with ⟨rfl, rfl⟩ | ⟨-, hs⟩
      · simp [Sub.short, hidle] at hshort
      · exact ⟨s, sub, hs, hshort⟩
    · intro s sub delivery _ hat
      simp only [uncountedAt, hfree] at hat
      cases hat
  | clear hfree _ =>
    constructor
    · apply awake_mono h.awake
      · exact Int.le_refl _
      · intro hb'
        left
        rw [unseen_iff] at hb' ⊢
        refine hb'.imp_right ?_
        rintro ⟨s, sub, hs, hshort⟩
        exact ⟨s, sub, hs, Sub.short_of_cleared hshort⟩
    · exact h.has

theorem uncounted_pos (h : 0 < b.uncounted s) :
    b.uncounted s = 1 ∧ b.between = true ∧ ∃ delivery, b.uncountedAt s = some delivery := by
  simp only [uncounted] at h ⊢
  split at h
  · rename_i hlock
    split_ifs at h with hts
    · simp only [between, uncountedAt, hlock, if_pos hts, true_and]
      exact ⟨_, rfl⟩
    · cases h
  · cases h

theorem Watched.contribution (h : b.Watched) (hledger : b.Ledger) (hs : b.subs[s]? = some sub) :
    0 ≤ sub.contribution ∧ (b.uncounted s = 0 → (sub.owed : Int) ≤ sub.contribution) := by
  have hcovered := (hledger s sub hs).covered
  simp only [Sub.surplus] at hcovered
  refine ⟨?_, by omega⟩
  rcases Nat.eq_zero_or_pos (b.uncounted s) with hnone | hsome
  · omega
  · obtain ⟨hone, -, delivery, hat⟩ := uncounted_pos hsome
    have := (h.has s sub delivery hs hat).owed
    omega

theorem Watched.accounted (h : b.Watched) (hledger : b.Ledger) : b.Accounted := by
  have hcontributes : ∀ c ∈ b.subs.map Sub.contribution, (0 : Int) ≤ c := by
    intro c hc
    obtain ⟨sub, hmem, rfl⟩ := List.mem_map.mp hc
    obtain ⟨s, hs⟩ := List.mem_iff_getElem?.mp hmem
    exact (h.contribution hledger hs).1
  refine ⟨List.sum_nonneg hcontributes, ?_, h.has, ?_⟩
  · intro s sub hs
    have := (h.contribution hledger hs).1
    simp only [Sub.contribution] at this
    omega
  · intro hzero s sub hs
    have hseen : b.unseen ≠ true := by
      intro hunseen
      have := h.awake hunseen
      omega
    rw [Ne, unseen_iff, not_or] at hseen
    obtain ⟨hbetween, hshort⟩ := hseen
    have hcounted : b.uncounted s = 0 := by
      by_contra hne
      exact hbetween (uncounted_pos (Nat.pos_of_ne_zero hne)).2.1
    have hnone : sub.contribution = 0 :=
      List.all_zero_of_le_zero_le_of_sum_eq_zero hcontributes hzero
        (List.mem_map_of_mem (List.mem_of_getElem? hs))
    have howed := (h.contribution hledger hs).2 hcounted
    refine Sub.not_busy (by omega) ?_
    rw [← Bool.not_eq_true]
    intro hbusy
    exact hshort ⟨s, sub, hs, hbusy⟩

theorem watched_fresh (h : Fresh b) : b.Watched := by
  constructor
  · intro hunseen
    simp [unseen, between, h.lock, h.subs] at hunseen
  · intro s sub delivery hs _
    rw [h.subs] at hs
    cases hs

end Bus

/-- In a run in which what is not yet counted is never all there is, the total is never negative,
no delivery is consumed before it is enqueued, and at a total of zero nothing is under way. -/
theorem quiescence_never_early {start b : Bus} (hfresh : Fresh start)
    (hrun : Run Bus.step (fun b act => b.awake act = true) start b) : b.Accounted := by
  have hinv := hrun.invariant
    (I := fun b => b.Watched ∧ b.Ledger ∧ b.Enrolled ∧
      ∀ s sub, b.subs[s]? = some sub → b.Follows s sub)
    (fun b act b' ⟨hwatched, hledger, henrolled, hfollows⟩ hok hstep =>
      have hm := Bus.step_moves hstep
      ⟨Bus.watched_step hfollows hwatched hok hm, hledger.moves hm, henrolled.moves hm,
        Bus.follows_step hledger henrolled hfollows hm⟩)
    ⟨Bus.watched_fresh hfresh, Bus.ledger_fresh hfresh, Bus.enrolled_fresh hfresh,
      Bus.follows_fresh hfresh⟩
  exact hinv.1.accounted hinv.2.1

/-- A record is fanned out and received while the replay of the first one is pending. -/
theorem quiescence_never_early_seek : ∃ b : Bus, b.total = 2 ∧ b.Accounted := by
  obtain ⟨b, hcheck, hsubs⟩ : ∃ b, check Bus.step Bus.awake {}
      [.append "s" "k" [7], .stamp 0, .push 0 [], .fan, .subscribe "s", .register 0,
        .sub 0 (.seek .horizon), .sub 0 (.plan 0), .sub 0 (.count 0), .sub 0 (.swap 0),
        .append "s" "k" [8], .stamp 0, .push 0 [0], .fan, .fan, .fan] = some b ∧
      b.subs = [{
        stream := "s"
        queue := [⟨⟨"k", [8], 0⟩, 1⟩]
        pending := some ⟨0, 1⟩
        seeks := [.releasing 0]
        enqueued := 2
        events := [.subscribed 1] }] :=
    ⟨_, rfl, rfl⟩
  refine ⟨b, ?_, quiescence_never_early ⟨rfl, rfl, rfl, rfl⟩ (Run.of_check hcheck)⟩
  simp only [Bus.total, hsubs]
  rfl

/-- A delivery that is received and dropped before the fanout counts it. -/
theorem consumed_before_enqueued : ¬ ∀ b : Bus, Reached b → b.Accounted := by
  intro h
  obtain ⟨b, hexec, hsubs⟩ : ∃ b, exec Bus.step {}
      [.subscribe "s", .register 0, .append "s" "k" [7], .stamp 0, .push 0 [0], .fan,
        .sub 0 .take, .sub 0 .receive, .sub 0 .hand, .sub 0 (.drop 0)] = some b ∧
      b.subs = [{
        stream := "s"
        consumed := 1
        events := [.took ⟨⟨"k", [7], 0⟩, 0⟩, .subscribed 0] }] :=
    ⟨_, rfl, rfl⟩
  have haccounted := h b ⟨{}, ⟨rfl, rfl, rfl, rfl⟩, Run.of_exec (fun _ _ => trivial) hexec⟩
  have hsub := congrArg (fun subs => subs[0]?) hsubs
  have := haccounted.ordered 0 _ hsub
  cases this

end RuststreamKinesis.InProcess
