import RuststreamKinesis.InProcess.Steps

/-!
# What a subscription owes the harness

A delivery counted for a subscription is queued, handed out, promised by a plan, or in the hands
of a seek or a poll on its way from one of these to another. `owed` adds them up, and every step
keeps the difference between what is counted and what is owed.
-/

namespace RuststreamKinesis.InProcess

set_option autoImplicit false

open Cells Runs

def Seek.owed : Seek → Nat
  | .opened _ => 0
  | .counting _ counted => counted
  | .releasing left => left

def Poll.owed : Poll → Nat
  | .idle => 0
  | .taken plan => plan.count
  | .counting counted _ => counted
  | .draining suffix => suffix.length
  | .drained suffix => suffix.length + 1
  | .sending left => left.length
  | .receiving => 0
  | .holding _ => 1

namespace Sub

def owed (sub : Sub) : Nat :=
  sub.queue.length + countOf sub.pending + sub.poll.owed + (sub.seeks.map Seek.owed).sum +
    sub.out.length

/-- What the subscription contributes to the coordinator's total. -/
def contribution (sub : Sub) : Int := sub.enqueued - sub.consumed

/-- The part of it that plans promise. -/
def promised (sub : Sub) : Nat := countOf sub.pending + (sub.seeks.map Seek.owed).sum

/-- What is counted beyond what is owed. -/
def surplus (sub : Sub) : Int := sub.contribution - sub.owed

/-- What a step leaves counted for nothing: the part of a plan's count beyond the suffix. -/
def excess (sub : Sub) : SubAct → Nat
  | .drain =>
    match sub.poll with
    | .counting counted suffix => counted - suffix.length
    | _ => 0
  | _ => 0

variable {sub sub' : Sub} {phase : Phase} {log : List Record} {a : SubAct}

/-- Only the count of a new plan adds to what is promised. -/
theorem Moves.promised_le (h : Moves phase log sub a sub') (ha : ∀ k, a ≠ .count k) :
    sub'.promised ≤ sub.promised := by
  cases h with
  | seek position => simp [Sub.promised, Seek.owed]
  | @planned k position plan hk _ =>
    have hsum := sum_set (f := Seek.owed) (v := .counting plan 0) hk
    simp only [Seek.owed] at hsum
    simp only [Sub.promised]
    omega
  | refused hk =>
    have hsum := sum_eraseIdx (f := Seek.owed) hk
    simp only [Sub.promised]
    omega
  | @count k plan counted hk _ => exact absurd rfl (ha k)
  | swap hk =>
    have hsum := sum_set (f := Seek.owed) (v := .releasing (countOf sub.pending)) hk
    simp only [Seek.owed] at hsum
    simp only [Sub.promised, countOf, Option.elim_some] at hsum ⊢
    omega
  | @release k left hk =>
    have hsum := sum_set (f := Seek.owed) (v := .releasing left) hk
    simp only [Seek.owed] at hsum
    simp only [Sub.promised]
    omega
  | wake hk =>
    have hsum := sum_eraseIdx (f := Seek.owed) hk
    simp only [Sub.promised]
    omega
  | take _ _ hpending =>
    simp only [Sub.promised, hpending, countOf, Option.elim_some, Option.elim_none]
    omega
  | _ => exact Nat.le_refl _

/-- A step keeps the surplus, up to its excess. -/
theorem Moves.surplus (h : Moves phase log sub a sub') :
    sub'.surplus = sub.surplus + sub.excess a := by
  cases h with
  | seek position => simp [Sub.surplus, contribution, owed, excess, Seek.owed]
  | @planned k position plan hk _ =>
    have hsum := sum_set (f := Seek.owed) (v := .counting plan 0) hk
    simp only [Seek.owed] at hsum
    simp only [Sub.surplus, contribution, owed, excess]
    omega
  | refused hk =>
    have hsum := sum_eraseIdx (f := Seek.owed) hk
    simp only [Seek.owed] at hsum
    simp only [Sub.surplus, contribution, owed, excess]
    omega
  | @count k plan counted hk _ =>
    have hsum := sum_set (f := Seek.owed) (v := .counting plan (counted + 1)) hk
    simp only [Seek.owed] at hsum
    simp only [Sub.surplus, contribution, owed, excess]
    omega
  | swap hk =>
    have hsum := sum_set (f := Seek.owed) (v := .releasing (countOf sub.pending)) hk
    simp only [Seek.owed] at hsum
    simp only [Sub.surplus, contribution, owed, excess, countOf, Option.elim_some] at hsum ⊢
    omega
  | @release k left hk =>
    have hsum := sum_set (f := Seek.owed) (v := .releasing left) hk
    simp only [Seek.owed] at hsum
    simp only [Sub.surplus, contribution, owed, excess]
    omega
  | wake hk =>
    have hsum := sum_eraseIdx (f := Seek.owed) hk
    simp only [Seek.owed] at hsum
    simp only [Sub.surplus, contribution, owed, excess]
    omega
  | take _ hpoll hpending =>
    simp only [Sub.surplus, contribution, owed, excess, hpoll, hpending, countOf, Poll.owed,
      Option.elim_some, Option.elim_none]
    omega
  | drop hk =>
    have hlt := get_lt hk
    simp only [Sub.surplus, contribution, owed, excess, List.length_eraseIdx, if_pos hlt]
    omega
  | drain hpoll hqueue =>
    simp only [Sub.surplus, contribution, owed, excess, hpoll, hqueue, Poll.owed, List.length_cons]
    omega
  | receive hpoll hqueue =>
    simp only [Sub.surplus, contribution, owed, excess, hpoll, hqueue, Poll.owed, List.length_cons]
    omega
  | _ =>
    simp only [Sub.surplus, contribution, owed, excess, *, Poll.owed, List.length_append,
      List.length_cons, List.length_nil]
    omega

end Sub

namespace Sub

/-- A plan that some part of the subscription holds and has counted, or is about to. -/
def Promised (sub : Sub) (plan : Plan) : Prop :=
  sub.pending = some plan ∨ sub.poll = .taken plan ∨ ∃ n, .counting plan n ∈ sub.seeks

/-- Every plan lies in the log, and no more of a suffix is counted than there is. -/
structure Fits (log : List Record) (sub : Sub) : Prop where
  plans : ∀ plan, sub.Promised plan → plan.target + plan.count ≤ log.length
  counted : ∀ n suffix, sub.poll = .counting n suffix → n ≤ suffix.length

variable {sub sub' : Sub} {phase : Phase} {log : List Record} {a : SubAct}

theorem Fits.mono {log' : List Record} (h : sub.Fits log) (hle : log.length ≤ log'.length) :
    sub.Fits log' := by
  constructor
  · intro plan hplan
    have := h.plans plan hplan
    omega
  · exact h.counted

theorem Fits.moves (h : sub.Fits log) (hm : Moves phase log sub a sub') : sub'.Fits log := by
  have hset : ∀ {k : Nat} {x : Seek} {plan : Plan} {n : Nat},
      .counting plan n ∈ sub.seeks.set k x →
      x = .counting plan n ∨ .counting plan n ∈ sub.seeks := by
    intro k x plan n hmem
    exact (mem_set hmem).imp Eq.symm id
  cases hm with
  | seek position =>
    refine ⟨?_, h.counted⟩
    rintro plan (hp | hp | ⟨n, hp⟩)
    · exact h.plans plan (Or.inl hp)
    · exact h.plans plan (Or.inr (Or.inl hp))
    · rcases List.mem_append.mp hp with hp | hp
      · exact h.plans plan (Or.inr (Or.inr ⟨n, hp⟩))
      · simp at hp
  | @planned k position new hk hplan =>
    refine ⟨?_, h.counted⟩
    rintro plan (hp | hp | ⟨n, hp⟩)
    · exact h.plans plan (Or.inl hp)
    · exact h.plans plan (Or.inr (Or.inl hp))
    · rcases hset hp with hnew | hp
      · obtain ⟨rfl, -⟩ := Seek.counting.inj hnew
        exact (planOver_covers hplan).le
      · exact h.plans plan (Or.inr (Or.inr ⟨n, hp⟩))
  | refused _ | wake _ =>
    refine ⟨?_, h.counted⟩
    rintro plan (hp | hp | ⟨n, hp⟩)
    · exact h.plans plan (Or.inl hp)
    · exact h.plans plan (Or.inr (Or.inl hp))
    · exact h.plans plan (Or.inr (Or.inr ⟨n, List.mem_of_mem_eraseIdx hp⟩))
  | count hk hlt =>
    refine ⟨?_, h.counted⟩
    rintro plan (hp | hp | ⟨n, hp⟩)
    · exact h.plans plan (Or.inl hp)
    · exact h.plans plan (Or.inr (Or.inl hp))
    · rcases hset hp with hnew | hp
      · obtain ⟨rfl, -⟩ := Seek.counting.inj hnew
        exact h.plans _ (Or.inr (Or.inr ⟨_, List.mem_of_getElem? hk⟩))
      · exact h.plans plan (Or.inr (Or.inr ⟨n, hp⟩))
  | swap hk =>
    refine ⟨?_, h.counted⟩
    rintro plan (hp | hp | ⟨n, hp⟩)
    · obtain rfl := Option.some.inj hp
      exact h.plans _ (Or.inr (Or.inr ⟨_, List.mem_of_getElem? hk⟩))
    · exact h.plans plan (Or.inr (Or.inl hp))
    · rcases hset hp with hnew | hp
      · cases hnew
      · exact h.plans plan (Or.inr (Or.inr ⟨n, hp⟩))
  | release hk =>
    refine ⟨?_, h.counted⟩
    rintro plan (hp | hp | ⟨n, hp⟩)
    · exact h.plans plan (Or.inl hp)
    · exact h.plans plan (Or.inr (Or.inl hp))
    · rcases hset hp with hnew | hp
      · cases hnew
      · exact h.plans plan (Or.inr (Or.inr ⟨n, hp⟩))
  | take _ _ hpending =>
    refine ⟨?_, nofun⟩
    rintro plan (hp | hp | ⟨n, hp⟩)
    · cases hp
    · obtain rfl := Poll.taken.inj hp
      exact h.plans _ (Or.inl hpending)
    · exact h.plans plan (Or.inr (Or.inr ⟨n, hp⟩))
  | @reposition taken hpoll =>
    have htaken := h.plans taken (Or.inr (Or.inl hpoll))
    constructor
    · rintro plan (hp | hp | ⟨n, hp⟩)
      · exact h.plans plan (Or.inl hp)
      · cases hp
      · exact h.plans plan (Or.inr (Or.inr ⟨n, hp⟩))
    · intro n suffix hp
      obtain ⟨rfl, rfl⟩ := Poll.counting.inj hp
      rw [length_suffixFrom]
      omega
  | grow hpoll hlt =>
    constructor
    · rintro plan (hp | hp | ⟨n, hp⟩)
      · exact h.plans plan (Or.inl hp)
      · cases hp
      · exact h.plans plan (Or.inr (Or.inr ⟨n, hp⟩))
    · intro n suffix hp
      obtain ⟨rfl, rfl⟩ := Poll.counting.inj hp
      omega
  | drop hk => exact ⟨h.plans, h.counted⟩
  | _ =>
    refine ⟨?_, nofun⟩
    rintro plan (hp | hp | ⟨n, hp⟩)
    · exact h.plans plan (Or.inl hp)
    · cases hp
    · exact h.plans plan (Or.inr (Or.inr ⟨n, hp⟩))

theorem excess_eq_zero (h : ∀ n suffix, sub.poll = .counting n suffix → n ≤ suffix.length)
    (a : SubAct) : sub.excess a = 0 := by
  unfold Sub.excess
  split
  · split
    · rename_i counted suffix hpoll
      have := h counted suffix hpoll
      omega
    · rfl
  · rfl

theorem surplus_send (delivery : Delivery) :
    ({ sub with queue := sub.queue ++ [delivery] } : Sub).surplus = sub.surplus - 1 := by
  simp only [Sub.surplus, contribution, owed, List.length_append, List.length_cons,
    List.length_nil]
  omega

theorem surplus_count :
    ({ sub with enqueued := sub.enqueued + 1 } : Sub).surplus = sub.surplus + 1 := by
  simp only [Sub.surplus, contribution, owed]
  omega

theorem surplus_fresh {stream : String} {events : List Event} :
    ({ stream, events } : Sub).surplus = 0 := rfl

theorem fits_fresh {stream : String} {events : List Event} :
    ({ stream, events } : Sub).Fits log := by
  refine ⟨?_, nofun⟩
  rintro plan (hp | hp | ⟨n, hp⟩)
  · cases hp
  · cases hp
  · cases hp

end Sub

namespace Bus

/-- One while the fanout has sent the subscription a delivery that it has not counted. -/
def uncounted (b : Bus) (s : Nat) : Nat :=
  match b.lock with
  | .append _ _ (t :: _) true => if t = s then 1 else 0
  | _ => 0

/-- A subscription is counted for what it owes, and while the log stands for no more. -/
structure Booked (b : Bus) (s : Nat) (sub : Sub) : Prop where
  fits : b.phase ≠ .closed → sub.Fits (b.records sub.stream)
  covered : 0 ≤ sub.surplus + b.uncounted s
  exact : b.phase ≠ .closed → sub.alive = true → sub.surplus + b.uncounted s = 0

def Ledger (b : Bus) : Prop := ∀ s sub, b.subs[s]? = some sub → b.Booked s sub

variable {b b' : Bus} {act : Act} {s : Nat} {sub : Sub}

theorem uncounted_free (h : b.lock = .free) : b.uncounted s = 0 := by
  simp only [uncounted, h]

/-- A step on a subscription leaves the fanout where it is. -/
theorem uncounted_after {lock : Lock} {a : SubAct} {t : Nat} {subs : List Sub}
    (h : b.lock.after t a = some lock) :
    ({ b with subs, lock } : Bus).uncounted s = b.uncounted s := by
  rcases Lock.after_cases h with ⟨-, rfl⟩ | ⟨-, hfree, rfl⟩ | ⟨-, hpoll, rfl⟩
  · rfl
  · simp only [uncounted, hfree]
  · simp only [uncounted, hpoll]

/-- What a subscription is booked for depends on the lock, the phase and its log alone. -/
theorem Booked.congr (h : b.Booked s sub) (hu : b'.uncounted s = b.uncounted s)
    (hphase : b'.phase ≠ .closed → b.phase ≠ .closed)
    (hlog : b'.phase ≠ .closed → (b.records sub.stream).length ≤ (b'.records sub.stream).length) :
    b'.Booked s sub := by
  constructor
  · intro hopen
    exact (h.fits (hphase hopen)).mono (hlog hopen)
  · rw [hu]
    exact h.covered
  · intro hopen
    rw [hu]
    exact h.exact (hphase hopen)

theorem Booked.keep (h : b.Booked s sub) (hu : b'.uncounted s = b.uncounted s)
    (hphase : b'.phase = b.phase) (hrecords : b'.records = b.records) : b'.Booked s sub := by
  apply h.congr hu
  · rw [hphase]
    exact id
  · intro _
    rw [hrecords]

/-- A step of the fanout on the subscription: what it sends is uncounted until it is counted. -/
theorem Booked.fanned (h : b.Booked s sub) {lock : Lock} {subs : List Sub} {queue : List Delivery}
    {enqueued : Nat}
    (hsum : ({ sub with queue, enqueued } : Sub).surplus +
        ({ b with subs, lock } : Bus).uncounted s = sub.surplus + b.uncounted s) :
    ({ b with subs, lock } : Bus).Booked s { sub with queue, enqueued } := by
  refine ⟨?_, ?_, ?_⟩
  · intro hopen
    exact ⟨(h.fits hopen).plans, (h.fits hopen).counted⟩
  · rw [hsum]
    exact h.covered
  · intro hopen halive
    rw [hsum]
    exact h.exact hopen halive

theorem Ledger.moves (h : b.Ledger) (hm : Moves b act b') : b'.Ledger := by
  intro s sub hs
  cases hm with
  | tick millis => exact (h s sub hs).keep rfl rfl rfl
  | subscribe stream _ => exact (h s sub hs).keep rfl rfl rfl
  | append stream partitionKey data _ => exact (h s sub hs).keep rfl rfl rfl
  | stamp _ => exact (h s sub hs).keep rfl rfl rfl
  | register _ hfree =>
    rcases get_push hs with hs | ⟨-, rfl⟩
    · exact (h s sub hs).keep rfl rfl rfl
    · refine ⟨fun _ => Sub.fits_fresh, ?_, ?_⟩
      · exact Int.natCast_nonneg _
      · intro _ _
        simp only [Sub.surplus_fresh, uncounted, hfree]
        rfl
  | push hk hfree horder =>
    refine (h s sub hs).congr ?_ id ?_
    · simp only [uncounted, hfree]
    · intro _
      simp only [Function.update_apply]
      split_ifs with hstream
      · rw [hstream, List.length_append]
        omega
      · exact Nat.le_refl _
  | @send delivery t left old hlock ht halive =>
    have hu : ∀ s, b.uncounted s = 0 := by
      intro s
      simp only [uncounted, hlock]
    rcases get_set hs with ⟨rfl, rfl⟩ | ⟨hne, hs⟩
    · apply (h s old ht).fanned
      rw [hu, Sub.surplus_send]
      simp only [uncounted, if_true]
      omega
    · refine (h s sub hs).keep ?_ rfl rfl
      rw [hu]
      simp only [uncounted, if_neg (Ne.symm hne)]
  | skip hlock _ _ =>
    refine (h s sub hs).keep ?_ rfl rfl
    simp only [uncounted, hlock]
  | @count delivery stream t left old hlock ht =>
    rcases get_set hs with ⟨rfl, rfl⟩ | ⟨hne, hs⟩
    · apply (h s old ht).fanned
      have hu : b.uncounted s = 1 := by
        simp only [uncounted, hlock, if_true]
      rw [hu, Sub.surplus_count]
      simp only [uncounted]
      omega
    · refine (h s sub hs).keep ?_ rfl rfl
      simp only [uncounted, hlock, if_neg (Ne.symm hne)]
  | finish hlock =>
    refine (h s sub hs).keep ?_ rfl rfl
    simp only [uncounted, hlock]
  | @sub t a old new lock ht hlock hmoves =>
    have hu : ({ b with subs := b.subs.set t new, lock } : Bus).uncounted s = b.uncounted s :=
      uncounted_after hlock
    rcases get_set hs with ⟨rfl, rfl⟩ | ⟨hne, hs⟩
    · have hbooked := h s old ht
      have hsurplus := hmoves.surplus
      refine ⟨?_, ?_, ?_⟩
      · intro hopen
        rw [show sub.stream = old.stream from hmoves.stream]
        exact (hbooked.fits hopen).moves hmoves
      · have := hbooked.covered
        rw [hu]
        omega
      · intro hopen halive
        have := hbooked.exact hopen (hmoves.alive ▸ halive)
        have hexcess := Sub.excess_eq_zero (hbooked.fits hopen).counted a
        rw [hu]
        omega
    · exact (h s sub hs).keep hu rfl rfl
  | @part t old ht hfree halive hidle =>
    rcases get_set hs with ⟨rfl, rfl⟩ | ⟨hne, hs⟩
    · have hbooked := h s old ht
      refine ⟨?_, ?_, nofun⟩
      · intro hopen
        exact ⟨(hbooked.fits hopen).plans, (hbooked.fits hopen).counted⟩
      · have := hbooked.covered
        simp only [uncounted, hfree, Sub.surplus, Sub.contribution, Sub.owed,
          List.length_nil] at this ⊢
        omega
    · exact (h s sub hs).keep rfl rfl rfl
  | shut =>
    refine (h s sub hs).congr rfl ?_ fun _ => Nat.le_refl _
    intro hopen hclosed
    apply hopen
    simp only [hclosed]
    rfl
  | clear hfree hphase =>
    refine ⟨fun hopen => absurd rfl hopen, ?_, fun hopen => absurd rfl hopen⟩
    exact (h s sub hs).covered

theorem ledger_fresh (h : Fresh b) : b.Ledger := by
  intro s sub hs
  rw [h.subs] at hs
  cases hs

theorem ledger_run {start : Bus} {ok : Bus → Act → Prop} (hrun : Run step ok start b)
    (h : start.Ledger) : b.Ledger :=
  hrun.invariant (fun _ _ _ hledger _ hstep => hledger.moves (step_moves hstep)) h

theorem ledger_reached (h : Reached b) : b.Ledger := by
  obtain ⟨start, hfresh, hrun⟩ := h
  exact ledger_run hrun (ledger_fresh hfresh)

end Bus

/-- At rest a subscription contributes what it has queued, what it handed out and has not got
back, and the count of the plan pending on it. -/
theorem in_flight_exact {b : Bus} (hreached : Reached b) (hrest : AtRest b)
    (hopen : b.phase = .opened) {s : Nat} {sub : Sub} (hsub : b.subs[s]? = some sub)
    (halive : sub.alive = true) :
    (sub.enqueued : Int) - sub.consumed =
      sub.queue.length + sub.out.length + countOf sub.pending := by
  have hnot : b.phase ≠ .closed := by
    rw [hopen]
    nofun
  have hexact := (Bus.ledger_reached hreached s sub hsub).exact hnot halive
  rw [Bus.uncounted_free hrest.lock] at hexact
  simp only [Sub.surplus, Sub.contribution, Sub.owed, hrest.seeks s sub hsub,
    hrest.polls s sub hsub, Poll.owed, List.map_nil, List.sum_nil] at hexact
  omega

/-- A record is queued and a reposition to the horizon is pending. -/
theorem in_flight_exact_two : ∃ (b : Bus) (sub : Sub), b.subs[0]? = some sub ∧
    sub.queue.length = 1 ∧ countOf sub.pending = 1 ∧
    (sub.enqueued : Int) - sub.consumed =
      sub.queue.length + sub.out.length + countOf sub.pending := by
  obtain ⟨b, hexec, hsubs, happends, hlock, hphase⟩ : ∃ b, exec Bus.step {}
      [.subscribe "s", .register 0, .append "s" "k" [7], .stamp 0, .push 0 [0], .fan, .fan, .fan,
        .sub 0 (.seek .horizon), .sub 0 (.plan 0), .sub 0 (.count 0), .sub 0 (.swap 0),
        .sub 0 (.wake 0)] = some b ∧
      b.subs = [{
        stream := "s"
        queue := [⟨⟨"k", [7], 0⟩, 0⟩]
        pending := some ⟨0, 1⟩
        enqueued := 2
        events := [.subscribed 0] }] ∧
      b.appends = [] ∧ b.lock = .free ∧ b.phase = .opened :=
    ⟨_, rfl, rfl, rfl, rfl, rfl⟩
  have hreached : Reached b :=
    ⟨{}, ⟨rfl, rfl, rfl, rfl⟩, Run.of_exec (fun _ _ => trivial) hexec⟩
  have honly : ∀ (s : Nat) (sub : Sub), b.subs[s]? = some sub →
      sub.seeks = [] ∧ sub.poll = .idle := by
    intro s sub hs
    rw [hsubs] at hs
    obtain rfl := List.mem_singleton.mp (List.mem_of_getElem? hs)
    exact ⟨rfl, rfl⟩
  have hrest : AtRest b :=
    ⟨happends, hlock, fun s sub hs => (honly s sub hs).1, fun s sub hs => (honly s sub hs).2⟩
  have hsub := congrArg (fun subs => subs[0]?) hsubs
  exact ⟨b, _, hsub, rfl, rfl, in_flight_exact hreached hrest hphase hsub rfl⟩

end RuststreamKinesis.InProcess
