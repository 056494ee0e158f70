import RuststreamKinesis.InProcess.Accounts

/-!
# A subscription that ends

Neither way of ending lets go of everything. After `Bus::close` the subscription still holds a
sender of its own channel, so its stream waits and does not end. And what was queued or promised
by a plan when the subscription went stays counted.
-/

namespace RuststreamKinesis.InProcess

set_option autoImplicit false

open Cells Runs

/-! ### The stream of a closed bus -/

theorem Bus.receive_waits {b : Bus} {s : Nat} {sub : Sub} (halive : sub.alive = true)
    (hqueue : sub.queue = []) : b.receive s sub = .pending := by
  have hsenders : b.senders s sub ≠ 0 := by
    simp only [Bus.senders, halive, if_true]
    omega
  simp only [Bus.receive, hqueue, if_neg hsenders]

/-- No poll answers that the stream has ended, on a closed bus no more than on an open one: with
nothing queued it answers `Pending`, and one that found no plan either leaves the bus as it
was. -/
theorem stream_never_ends {b : Bus} {s : Nat} {sub : Sub} (hsub : b.subs[s]? = some sub)
    (halive : sub.alive = true) (hqueue : sub.queue = []) :
    b.receive s sub = .pending ∧
      (sub.poll = .idle → sub.pending = none →
        ∃ m polled, b.step (.sub s .take) = some m ∧ m.subs[s]? = some polled ∧
          m.receive s polled = .pending ∧ m.step (.sub s .receive) = some b) := by
  refine ⟨Bus.receive_waits halive hqueue, ?_⟩
  intro hidle hpending
  have htake : sub.act b.phase (b.records sub.stream) .take =
      some { sub with poll := .receiving } := by
    simp [Sub.act, Sub.seekStep, Sub.pollStep, halive, hidle, hpending]
  have hmid := get_set_self (v := { sub with poll := .receiving }) hsub
  have hreceive : ({ sub with poll := .receiving } : Sub).act b.phase (b.records sub.stream)
      .receive = some sub := by
    simp only [Sub.act, Sub.seekStep, Sub.pollStep, hqueue, Option.none_or]
    cases sub
    obtain rfl : _ = [] := hqueue
    obtain rfl : _ = Poll.idle := hidle
    rfl
  refine ⟨{ b with subs := b.subs.set s { sub with poll := .receiving } }, _, ?_, hmid, ?_, ?_⟩
  · simp only [Bus.step, hsub, Lock.after, htake, Option.map_some]
  · exact Bus.receive_waits halive hqueue
  · simp only [Bus.step, hmid, Lock.after, hreceive, Option.map_some, List.set_set]
    have hset : b.subs.set s sub = b.subs := by
      obtain ⟨hlt, hget⟩ := List.getElem?_eq_some_iff.mp hsub
      rw [← hget, List.set_getElem_self]
    rw [hset]

/-- A bus with one subscription that was closed. -/
theorem closed_bus : ∃ b, exec Bus.step {} [.subscribe "s", .register 0, .shut, .clear] = some b ∧
    b.subs = [{ stream := "s", events := [.subscribed 0] }] ∧ b.phase = .closed :=
  ⟨_, rfl, rfl, rfl⟩

/-- After `close` a poll of the subscription answers `Pending`. -/
theorem stream_never_ends_closed : ∃ (b : Bus) (sub : Sub), Reached b ∧ b.phase = .closed ∧
    b.subs[0]? = some sub ∧ b.receive 0 sub = .pending := by
  obtain ⟨b, hexec, hsubs, hphase⟩ := closed_bus
  have hsub := congrArg (fun subs => subs[0]?) hsubs
  exact ⟨b, _, ⟨{}, ⟨rfl, rfl, rfl, rfl⟩, Run.of_exec (fun _ _ => trivial) hexec⟩, hphase, hsub,
    (stream_never_ends hsub rfl rfl).1⟩

/-- The documented end does not come. -/
theorem closed_stream_open : ¬ ∀ b : Bus, Reached b → b.phase = .closed →
    ∀ (s : Nat) (sub : Sub), b.subs[s]? = some sub → sub.alive = true → sub.poll = .idle →
      sub.queue = [] → sub.pending = none → b.receive s sub = .ended := by
  intro h
  obtain ⟨b, hexec, hsubs, hphase⟩ := closed_bus
  have hsub := congrArg (fun subs => subs[0]?) hsubs
  have hended := h b ⟨{}, ⟨rfl, rfl, rfl, rfl⟩, Run.of_exec (fun _ _ => trivial) hexec⟩ hphase 0 _
    hsub rfl rfl rfl rfl
  cases hended.symm.trans (Bus.receive_waits rfl rfl)

/-! ### What stays counted -/

namespace Sub

/-- A subscription that was dropped with nothing queued and nothing promised. -/
structure Gone (sub : Sub) : Prop where
  queue : sub.queue = []
  poll : sub.poll = .idle
  promised : sub.promised = 0

/-- A subscription that was repositioned over a cleared log. -/
structure Spent (sub : Sub) : Prop where
  few : sub.ahead.length ≤ 1
  idle : sub.poll = .idle → sub.queue = [] ∧ sub.promised = 0
  holding : ∀ delivery, sub.poll = .holding delivery → sub.queue = []

variable {sub sub' : Sub} {phase : Phase} {log : List Record} {a : SubAct}

theorem Gone.owed (h : sub.Gone) : sub.owed = sub.out.length := by
  have := h.promised
  simp only [Sub.owed, Sub.promised, h.queue, h.poll, Poll.owed, List.length_nil] at this ⊢
  omega

theorem Spent.owed (h : sub.Spent) (hidle : sub.poll = .idle) : sub.owed = sub.out.length := by
  obtain ⟨hqueue, hpromised⟩ := h.idle hidle
  simp only [Sub.owed, Sub.promised, hqueue, hidle, Poll.owed, List.length_nil] at hpromised ⊢
  omega

theorem Gone.moves (h : sub.Gone) (hm : Moves phase log sub a sub') (halive : sub.alive = false)
    (ha : ∀ k, a ≠ .count k) : sub'.Gone := by
  obtain ⟨hidle, hqueue⟩ := hm.idle halive h.poll
  have := hm.promised_le ha
  have := h.promised
  exact ⟨hqueue.trans h.queue, hidle, by omega⟩

/-- The suffix a reposition of the subscription would queue. -/
def suffix (sub : Sub) (log : List Record) : List Delivery :=
  match sub.poll with
  | .taken plan => suffixFrom log plan.target
  | _ => []

theorem Spent.moves (h : sub.Spent) (hm : Moves phase log sub a sub')
    (hcount : sub.poll = .idle → ∀ k, a ≠ .count k)
    (hsuffix : a = .reposition → (sub.suffix log).length ≤ 1)
    (hreceive : a = .receive → sub.queue = [] → sub.promised = 0)
    (hhand : a = .hand → sub.promised = 0) : sub'.Spent := by
  have hfew := h.few
  have hidle : sub.poll = .idle → sub.queue = [] ∧ sub'.promised = 0 := by
    intro hpoll
    obtain ⟨hqueue, hpromised⟩ := h.idle hpoll
    have := hm.promised_le (hcount hpoll)
    exact ⟨hqueue, by omega⟩
  cases hm with
  | seek _ | planned _ _ | refused _ | count _ _ | swap _ | release _ | wake _ | drop _ =>
    exact ⟨hfew, hidle, h.holding⟩
  | take _ hpoll _ | pass _ hpoll _ =>
    refine ⟨?_, nofun, nofun⟩
    simp only [ahead, hpoll] at hfew ⊢
    exact hfew
  | reposition hpoll =>
    refine ⟨?_, nofun, nofun⟩
    have := hsuffix rfl
    simp only [suffix, hpoll] at this
    exact this
  | grow hpoll _ | counted hpoll _ | drain hpoll _ | consume hpoll =>
    refine ⟨?_, nofun, nofun⟩
    simp only [ahead, hpoll] at hfew ⊢
    exact hfew
  | empty hpoll hqueue =>
    refine ⟨?_, nofun, nofun⟩
    simp only [ahead, hpoll] at hfew
    simp only [ahead, hqueue, List.nil_append]
    exact hfew
  | replay hpoll =>
    refine ⟨?_, nofun, nofun⟩
    simp only [ahead, hpoll, List.append_assoc, List.singleton_append] at hfew ⊢
    exact hfew
  | unlock hpoll =>
    refine ⟨?_, nofun, nofun⟩
    simp only [ahead, hpoll, List.append_nil] at hfew ⊢
    exact hfew
  | @receive delivery queue hpoll hqueue =>
    simp only [ahead, hpoll, hqueue, List.length_cons] at hfew
    have hlen : queue.length = 0 := by omega
    refine ⟨?_, nofun, fun _ _ => List.length_eq_zero_iff.mp hlen⟩
    simp only [ahead]
    omega
  | waits hpoll hqueue =>
    refine ⟨?_, fun _ => ⟨hqueue, hreceive rfl hqueue⟩, nofun⟩
    simp only [ahead, hqueue, List.length_nil]
    omega
  | refuse hpoll _ | hand hpoll _ =>
    have hqueue := h.holding _ hpoll
    refine ⟨?_, fun _ => ⟨hqueue, hhand rfl⟩, nofun⟩
    simp only [ahead, hqueue, List.length_nil]
    omega

theorem Moves.swept (hm : Moves phase log sub a sub') (h : sub'.swept = true) :
    sub.swept = true ∨ (a = .reposition ∧ phase = .closed) := by
  cases hm with
  | reposition _ =>
    simp only [Bool.or_eq_true, beq_iff_eq] at h
    exact h.imp id fun hphase => ⟨rfl, hphase⟩
  | _ => exact Or.inl h

theorem Moves.counted_le (hm : Moves phase log sub a sub')
    (h : ∀ n suffix, sub.poll = .counting n suffix → n ≤ suffix.length)
    (hsuffix : a = .reposition → sub.poll.owed ≤ (sub.suffix log).length) :
    ∀ n suffix, sub'.poll = .counting n suffix → n ≤ suffix.length := by
  intro n suffix hpoll'
  cases hm with
  | reposition hpoll =>
    obtain ⟨rfl, rfl⟩ := Poll.counting.inj hpoll'
    have := hsuffix rfl
    simpa only [hpoll, Poll.owed, Sub.suffix] using this
  | grow _ hlt =>
    obtain ⟨rfl, rfl⟩ := Poll.counting.inj hpoll'
    omega
  | seek _ | planned _ _ | refused _ | count _ _ | swap _ | release _ | wake _ | drop _ =>
    exact h n suffix hpoll'
  | _ => cases hpoll'

end Sub

namespace Bus

/-- The steps after which nothing is counted for a subscription that ended but what it handed
out. -/
def settles (b : Bus) : Act → Bool
  | .part s => (b.subs[s]?).all fun sub => sub.queue = [] ∧ sub.promised = 0
  | .sub s (.count _) =>
    (b.subs[s]?).all fun sub => sub.alive = true ∧ (sub.swept = true → sub.poll ≠ .idle)
  | .sub s .reposition =>
    (b.subs[s]?).all fun sub => b.phase = .closed →
      sub.poll.owed ≤ (sub.suffix (b.records sub.stream)).length ∧
        (sub.suffix (b.records sub.stream)).length ≤ 1
  | .sub s .receive =>
    (b.subs[s]?).all fun sub => sub.swept = true → sub.queue = [] → sub.promised = 0
  | .sub s .hand => (b.subs[s]?).all fun sub => sub.swept = true → sub.promised = 0
  | .fan =>
    match b.lock with
    | .append _ stream (s :: _) false =>
      (b.subs[s]?).all fun sub => sub.stream = stream → sub.swept = false
    | _ => true
  | _ => true

/-- A subscription that is counted for what it owes, and owes nothing but what it handed out once
it has ended. -/
structure Clean (b : Bus) (s : Nat) (sub : Sub) : Prop where
  counted : ∀ n suffix, sub.poll = .counting n suffix → n ≤ suffix.length
  exact : sub.surplus + b.uncounted s = 0
  gone : sub.alive = false → sub.Gone ∧ b.uncounted s = 0
  spent : sub.swept = true → sub.Spent ∧ b.uncounted s = 0 ∧ b.phase = .closed

variable {b b' : Bus} {act : Act} {s : Nat} {sub : Sub}

theorem Clean.keep (h : b.Clean s sub) (hu : b'.uncounted s = b.uncounted s)
    (hphase : b.phase = .closed → b'.phase = .closed) : b'.Clean s sub := by
  refine ⟨h.counted, ?_, ?_, ?_⟩
  · rw [hu]
    exact h.exact
  · rw [hu]
    exact h.gone
  · intro hswept
    obtain ⟨hspent, hzero, hclosed⟩ := h.spent hswept
    exact ⟨hspent, hu.trans hzero, hphase hclosed⟩

theorem Clean.moves {a : SubAct} {new : Sub} {lock : Lock} {subs : List Sub}
    (h : b.Clean s sub) (hbooked : b.Booked s sub) (hsub : b.subs[s]? = some sub)
    (hlock : b.lock.after s a = some lock)
    (hm : sub.Moves b.phase (b.records sub.stream) a new)
    (hsettles : b.settles (.sub s a) = true) : ({ b with subs, lock } : Bus).Clean s new := by
  have hu : ({ b with subs, lock } : Bus).uncounted s = b.uncounted s := uncounted_after hlock
  have hsuffix : a = .reposition → b.phase = .closed →
      sub.poll.owed ≤ (sub.suffix (b.records sub.stream)).length ∧
        (sub.suffix (b.records sub.stream)).length ≤ 1 := by
    rintro rfl
    simpa only [settles, hsub, Option.all_some, decide_eq_true_eq] using hsettles
  have hcounted : a = .reposition →
      sub.poll.owed ≤ (sub.suffix (b.records sub.stream)).length := by
    intro ha
    by_cases hclosed : b.phase = .closed
    · exact (hsuffix ha hclosed).1
    · subst ha
      cases hm with
      | @reposition plan hpoll =>
        have := (hbooked.fits hclosed).plans plan (Or.inr (Or.inl hpoll))
        simp only [hpoll, Poll.owed, Sub.suffix, length_suffixFrom]
        omega
  refine ⟨hm.counted_le h.counted hcounted, ?_, ?_, ?_⟩
  · have hexcess := Sub.excess_eq_zero h.counted a
    have := hm.surplus
    have := h.exact
    rw [hu]
    omega
  · intro halive
    rw [hm.alive] at halive
    obtain ⟨hgone, hzero⟩ := h.gone halive
    refine ⟨hgone.moves hm halive ?_, hu.trans hzero⟩
    rintro k rfl
    simp only [settles, hsub, Option.all_some, decide_eq_true_eq] at hsettles
    cases hsettles.1.symm.trans halive
  · intro hswept
    rcases hm.swept hswept with hold | ⟨rfl, hclosed⟩
    · obtain ⟨hspent, hzero, hclosed⟩ := h.spent hold
      refine ⟨hspent.moves hm ?_ (fun ha => (hsuffix ha hclosed).2) ?_ ?_, hu.trans hzero, hclosed⟩
      · rintro hidle k rfl
        simp only [settles, hsub, Option.all_some, decide_eq_true_eq] at hsettles
        exact hsettles.2 hold hidle
      · rintro rfl
        simp only [settles, hsub, Option.all_some, decide_eq_true_eq] at hsettles
        exact hsettles hold
      · rintro rfl
        simp only [settles, hsub, Option.all_some, decide_eq_true_eq] at hsettles
        exact hsettles hold
    · have hfew := (hsuffix rfl hclosed).2
      refine ⟨?_, ?_, hclosed⟩
      · cases hm with
        | reposition hpoll =>
          refine ⟨?_, by simp, by simp⟩
          simp only [Sub.suffix, hpoll] at hfew
          exact hfew
      · rcases Lock.after_cases hlock with ⟨hne, -⟩ | ⟨-, -, rfl⟩ | ⟨hne, -⟩
        · exact absurd rfl hne
        · rfl
        · cases hne

theorem clean_step (hledger : b.Ledger) (h : ∀ s sub, b.subs[s]? = some sub → b.Clean s sub)
    (hsettles : b.settles act = true) (hm : Moves b act b') :
    ∀ s sub, b'.subs[s]? = some sub → b'.Clean s sub := by
  intro s sub hs
  cases hm with
  | tick _ => exact (h s sub hs).keep rfl id
  | subscribe _ _ => exact (h s sub hs).keep rfl id
  | append _ _ _ _ => exact (h s sub hs).keep rfl id
  | stamp _ => exact (h s sub hs).keep rfl id
  | register _ hfree =>
    rcases get_push hs with hs | ⟨-, rfl⟩
    · exact (h s sub hs).keep rfl id
    · refine ⟨nofun, ?_, nofun, nofun⟩
      simp only [Sub.surplus_fresh, uncounted, hfree]
      rfl
  | push _ hfree _ =>
    refine (h s sub hs).keep ?_ id
    simp only [uncounted, hfree]
  | @send delivery t left old hlock ht halive =>
    have hu : ∀ s, b.uncounted s = 0 := by
      intro s
      simp only [uncounted, hlock]
    rcases get_set hs with ⟨rfl, rfl⟩ | ⟨hne, hs⟩
    · have hclean := h s old ht
      refine ⟨hclean.counted, ?_, ?_, ?_⟩
      · have := hclean.exact
        rw [hu] at this
        simp only [Sub.surplus_send, uncounted, if_true]
        omega
      · intro hdropped
        cases hdropped.symm.trans halive
      · intro hswept
        simp only [settles, hlock, ht, Option.all_some, decide_eq_true_eq, forall_const]
          at hsettles
        cases hswept.symm.trans hsettles
    · refine (h s sub hs).keep ?_ id
      rw [hu]
      simp only [uncounted, if_neg (Ne.symm hne)]
  | skip hlock _ _ =>
    refine (h s sub hs).keep ?_ id
    simp only [uncounted, hlock]
  | @count delivery stream t left old hlock ht =>
    rcases get_set hs with ⟨rfl, rfl⟩ | ⟨hne, hs⟩
    · have hclean := h s old ht
      have hu : b.uncounted s = 1 := by
        simp only [uncounted, hlock, if_true]
      refine ⟨hclean.counted, ?_, ?_, ?_⟩
      · have := hclean.exact
        rw [hu] at this
        simp only [Sub.surplus_count, uncounted]
        omega
      · intro hdropped
        cases hu.symm.trans (hclean.gone hdropped).2
      · intro hswept
        cases hu.symm.trans (hclean.spent hswept).2.1
    · refine (h s sub hs).keep ?_ id
      simp only [uncounted, hlock, if_neg (Ne.symm hne)]
  | finish hlock =>
    refine (h s sub hs).keep ?_ id
    simp only [uncounted, hlock]
  | @sub t a old new lock ht hlock hmoves =>
    rcases get_set hs with ⟨rfl, rfl⟩ | ⟨hne, hs⟩
    · exact (h s old ht).moves (hledger s old ht) ht hlock hmoves hsettles
    · exact (h s sub hs).keep (uncounted_after hlock) id
  | @part t old ht hfree halive hidle =>
    rcases get_set hs with ⟨rfl, rfl⟩ | ⟨hne, hs⟩
    · have hclean := h s old ht
      simp only [settles, ht, Option.all_some, decide_eq_true_eq] at hsettles
      obtain ⟨hqueue, hpromised⟩ := hsettles
      refine ⟨hclean.counted, ?_, ?_, ?_⟩
      · have := hclean.exact
        simp only [Sub.surplus, Sub.contribution, Sub.owed, hqueue] at this ⊢
        exact this
      · intro _
        exact ⟨⟨rfl, hidle, hpromised⟩, uncounted_free hfree⟩
      · intro hswept
        obtain ⟨hspent, hzero, hclosed⟩ := hclean.spent hswept
        refine ⟨⟨?_, fun _ => ⟨rfl, hpromised⟩, fun _ _ => rfl⟩, hzero, hclosed⟩
        simp only [Sub.ahead, hidle, List.length_nil]
        omega
    · exact (h s sub hs).keep rfl id
  | shut =>
    refine (h s sub hs).keep rfl ?_
    intro hclosed
    simp only [hclosed]
    rfl
  | clear _ _ => exact (h s sub hs).keep rfl fun _ => rfl

end Bus

/-- In a run that drops a subscription with nothing queued or promised, and repositions one over a
cleared log with nothing promised beyond the suffix, a subscription that has ended contributes
what it handed out and has not got back. -/
theorem ended_contributes_outstanding {start b : Bus} (hfresh : Fresh start)
    (hrun : Run Bus.step (fun b act => b.settles act = true) start b) {s : Nat} {sub : Sub}
    (hsub : b.subs[s]? = some sub)
    (hended : sub.alive = false ∨ (sub.swept = true ∧ sub.poll = .idle)) :
    (sub.enqueued : Int) - sub.consumed = sub.out.length := by
  have hinv : b.Ledger ∧ ∀ s sub, b.subs[s]? = some sub → b.Clean s sub := by
    apply hrun.invariant (I := fun b => b.Ledger ∧ ∀ s sub, b.subs[s]? = some sub → b.Clean s sub)
    · intro b act b' ⟨hledger, hclean⟩ hok hstep
      have hmoves := Bus.step_moves hstep
      exact ⟨hledger.moves hmoves, Bus.clean_step hledger hclean hok hmoves⟩
    · refine ⟨Bus.ledger_fresh hfresh, ?_⟩
      intro s sub hs
      rw [hfresh.subs] at hs
      cases hs
  have hclean := hinv.2 s sub hsub
  have hexact := hclean.exact
  rcases hended with hdropped | ⟨hswept, hidle⟩
  · obtain ⟨hgone, hzero⟩ := hclean.gone hdropped
    have := hgone.owed
    simp only [Sub.surplus, Sub.contribution, hzero] at hexact
    omega
  · obtain ⟨hspent, hzero, -⟩ := hclean.spent hswept
    have := hspent.owed hidle
    simp only [Sub.surplus, Sub.contribution, hzero] at hexact
    omega

/-- A subscription dropped while a delivery of its is outstanding. -/
theorem ended_contributes_outstanding_one : ∃ (b : Bus) (sub : Sub), b.subs[0]? = some sub ∧
    sub.alive = false ∧ sub.out.length = 1 ∧
    (sub.enqueued : Int) - sub.consumed = sub.out.length := by
  obtain ⟨b, hcheck, hsubs⟩ : ∃ b, check Bus.step Bus.settles {}
      [.subscribe "s", .register 0, .append "s" "k" [7], .stamp 0, .push 0 [0], .fan, .fan, .fan,
        .sub 0 .take, .sub 0 .receive, .sub 0 .hand, .part 0] = some b ∧
      b.subs = [{
        stream := "s"
        out := [⟨⟨"k", [7], 0⟩, 0⟩]
        alive := false
        enqueued := 1
        events := [.took ⟨⟨"k", [7], 0⟩, 0⟩, .subscribed 0] }] :=
    ⟨_, rfl, rfl⟩
  have hsub := congrArg (fun subs => subs[0]?) hsubs
  exact ⟨b, _, hsub, rfl, rfl,
    ended_contributes_outstanding ⟨rfl, rfl, rfl, rfl⟩ (Run.of_check hcheck) hsub (Or.inl rfl)⟩

/-- A subscription dropped with a delivery in its queue stays counted for it. -/
theorem dropped_queue_counted : ¬ ∀ b : Bus, Reached b → ∀ (s : Nat) (sub : Sub),
    b.subs[s]? = some sub → sub.alive = false →
      (sub.enqueued : Int) - sub.consumed = sub.out.length := by
  intro h
  obtain ⟨b, hexec, hsubs⟩ : ∃ b, exec Bus.step {}
      [.subscribe "s", .register 0, .append "s" "k" [7], .stamp 0, .push 0 [0], .fan, .fan, .fan,
        .part 0] = some b ∧
      b.subs = [{ stream := "s", alive := false, enqueued := 1, events := [.subscribed 0] }] :=
    ⟨_, rfl, rfl⟩
  have hsub := congrArg (fun subs => subs[0]?) hsubs
  have hcount := h b ⟨{}, ⟨rfl, rfl, rfl, rfl⟩, Run.of_exec (fun _ _ => trivial) hexec⟩ 0 _ hsub rfl
  cases hcount

end RuststreamKinesis.InProcess
