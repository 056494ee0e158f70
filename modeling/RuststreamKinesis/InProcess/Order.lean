import RuststreamKinesis.InProcess.Accounts

/-!
# The queue is a suffix of the log

While nobody is inside the log's lock a subscription has queued the records of its stream from
some index on, in order. The events that set that index are subscribing, an applied reposition
and a record taken off the queue. Inside the lock the same holds of the queue with what the
fanout or the reposition still has to put into it.
-/

namespace RuststreamKinesis.InProcess

set_option autoImplicit false

open Cells Runs

/-- The index the latest event sets. -/
def begins : List Event → Nat
  | [] => 0
  | .subscribed length :: _ => length
  | .repositioned target :: _ => target
  | .took delivery :: _ => delivery.index + 1

/-- Every record taken is the log's at the index that the events before it set. -/
def Consecutive (log : List Record) : List Event → Prop
  | [] => True
  | .took delivery :: events =>
    delivery.index = begins events ∧ log[delivery.index]? = some delivery.record ∧
      Consecutive log events
  | _ :: events => Consecutive log events

theorem Consecutive.push {log : List Record} {record : Record} {events : List Event}
    (h : Consecutive log events) : Consecutive (log ++ [record]) events := by
  induction events with
  | nil => trivial
  | cons event events ih =>
    cases event with
    | took delivery =>
      obtain ⟨hindex, hget, hrest⟩ := h
      exact ⟨hindex, get_push_old hget, ih hrest⟩
    | subscribed _ | repositioned _ => exact ih h

namespace Sub

/-- The poll is inside the log's lock. -/
def inside (sub : Sub) : Prop :=
  match sub.poll with
  | .counting _ _ | .draining _ | .drained _ | .sending _ => True
  | _ => False

variable {sub sub' : Sub} {phase : Phase} {log : List Record} {a : SubAct}

theorem ahead_outside (h : ¬ sub.inside) : sub.ahead = sub.queue := by
  unfold Sub.inside at h
  unfold Sub.ahead
  cases hpoll : sub.poll with
  | counting _ _ | draining _ | drained _ | sending _ =>
    rw [hpoll] at h
    exact absurd trivial h
  | _ => rfl

/-- What a step does to the queue and the events. -/
theorem Moves.ahead (hm : Moves phase log sub a sub') :
    (sub'.events = sub.events ∧ sub'.ahead = sub.ahead) ∨
      (∃ plan, a = .reposition ∧ sub.poll = .taken plan ∧
        sub'.events = .repositioned plan.target :: sub.events ∧
        sub'.ahead = suffixFrom log plan.target) ∨
      (∃ delivery, a = .receive ∧ sub.poll = .receiving ∧
        sub.ahead = delivery :: sub'.ahead ∧ sub'.events = .took delivery :: sub.events) := by
  cases hm with
  | seek _ | planned _ _ | refused _ | count _ _ | swap _ | release _ | wake _ | drop _ =>
    exact Or.inl ⟨rfl, rfl⟩
  | reposition hpoll => exact Or.inr (Or.inl ⟨_, rfl, hpoll, rfl, rfl⟩)
  | receive hpoll hqueue =>
    refine Or.inr (Or.inr ⟨_, rfl, hpoll, ?_, rfl⟩)
    simp only [Sub.ahead, hpoll, hqueue]
  | empty hpoll hqueue =>
    refine Or.inl ⟨rfl, ?_⟩
    simp only [Sub.ahead, hpoll, hqueue, List.nil_append]
  | replay hpoll =>
    refine Or.inl ⟨rfl, ?_⟩
    simp only [Sub.ahead, hpoll, List.append_assoc, List.singleton_append]
  | unlock hpoll =>
    refine Or.inl ⟨rfl, ?_⟩
    simp only [Sub.ahead, hpoll, List.append_nil]
  | take _ hpoll _ | pass _ hpoll _ | grow hpoll _ | counted hpoll _ | consume hpoll
  | waits hpoll _ | refuse hpoll _ | hand hpoll _ =>
    refine Or.inl ⟨rfl, ?_⟩
    simp only [Sub.ahead, hpoll]
  | drain hpoll hqueue =>
    refine Or.inl ⟨rfl, ?_⟩
    simp only [Sub.ahead, hpoll]

/-- A poll gets inside the lock by a reposition and leaves it by unlocking. -/
theorem Moves.inside (hm : Moves phase log sub a sub') (h : sub'.inside) :
    a = .reposition ∨ (sub.inside ∧ a ≠ .unlock) := by
  cases hm with
  | seek _ | planned _ _ | refused _ | count _ _ | swap _ | release _ | wake _ | drop _ =>
    exact Or.inr ⟨h, nofun⟩
  | reposition _ => exact Or.inl rfl
  | grow hpoll _ | counted hpoll _ | drain hpoll _ | empty hpoll _ | consume hpoll
  | replay hpoll =>
    refine Or.inr ⟨?_, nofun⟩
    simp only [Sub.inside, hpoll]
  | _ => cases h

/-- What is handed out was taken off the queue. -/
def Handed (sub : Sub) : Prop :=
  ∀ delivery, delivery ∈ sub.out ∨ sub.poll = .holding delivery → .took delivery ∈ sub.events

theorem Handed.moves (h : sub.Handed) (hm : Moves phase log sub a sub') : sub'.Handed := by
  intro delivery hd
  cases hm with
  | drop _ => exact h delivery (hd.imp List.mem_of_mem_eraseIdx id)
  | hand hpoll _ =>
    rcases hd with hd | hd
    · rcases Cells.mem_push hd with hd | rfl
      · exact h delivery (Or.inl hd)
      · exact h delivery (Or.inr hpoll)
    · cases hd
  | receive hpoll _ =>
    rcases hd with hd | hd
    · exact List.mem_cons_of_mem _ (h delivery (Or.inl hd))
    · obtain rfl := Poll.holding.inj hd
      exact List.mem_cons_self
  | reposition hpoll =>
    rcases hd with hd | hd
    · exact List.mem_cons_of_mem _ (h delivery (Or.inl hd))
    · cases hd
  | seek _ | planned _ _ | refused _ | count _ _ | swap _ | release _ | wake _ =>
    exact h delivery hd
  | _ =>
    rcases hd with hd | hd
    · exact h delivery (Or.inl hd)
    · cases hd

end Sub

namespace Bus

/-- Who is in the registry, and whom a fanout still visits. -/
structure Enrolled (b : Bus) : Prop where
  nodup : b.registry.Nodup
  lt : ∀ s ∈ b.registry, s < b.subs.length
  left : ∀ delivery stream left sent, b.lock = .append delivery stream left sent → left.Nodup
  alive : b.phase ≠ .closed → ∀ (s : Nat) (sub : Sub), b.subs[s]? = some sub →
    sub.alive = true → s ∈ b.registry

variable {b b' : Bus} {act : Act} {s : Nat} {sub : Sub}

theorem Enrolled.moves (h : b.Enrolled) (hm : Moves b act b') : b'.Enrolled := by
  cases hm with
  | tick _ | subscribe _ _ | append _ _ _ _ | stamp _ =>
    exact ⟨h.nodup, h.lt, h.left, h.alive⟩
  | register _ hfree =>
    refine ⟨?_, ?_, ?_, ?_⟩
    · refine List.nodup_cons.mpr ⟨?_, h.nodup⟩
      intro hmem
      exact Nat.lt_irrefl _ (h.lt _ hmem)
    · intro s hs
      rw [List.length_append]
      rcases List.mem_cons.mp hs with rfl | hs
      · exact Nat.lt_succ_self _
      · exact Nat.lt_succ_of_lt (h.lt s hs)
    · intro delivery stream left sent hlock
      cases hfree.symm.trans hlock
    · intro hopen s sub hs halive
      rcases get_push hs with hs | ⟨rfl, -⟩
      · exact List.mem_cons_of_mem _ (h.alive hopen s sub hs halive)
      · exact List.mem_cons_self
  | push _ _ horder =>
    refine ⟨h.nodup, h.lt, ?_, h.alive⟩
    rintro delivery stream left sent hlock
    cases hlock
    exact horder.nodup_iff.mpr h.nodup
  | @send delivery t left old hlock ht halive =>
    have hleft := h.left _ _ _ _ hlock
    refine ⟨h.nodup, ?_, ?_, ?_⟩
    · rw [List.length_set]
      exact h.lt
    · intro delivery stream left sent hlock
      cases hlock
      exact hleft
    · intro hopen s sub hs hliving
      rcases get_set hs with ⟨rfl, -⟩ | ⟨-, hs⟩
      · exact h.alive hopen s old ht halive
      · exact h.alive hopen s sub hs hliving
  | skip hlock _ _ =>
    refine ⟨h.nodup, h.lt, ?_, h.alive⟩
    have hleft := h.left _ _ _ _ hlock
    intro delivery stream left sent hlock
    cases hlock
    exact (List.nodup_cons.mp hleft).2
  | @count delivery stream t left old hlock ht =>
    have hleft := h.left _ _ _ _ hlock
    refine ⟨h.nodup, ?_, ?_, ?_⟩
    · rw [List.length_set]
      exact h.lt
    · intro delivery stream left sent hlock
      cases hlock
      exact (List.nodup_cons.mp hleft).2
    · intro hopen s sub hs hliving
      rcases get_set hs with ⟨rfl, rfl⟩ | ⟨-, hs⟩
      · exact h.alive hopen s old ht hliving
      · exact h.alive hopen s sub hs hliving
  | finish _ => exact ⟨h.nodup, h.lt, nofun, h.alive⟩
  | @sub t a old new lock ht hlock hmoves =>
    refine ⟨h.nodup, ?_, ?_, ?_⟩
    · rw [List.length_set]
      exact h.lt
    · intro delivery stream left sent happend
      rcases Lock.after_cases hlock with ⟨-, rfl⟩ | ⟨-, -, rfl⟩ | ⟨-, -, rfl⟩
      · exact h.left _ _ _ _ happend
      · cases happend
      · cases happend
    · intro hopen s sub hs hliving
      rcases get_set hs with ⟨rfl, rfl⟩ | ⟨-, hs⟩
      · exact h.alive hopen s old ht (hmoves.alive ▸ hliving)
      · exact h.alive hopen s sub hs hliving
  | @part t old ht hfree halive hidle =>
    refine ⟨h.nodup.erase t, ?_, ?_, ?_⟩
    · rw [List.length_set]
      intro s hs
      exact h.lt s (List.mem_of_mem_erase hs)
    · intro delivery stream left sent hlock
      cases hfree.symm.trans hlock
    · intro hopen s sub hs hliving
      rcases get_set hs with ⟨rfl, rfl⟩ | ⟨hne, hs⟩
      · cases hliving
      · exact (List.mem_erase_of_ne hne).mpr (h.alive hopen s sub hs hliving)
  | shut =>
    refine ⟨h.nodup, h.lt, h.left, ?_⟩
    intro hopen
    apply h.alive
    intro hclosed
    apply hopen
    simp only [hclosed]
    rfl
  | clear hfree _ =>
    refine ⟨List.nodup_nil, nofun, ?_, fun hopen => absurd rfl hopen⟩
    intro delivery stream left sent hlock
    cases hfree.symm.trans hlock

/-- The delivery that a fanout has pushed on the log and not yet sent to the subscription. -/
def due (b : Bus) (s : Nat) (sub : Sub) : List Delivery :=
  match b.lock with
  | .append delivery stream left sent =>
    if stream = sub.stream ∧ s ∈ (if sent then left.tail else left) then [delivery] else []
  | _ => []

/-- What a subscription has queued and will be sent is its stream's log from some index on. -/
structure Following (b : Bus) (s : Nat) (sub : Sub) : Prop where
  queue : sub.alive = true →
    sub.ahead ++ b.due s sub = suffixFrom (b.records sub.stream) (begins sub.events)
  bound : begins sub.events ≤ (b.records sub.stream).length
  taken : Consecutive (b.records sub.stream) sub.events

structure Follows (b : Bus) (s : Nat) (sub : Sub) : Prop where
  inside : sub.inside → b.lock = .poll s
  idle : sub.alive = false → sub.poll = .idle
  handed : sub.Handed
  following : b.phase ≠ .closed → b.Following s sub

theorem Follows.keep (h : b.Follows s sub) (hinside : sub.inside → b'.lock = .poll s)
    (hdue : b'.due s sub = b.due s sub) (hphase : b'.phase ≠ .closed → b.phase ≠ .closed)
    (hrecords : b'.records = b.records) : b'.Follows s sub := by
  refine ⟨hinside, h.idle, h.handed, ?_⟩
  intro hopen
  obtain ⟨hqueue, hbound, htaken⟩ := h.following (hphase hopen)
  constructor
  · rw [hdue, hrecords]
    exact hqueue
  · rw [hrecords]
    exact hbound
  · rw [hrecords]
    exact htaken

theorem due_free (h : b.lock = .free) : b.due s sub = [] := by
  simp only [due, h]

theorem due_after {lock : Lock} {a : SubAct} {t : Nat} {subs : List Sub} {new : Sub}
    (h : b.lock.after t a = some lock) (hstream : new.stream = sub.stream) :
    ({ b with subs, lock } : Bus).due s new = b.due s sub := by
  rcases Lock.after_cases h with ⟨-, rfl⟩ | ⟨-, hfree, rfl⟩ | ⟨-, hpoll, rfl⟩
  · simp only [due, hstream]
  · simp only [due, hfree]
  · simp only [due, hpoll]

/-- While a fanout is under way no poll is inside the lock. -/
theorem Follows.outside (h : b.Follows s sub) {delivery : Delivery} {stream : String}
    {left : List Nat} {sent : Bool} (hlock : b.lock = .append delivery stream left sent) :
    ¬ sub.inside := by
  intro hinside
  cases hlock.symm.trans (h.inside hinside)

/-- A step on the subscription itself. -/
theorem Follows.moves {a : SubAct} {new : Sub} {lock : Lock} {subs : List Sub}
    (h : b.Follows s sub) (hbooked : b.Booked s sub) (hlock : b.lock.after s a = some lock)
    (hm : sub.Moves b.phase (b.records sub.stream) a new) :
    ({ b with subs, lock } : Bus).Follows s new := by
  refine ⟨?_, ?_, h.handed.moves hm, ?_⟩
  · intro hinside
    rcases hm.inside hinside with rfl | ⟨hold, hne⟩
    · rcases Lock.after_cases hlock with ⟨hne, -⟩ | ⟨-, -, rfl⟩ | ⟨hne, -⟩
      · exact absurd rfl hne
      · rfl
      · cases hne
    · have hpoll := h.inside hold
      rcases Lock.after_cases hlock with ⟨-, rfl⟩ | ⟨-, hfree, -⟩ | ⟨hunlock, -⟩
      · exact hpoll
      · cases hpoll.symm.trans hfree
      · exact absurd hunlock hne
  · intro hdropped
    rw [hm.alive] at hdropped
    exact (hm.idle hdropped (h.idle hdropped)).1
  · intro hopen
    obtain ⟨hqueue, hbound, htaken⟩ := h.following hopen
    have hdue : ({ b with subs, lock } : Bus).due s new = b.due s sub :=
      due_after hlock hm.stream
    rcases hm.ahead with ⟨hevents, hahead⟩ | ⟨plan, rfl, hpoll, hevents, hahead⟩ |
      ⟨delivery, rfl, hpoll, hahead, hevents⟩
    · constructor
      · intro halive
        rw [hdue, hm.stream, hevents, hahead]
        exact hqueue (hm.alive ▸ halive)
      · rw [hm.stream, hevents]
        exact hbound
      · rw [hm.stream, hevents]
        exact htaken
    · have hfits := (hbooked.fits hopen).plans plan (Or.inr (Or.inl hpoll))
      have hnone : b.due s sub = [] := by
        rcases Lock.after_cases hlock with ⟨hne, -⟩ | ⟨-, hfree, -⟩ | ⟨hne, -⟩
        · exact absurd rfl hne
        · exact due_free hfree
        · cases hne
      constructor
      · intro _
        rw [hdue, hm.stream, hevents, hahead, hnone, List.append_nil]
        rfl
      · rw [hm.stream, hevents]
        simp only [begins]
        omega
      · rw [hm.stream, hevents]
        exact htaken
    · have halive : sub.alive = true := by
        by_contra hdropped
        cases hpoll.symm.trans (h.idle (by simpa using hdropped))
      -- the record taken is the first of the suffix, whatever is still due
      have hsuffix := hqueue halive
      rw [hahead, List.cons_append] at hsuffix
      obtain ⟨hindex, hget, hrest⟩ := suffixFrom_cons hsuffix.symm
      have hlt := get_lt hget
      constructor
      · intro _
        rw [hdue, hm.stream, hevents]
        simp only [begins, hindex]
        exact hrest.symm
      · rw [hm.stream, hevents]
        simp only [begins]
        omega
      · rw [hm.stream, hevents]
        exact ⟨hindex, hindex ▸ hget, htaken⟩

/-- A record pushed on a log is due to every subscription registered on its stream. -/
theorem Follows.pushed (h : b.Follows s sub) (henrolled : b.Enrolled)
    (hs : b.subs[s]? = some sub) (hfree : b.lock = .free) {order : List Nat}
    (horder : order.Perm b.registry) {stream : String} {record : Record} {appends : List Append} :
    ({ b with
        appends
        records := Function.update b.records stream (b.records stream ++ [record])
        lock := .append ⟨record, (b.records stream).length⟩ stream order false } : Bus).Follows s
      sub := by
  refine ⟨?_, h.idle, h.handed, ?_⟩
  · intro hinside
    cases hfree.symm.trans (h.inside hinside)
  · intro hopen
    obtain ⟨hqueue, hbound, htaken⟩ := h.following hopen
    by_cases hstream : stream = sub.stream
    · subst hstream
      constructor
      · intro halive
        have hmem := horder.mem_iff.mpr (henrolled.alive hopen s sub hs halive)
        have hold := hqueue halive
        rw [due_free hfree, List.append_nil] at hold
        simp only [due, Function.update_self, hmem, and_self, if_true, Bool.false_eq_true,
          if_false]
        rw [suffixFrom_push hbound, hold]
      · simp only [Function.update_self, List.length_append]
        omega
      · simp only [Function.update_self]
        exact htaken.push
    · have hsame : Function.update b.records stream (b.records stream ++ [record]) sub.stream =
          b.records sub.stream := Function.update_of_ne (Ne.symm hstream) _ _
      constructor
      · intro halive
        have hold := hqueue halive
        rw [due_free hfree] at hold
        simp only [due, hstream, false_and, if_false, hsame]
        exact hold
      · simp only [hsame]
        exact hbound
      · simp only [hsame]
        exact htaken

/-- A step of the fanout on the subscription: what it queues is what is no longer due. -/
theorem Follows.fanned (h : b.Follows s sub) {delivery : Delivery} {stream : String}
    {left : List Nat} {sent : Bool} (hlock : b.lock = .append delivery stream left sent)
    {lock : Lock} {subs : List Sub} {queue : List Delivery} {enqueued : Nat}
    (hmoved : sub.alive = true →
      queue ++ ({ b with subs, lock } : Bus).due s { sub with queue, enqueued } =
        sub.queue ++ b.due s sub) :
    ({ b with subs, lock } : Bus).Follows s { sub with queue, enqueued } := by
  have hout := h.outside hlock
  refine ⟨fun hinside => absurd hinside hout, h.idle, h.handed, ?_⟩
  intro hopen
  obtain ⟨hqueue, hbound, htaken⟩ := h.following hopen
  refine ⟨?_, hbound, htaken⟩
  intro halive
  have hold := hqueue halive
  have hahead : ({ sub with queue, enqueued } : Sub).ahead = queue := Sub.ahead_outside hout
  rw [Sub.ahead_outside hout] at hold
  rw [hahead, hmoved halive]
  exact hold

theorem follows_step (hledger : b.Ledger) (henrolled : b.Enrolled)
    (h : ∀ s sub, b.subs[s]? = some sub → b.Follows s sub) (hm : Moves b act b') :
    ∀ s sub, b'.subs[s]? = some sub → b'.Follows s sub := by
  intro s sub hs
  cases hm with
  | tick _ | subscribe _ _ | append _ _ _ _ | stamp _ =>
    exact (h s sub hs).keep (h s sub hs).inside rfl id rfl
  | register _ hfree =>
    rcases get_push hs with hs | ⟨-, rfl⟩
    · exact (h s sub hs).keep (h s sub hs).inside rfl id rfl
    · refine ⟨?_, fun _ => rfl, by simp [Sub.Handed], ?_⟩
      · intro hinside
        cases hinside
      · intro _
        refine ⟨?_, Nat.le_refl _, trivial⟩
        intro _
        simp only [due, hfree, begins, suffixFrom]
        rw [List.drop_eq_nil_of_le (by simp)]
        rfl
  | @push k order stream record hk hfree horder =>
    exact (h s sub hs).pushed henrolled hs hfree horder
  | @send delivery t left old hlock ht halive =>
    have hnot := (List.nodup_cons.mp (henrolled.left _ _ _ _ hlock)).1
    rcases get_set hs with ⟨rfl, rfl⟩ | ⟨hne, hs⟩
    · apply (h s old ht).fanned hlock
      intro _
      simp [due, hlock, hnot]
    · have hfollows := h s sub hs
      refine hfollows.keep (fun hinside => absurd hinside (hfollows.outside hlock)) ?_ id rfl
      simp only [due, hlock, if_true, List.tail_cons, Bool.false_eq_true, if_false,
        List.mem_cons, hne, false_or]
  | @skip delivery stream t left old hlock ht hto =>
    have hfollows := h s sub hs
    by_cases hst : s = t
    · subst hst
      obtain rfl := Option.some.inj (hs.symm.trans ht)
      apply hfollows.fanned hlock
      intro halive
      have hother : ¬ stream = sub.stream := fun heq => hto ⟨heq.symm, halive⟩
      simp only [due, hlock, hother, false_and, if_false]
    · refine hfollows.keep (fun hinside => absurd hinside (hfollows.outside hlock)) ?_ id rfl
      simp only [due, hlock, Bool.false_eq_true, if_false, List.mem_cons, hst, false_or]
  | @count delivery stream t left old hlock ht =>
    rcases get_set hs with ⟨rfl, rfl⟩ | ⟨hne, hs⟩
    · apply (h s old ht).fanned hlock
      intro _
      simp only [due, hlock, if_true, List.tail_cons, Bool.false_eq_true, if_false]
    · have hfollows := h s sub hs
      refine hfollows.keep (fun hinside => absurd hinside (hfollows.outside hlock)) ?_ id rfl
      simp only [due, hlock, if_true, List.tail_cons, Bool.false_eq_true, if_false]
  | @finish delivery stream sent hlock =>
    have hfollows := h s sub hs
    refine hfollows.keep (fun hinside => absurd hinside (hfollows.outside hlock)) ?_ id rfl
    cases sent <;> simp [due, hlock]
  | @sub t a old new lock ht hlock hmoves =>
    rcases get_set hs with ⟨rfl, rfl⟩ | ⟨hne, hs⟩
    · exact (h s old ht).moves (hledger s old ht) hlock hmoves
    · have hfollows := h s sub hs
      refine hfollows.keep ?_ (due_after hlock rfl) id rfl
      intro hinside
      have hpoll := hfollows.inside hinside
      rcases Lock.after_cases hlock with ⟨-, rfl⟩ | ⟨-, hfree, -⟩ | ⟨-, hother, -⟩
      · exact hpoll
      · cases hpoll.symm.trans hfree
      · exact absurd (Lock.poll.inj (hpoll.symm.trans hother)) hne
  | @part t old ht hfree halive hidle =>
    rcases get_set hs with ⟨rfl, rfl⟩ | ⟨hne, hs⟩
    · have hfollows := h s old ht
      refine ⟨hfollows.inside, fun _ => hidle, hfollows.handed, ?_⟩
      intro hopen
      obtain ⟨-, hbound, htaken⟩ := hfollows.following hopen
      exact ⟨by simp, hbound, htaken⟩
    · exact (h s sub hs).keep (h s sub hs).inside rfl id rfl
  | shut =>
    refine (h s sub hs).keep (h s sub hs).inside rfl ?_ rfl
    intro hopen hclosed
    apply hopen
    simp only [hclosed]
    rfl
  | clear hfree _ =>
    exact ⟨(h s sub hs).inside, (h s sub hs).idle, (h s sub hs).handed,
      fun hopen => absurd rfl hopen⟩

theorem enrolled_fresh (h : Fresh b) : b.Enrolled := by
  refine ⟨?_, ?_, ?_, ?_⟩
  · rw [h.registry]
    exact List.nodup_nil
  · rw [h.registry]
    nofun
  · intro delivery stream left sent hlock
    cases h.lock.symm.trans hlock
  · intro _ s sub hs
    rw [h.subs] at hs
    cases hs

theorem follows_fresh (h : Fresh b) :
    ∀ (s : Nat) (sub : Sub), b.subs[s]? = some sub → b.Follows s sub := by
  intro s sub hs
  rw [h.subs] at hs
  cases hs

/-- With the lock free the queue is the log from the cursor on. -/
theorem Follows.suffix {s : Nat} {sub : Sub} (h : b.Follows s sub) (hopen : b.phase ≠ .closed)
    (hfree : b.lock = .free) (halive : sub.alive = true) :
    sub.queue = suffixFrom (b.records sub.stream) (begins sub.events) := by
  have hout : ¬ sub.inside := by
    intro hinside
    cases hfree.symm.trans (h.inside hinside)
  have hsuffix := (h.following hopen).queue halive
  rwa [due_free hfree, List.append_nil, Sub.ahead_outside hout] at hsuffix

end Bus

end RuststreamKinesis.InProcess
