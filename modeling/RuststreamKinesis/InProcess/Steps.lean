import RuststreamKinesis.InProcess.Bus

/-!
# What a step of the bus can do

One constructor for each way a step goes, with its guards; the invariants of a run are proved
over these.
-/

namespace RuststreamKinesis.InProcess

set_option autoImplicit false

open Cells

namespace Sub

variable {sub sub' : Sub} {phase : Phase} {log : List Record} {a : SubAct}

/-- What a step on a subscription can do, guards included. -/
inductive Moves (phase : Phase) (log : List Record) (sub : Sub) : SubAct → Sub → Prop where
  | seek (position : KinesisPosition) : phase = .opened →
      Moves phase log sub (.seek position) { sub with seeks := sub.seeks ++ [.opened position] }
  | planned {k : Nat} {position : KinesisPosition} {plan : Plan} :
      sub.seeks[k]? = some (.opened position) →
      planOver log sub.stream position = .ok plan →
      Moves phase log sub (.plan k) { sub with seeks := sub.seeks.set k (.counting plan 0) }
  | refused {k : Nat} {position : KinesisPosition} : sub.seeks[k]? = some (.opened position) →
      Moves phase log sub (.plan k) { sub with seeks := sub.seeks.eraseIdx k }
  | count {k : Nat} {plan : Plan} {counted : Nat} :
      sub.seeks[k]? = some (.counting plan counted) → counted < plan.count →
      Moves phase log sub (.count k) { sub with
        enqueued := sub.enqueued + 1
        seeks := sub.seeks.set k (.counting plan (counted + 1)) }
  | swap {k : Nat} {plan : Plan} : sub.seeks[k]? = some (.counting plan plan.count) →
      Moves phase log sub (.swap k) { sub with
        pending := some plan
        seeks := sub.seeks.set k (.releasing (countOf sub.pending)) }
  | release {k left : Nat} : sub.seeks[k]? = some (.releasing (left + 1)) →
      Moves phase log sub (.release k) { sub with
        consumed := sub.consumed + 1
        seeks := sub.seeks.set k (.releasing left) }
  | wake {k : Nat} : sub.seeks[k]? = some (.releasing 0) →
      Moves phase log sub (.wake k) { sub with seeks := sub.seeks.eraseIdx k }
  | take {plan : Plan} : sub.alive = true → sub.poll = .idle → sub.pending = some plan →
      Moves phase log sub .take { sub with pending := none, poll := .taken plan }
  | pass : sub.alive = true → sub.poll = .idle → sub.pending = none →
      Moves phase log sub .take { sub with poll := .receiving }
  | reposition {plan : Plan} : sub.poll = .taken plan →
      Moves phase log sub .reposition { sub with
        poll := .counting plan.count (suffixFrom log plan.target)
        swept := sub.swept || phase == .closed
        events := .repositioned plan.target :: sub.events }
  | grow {counted : Nat} {suffix : List Delivery} : sub.poll = .counting counted suffix →
      counted < suffix.length →
      Moves phase log sub .grow { sub with
        enqueued := sub.enqueued + 1
        poll := .counting (counted + 1) suffix }
  | counted {counted : Nat} {suffix : List Delivery} : sub.poll = .counting counted suffix →
      suffix.length ≤ counted →
      Moves phase log sub .drain { sub with poll := .draining suffix }
  | drain {suffix queue : List Delivery} {delivery : Delivery} : sub.poll = .draining suffix →
      sub.queue = delivery :: queue →
      Moves phase log sub .drain { sub with queue, poll := .drained suffix }
  | empty {suffix : List Delivery} : sub.poll = .draining suffix → sub.queue = [] →
      Moves phase log sub .drain { sub with poll := .sending suffix }
  | consume {suffix : List Delivery} : sub.poll = .drained suffix →
      Moves phase log sub .consume { sub with
        consumed := sub.consumed + 1
        poll := .draining suffix }
  | replay {delivery : Delivery} {left : List Delivery} : sub.poll = .sending (delivery :: left) →
      Moves phase log sub .replay { sub with
        queue := sub.queue ++ [delivery]
        poll := .sending left }
  | unlock : sub.poll = .sending [] →
      Moves phase log sub .unlock { sub with poll := .receiving }
  | receive {delivery : Delivery} {queue : List Delivery} : sub.poll = .receiving →
      sub.queue = delivery :: queue →
      Moves phase log sub .receive { sub with
        queue, poll := .holding delivery, events := .took delivery :: sub.events }
  | waits : sub.poll = .receiving → sub.queue = [] →
      Moves phase log sub .receive { sub with poll := .idle }
  | refuse {delivery : Delivery} {error : KinesisError} : sub.poll = .holding delivery →
      deliver delivery = .error error →
      Moves phase log sub .hand { sub with consumed := sub.consumed + 1, poll := .idle }
  | hand {delivery : Delivery} {received : Received} : sub.poll = .holding delivery →
      deliver delivery = .ok received →
      Moves phase log sub .hand { sub with out := sub.out ++ [delivery], poll := .idle }
  | drop {k : Nat} {delivery : Delivery} : sub.out[k]? = some delivery →
      Moves phase log sub (.drop k) { sub with
        consumed := sub.consumed + 1
        out := sub.out.eraseIdx k }

theorem Moves.stream (h : Moves phase log sub a sub') : sub'.stream = sub.stream := by
  cases h <;> rfl

theorem Moves.alive (h : Moves phase log sub a sub') : sub'.alive = sub.alive := by
  cases h <;> rfl

/-- A dropped subscription polls no more. -/
theorem Moves.idle (h : Moves phase log sub a sub') (halive : sub.alive = false)
    (hidle : sub.poll = .idle) : sub'.poll = .idle ∧ sub'.queue = sub.queue := by
  cases h with
  | seek _ | planned _ _ | refused _ | count _ _ | swap _ | release _ | wake _ | drop _ =>
    exact ⟨hidle, rfl⟩
  | take hliving _ _ | pass hliving _ _ => cases hliving.symm.trans halive
  | reposition hpoll | grow hpoll _ | counted hpoll _ | drain hpoll _ | empty hpoll _
  | consume hpoll | replay hpoll | unlock hpoll | receive hpoll _ | waits hpoll _
  | refuse hpoll _ | hand hpoll _ => cases hpoll.symm.trans hidle

theorem seekStep_moves (h : sub.seekStep phase log a = some sub') :
    Moves phase log sub a sub' := by
  cases a with
  | seek position =>
    simp only [seekStep] at h
    split_ifs at h with hphase
    obtain rfl := Option.some.inj h
    exact .seek position hphase
  | plan k =>
    simp only [seekStep] at h
    split at h
    · rename_i hk
      split at h
      · rename_i hplan
        obtain rfl := Option.some.inj h
        exact .planned hk hplan
      · obtain rfl := Option.some.inj h
        exact .refused hk
    · cases h
  | count k =>
    simp only [seekStep] at h
    split at h
    · rename_i hk
      split_ifs at h with hlt
      obtain rfl := Option.some.inj h
      exact .count hk hlt
    · cases h
  | swap k =>
    simp only [seekStep] at h
    split at h
    · rename_i hk
      split_ifs at h with hfull
      obtain rfl := Option.some.inj h
      exact .swap (hfull ▸ hk)
    · cases h
  | release k =>
    simp only [seekStep] at h
    split at h
    · rename_i hk
      obtain rfl := Option.some.inj h
      exact .release hk
    · cases h
  | wake k =>
    simp only [seekStep] at h
    split at h
    · rename_i hk
      obtain rfl := Option.some.inj h
      exact .wake hk
    · cases h
  | _ => cases h

theorem pollStep_moves (h : sub.pollStep phase log a = some sub') :
    Moves phase log sub a sub' := by
  cases a with
  | take =>
    simp only [pollStep] at h
    split_ifs at h with hidle
    split at h
    · rename_i hpending
      obtain rfl := Option.some.inj h
      exact .take hidle.1 hidle.2 hpending
    · rename_i hpending
      obtain rfl := Option.some.inj h
      exact .pass hidle.1 hidle.2 hpending
  | reposition =>
    simp only [pollStep] at h
    split at h
    · rename_i hpoll
      obtain rfl := Option.some.inj h
      exact .reposition hpoll
    · cases h
  | grow =>
    simp only [pollStep] at h
    split at h
    · rename_i hpoll
      split_ifs at h with hlt
      obtain rfl := Option.some.inj h
      exact .grow hpoll hlt
    · cases h
  | drain =>
    simp only [pollStep] at h
    split at h
    · rename_i hpoll
      split_ifs at h with hlt
      obtain rfl := Option.some.inj h
      exact .counted hpoll (Nat.not_lt.mp hlt)
    · rename_i hpoll
      split at h
      · rename_i hqueue
        obtain rfl := Option.some.inj h
        exact .drain hpoll hqueue
      · rename_i hqueue
        obtain rfl := Option.some.inj h
        exact .empty hpoll hqueue
    · cases h
  | consume =>
    simp only [pollStep] at h
    split at h
    · rename_i hpoll
      obtain rfl := Option.some.inj h
      exact .consume hpoll
    · cases h
  | replay =>
    simp only [pollStep] at h
    split at h
    · rename_i hpoll
      obtain rfl := Option.some.inj h
      exact .replay hpoll
    · cases h
  | unlock =>
    simp only [pollStep] at h
    split at h
    · rename_i hpoll
      obtain rfl := Option.some.inj h
      exact .unlock hpoll
    · cases h
  | receive =>
    simp only [pollStep] at h
    split at h
    · rename_i hpoll hqueue
      obtain rfl := Option.some.inj h
      exact .receive hpoll hqueue
    · rename_i hpoll hqueue
      obtain rfl := Option.some.inj h
      exact .waits hpoll hqueue
    · cases h
  | hand =>
    simp only [pollStep] at h
    split at h
    · rename_i hpoll
      split at h
      · rename_i herror
        obtain rfl := Option.some.inj h
        exact .refuse hpoll herror
      · rename_i hok
        obtain rfl := Option.some.inj h
        exact .hand hpoll hok
    · cases h
  | drop k =>
    simp only [pollStep] at h
    split_ifs at h with hlt
    obtain rfl := Option.some.inj h
    exact .drop (List.getElem?_eq_getElem hlt)
  | _ => cases h

theorem act_moves (h : sub.act phase log a = some sub') : Moves phase log sub a sub' := by
  rcases Option.or_eq_some_iff.mp h with h | ⟨_, h⟩
  · exact seekStep_moves h
  · exact pollStep_moves h

end Sub

/-- A step on a subscription locks the log for a reposition, unlocks it, or leaves it. -/
theorem Lock.after_cases {lock lock' : Lock} {s : Nat} {a : SubAct}
    (h : lock.after s a = some lock') :
    (a ≠ .reposition ∧ lock' = lock) ∨
      (a = .reposition ∧ lock = .free ∧ lock' = .poll s) ∨
      (a = .unlock ∧ lock = .poll s ∧ lock' = .free) := by
  cases a with
  | plan k =>
    simp only [Lock.after] at h
    split_ifs at h with hfree
    exact Or.inl ⟨nofun, (Option.some.inj h).symm.trans hfree.symm⟩
  | reposition =>
    simp only [Lock.after] at h
    split_ifs at h with hfree
    exact Or.inr (Or.inl ⟨rfl, hfree, (Option.some.inj h).symm⟩)
  | unlock =>
    simp only [Lock.after] at h
    split_ifs at h with hpoll
    exact Or.inr (Or.inr ⟨rfl, hpoll, (Option.some.inj h).symm⟩)
  | _ => exact Or.inl ⟨nofun, (Option.some.inj h).symm⟩

namespace Bus

/-- What a step of the bus can do, guards included. -/
inductive Moves (b : Bus) : Act → Bus → Prop where
  | tick (millis : Nat) : Moves b (.tick millis) { b with clock := b.clock + millis }
  | subscribe (stream : String) : b.phase = .opened →
      Moves b (.subscribe stream) { b with opening := b.opening ++ [stream] }
  | register {k : Nat} {stream : String} : b.opening[k]? = some stream → b.lock = .free →
      Moves b (.register k) { b with
        opening := b.opening.eraseIdx k
        registry := b.subs.length :: b.registry
        subs := b.subs ++ [{ stream, events := [.subscribed (b.records stream).length] }] }
  | append (stream partitionKey : String) (data : List UInt8) : b.phase = .opened →
      Moves b (.append stream partitionKey data)
        { b with appends := b.appends ++ [.opened stream partitionKey data] }
  | stamp {k : Nat} {stream partitionKey : String} {data : List UInt8} :
      b.appends[k]? = some (.opened stream partitionKey data) →
      Moves b (.stamp k)
        { b with appends := b.appends.set k (.stamped stream ⟨partitionKey, data, b.clock⟩) }
  | push {k : Nat} {order : List Nat} {stream : String} {record : Record} :
      b.appends[k]? = some (.stamped stream record) → b.lock = .free → order.Perm b.registry →
      Moves b (.push k order) { b with
        appends := b.appends.eraseIdx k
        records := Function.update b.records stream (b.records stream ++ [record])
        lock := .append ⟨record, (b.records stream).length⟩ stream order false }
  | send {delivery : Delivery} {s : Nat} {left : List Nat} {sub : Sub} :
      b.lock = .append delivery sub.stream (s :: left) false → b.subs[s]? = some sub →
      sub.alive = true →
      Moves b .fan { b with
        subs := b.subs.set s { sub with queue := sub.queue ++ [delivery] }
        lock := .append delivery sub.stream (s :: left) true }
  | skip {delivery : Delivery} {stream : String} {s : Nat} {left : List Nat} {sub : Sub} :
      b.lock = .append delivery stream (s :: left) false → b.subs[s]? = some sub →
      ¬ (sub.stream = stream ∧ sub.alive = true) →
      Moves b .fan { b with lock := .append delivery stream left false }
  | count {delivery : Delivery} {stream : String} {s : Nat} {left : List Nat} {sub : Sub} :
      b.lock = .append delivery stream (s :: left) true → b.subs[s]? = some sub →
      Moves b .fan { b with
        subs := b.subs.set s { sub with enqueued := sub.enqueued + 1 }
        lock := .append delivery stream left false }
  | finish {delivery : Delivery} {stream : String} {sent : Bool} :
      b.lock = .append delivery stream [] sent → Moves b .fan { b with lock := .free }
  | sub {s : Nat} {a : SubAct} {old new : Sub} {lock : Lock} : b.subs[s]? = some old →
      b.lock.after s a = some lock → old.Moves b.phase (b.records old.stream) a new →
      Moves b (.sub s a) { b with subs := b.subs.set s new, lock }
  | part {s : Nat} {sub : Sub} : b.subs[s]? = some sub → b.lock = .free → sub.alive = true →
      sub.poll = .idle →
      Moves b (.part s) { b with
        registry := b.registry.erase s
        subs := b.subs.set s { sub with alive := false, queue := [] } }
  | shut :
      Moves b .shut { b with phase := if b.phase = .opened then .closing else b.phase }
  | clear : b.lock = .free → b.phase ≠ .opened →
      Moves b .clear { b with registry := [], records := fun _ => [], phase := .closed }

theorem step_moves {b b' : Bus} {a : Act} (h : b.step a = some b') : Moves b a b' := by
  cases a with
  | tick millis =>
    obtain rfl := Option.some.inj h
    exact .tick millis
  | subscribe stream =>
    simp only [step] at h
    split_ifs at h with hphase
    obtain rfl := Option.some.inj h
    exact .subscribe stream hphase
  | register k =>
    simp only [step] at h
    split at h
    · rename_i hk
      split_ifs at h with hfree
      obtain rfl := Option.some.inj h
      exact .register hk hfree
    · cases h
  | append stream partitionKey data =>
    simp only [step] at h
    split_ifs at h with hphase
    obtain rfl := Option.some.inj h
    exact .append stream partitionKey data hphase
  | stamp k =>
    simp only [step] at h
    split at h
    · rename_i hk
      obtain rfl := Option.some.inj h
      exact .stamp hk
    · cases h
  | push k order =>
    simp only [step] at h
    split at h
    · rename_i hk
      split_ifs at h with hfree
      obtain rfl := Option.some.inj h
      exact .push hk hfree.1 hfree.2
    · cases h
  | fan =>
    simp only [step] at h
    split at h
    · rename_i hlock
      unfold visit at h
      split at h
      · cases h
      · rename_i sub hsub
        split_ifs at h with hto
        · obtain rfl := Option.some.inj h
          obtain ⟨rfl, halive⟩ := hto
          exact .send hlock hsub halive
        · obtain rfl := Option.some.inj h
          exact .skip hlock hsub hto
    · rename_i hlock
      split at h
      · rename_i hsub
        obtain rfl := Option.some.inj h
        exact .count hlock hsub
      · cases h
    · rename_i hlock
      obtain rfl := Option.some.inj h
      exact .finish hlock
    · cases h
  | sub s a =>
    simp only [step] at h
    split at h
    · rename_i hsub hlock
      obtain ⟨new, hnew, rfl⟩ := Option.map_eq_some_iff.mp h
      exact .sub hsub hlock (Sub.act_moves hnew)
    · cases h
  | part s =>
    simp only [step] at h
    split at h
    · rename_i hsub
      split_ifs at h with hfree
      obtain rfl := Option.some.inj h
      exact .part hsub hfree.1 hfree.2.1 hfree.2.2
    · cases h
  | shut =>
    obtain rfl := Option.some.inj h
    exact .shut
  | clear =>
    simp only [step] at h
    split_ifs at h with hfree
    obtain rfl := Option.some.inj h
    exact .clear hfree.1 hfree.2

end Bus

end RuststreamKinesis.InProcess
