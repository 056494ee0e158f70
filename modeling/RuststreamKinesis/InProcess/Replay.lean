import RuststreamKinesis.InProcess.Order
import RuststreamKinesis.Lib.Simulation
import RuststreamKinesis.Lib.Tape

/-!
# An in-process stream is read as a tape

What a subscription does of its stream's retained log is what a cursor in an append-only log does:
it is put at the tip when the subscription registers and at the target of a plan when a reposition
is applied, and a delivery that is received is the record under it. The entries of the tape are
the data of the records.
-/

namespace RuststreamKinesis.InProcess

set_option autoImplicit false

open Cells Runs

/-- What a step of a subscription does to its cursor. -/
def Sub.shown (sub : Sub) : SubAct → List (Tape.Event (List UInt8))
  | .reposition =>
    match sub.poll with
    | .taken plan => [.move plan.target]
    | _ => []
  | .receive =>
    match sub.poll, sub.queue with
    | .receiving, delivery :: _ => [.take delivery.index delivery.record.data]
    | _, _ => []
  | _ => []

/-- The index of a record that an event took off the queue. -/
def Event.taken : Event → Option (Nat × List UInt8)
  | .took delivery => some (delivery.index, delivery.record.data)
  | _ => none

/-- The records a subscription took off its queue, in the order it did. -/
def Sub.taken (sub : Sub) : List (Nat × List UInt8) := (sub.events.filterMap Event.taken).reverse

namespace Bus

variable {b b' : Bus} {act : Act} {as : List Act} {s : Nat} {name : String}
variable {t : Tape (List UInt8)} {sub : Sub}

/-- What a step shows of the stream `name` and of the subscription `s` to it, so long as the log
is not cleared. -/
def shown (name : String) (s : Nat) (b : Bus) (act : Act) : List (Tape.Event (List UInt8)) :=
  if b.phase = .closed then []
  else
    match act with
    | .push k _ =>
      match b.appends[k]? with
      | some (.stamped stream record) => if stream = name then [.append record.data] else []
      | _ => []
    | .register k =>
      match b.opening[k]? with
      | some stream =>
        if b.subs.length = s ∧ stream = name then [.move (b.records name).length] else []
      | none => []
    | .sub i a =>
      match b.subs[i]? with
      | some sub => if i = s ∧ sub.stream = name then sub.shown a else []
      | none => []
    | _ => []

def data (b : Bus) (name : String) : List (List UInt8) := (b.records name).map Record.data

/-- The tape has the stream's records, with its cursor where the queue of the subscription
begins. -/
structure Tracks (name : String) (s : Nat) (b : Bus) (t : Tape (List UInt8)) : Prop where
  ledger : b.Ledger
  enrolled : b.Enrolled
  follows : ∀ s sub, b.subs[s]? = some sub → b.Follows s sub
  log : b.phase ≠ .closed → t.log = b.data name
  cursor : b.phase ≠ .closed → ∀ sub, b.subs[s]? = some sub → sub.stream = name →
    t.cursor = begins sub.events

theorem shown_closed (h : b.phase = .closed) : b.shown name s act = [] := if_pos h

theorem Moves.phase (hm : Moves b act b') (h : b'.phase ≠ .closed) : b.phase ≠ .closed := by
  cases hm with
  | shut =>
    intro hc
    simp [hc] at h
  | clear => exact absurd rfl h
  | _ => exact h

/-- A step that shows nothing keeps the log of the stream and the place its subscription is at. -/
theorem Tracks.quiet (hf : Tracks name s b t) (hm : Moves b act b')
    (hdata : b'.phase ≠ .closed → b'.data name = b.data name)
    (hcursor : ∀ sub', b'.subs[s]? = some sub' → sub'.stream = name → ∃ sub,
      b.subs[s]? = some sub ∧ sub.stream = sub'.stream ∧ sub.events = sub'.events) :
    Tracks name s b' t where
  ledger := hf.ledger.moves hm
  enrolled := hf.enrolled.moves hm
  follows := follows_step hf.ledger hf.enrolled hf.follows hm
  log h := (hf.log (hm.phase h)).trans (hdata h).symm
  cursor h sub' hsub' hname := by
    obtain ⟨sub, hsub, hstream, hevents⟩ := hcursor sub' hsub' hname
    rw [← hevents]
    exact hf.cursor (hm.phase h) sub hsub (hstream.trans hname)

theorem kept_set {i : Nat} {old new : Sub} (hold : b.subs[i]? = some old)
    (hstream : new.stream = old.stream) (hevents : new.events = old.events) {sub' : Sub}
    (hsub' : (b.subs.set i new)[s]? = some sub') : ∃ sub, b.subs[s]? = some sub ∧
      sub.stream = sub'.stream ∧ sub.events = sub'.events := by
  rcases get_set hsub' with ⟨rfl, rfl⟩ | ⟨-, hsub⟩
  · exact ⟨old, hold, hstream.symm, hevents.symm⟩
  · exact ⟨sub', hsub, rfl, rfl⟩

theorem sub_tracks {a : SubAct} {old new : Sub} {lock : Lock} (hf : Tracks old.stream s b t)
    (hclosed : b.phase ≠ .closed) (hold : b.subs[s]? = some old)
    (hlock : b.lock.after s a = some lock)
    (hm : old.Moves b.phase (b.records old.stream) a new) :
    ∃ t', exec Tape.step t (old.shown a) = some t' ∧
      Tracks old.stream s { b with subs := b.subs.set s new, lock } t' := by
  have hmoves : Moves b (.sub s a) { b with subs := b.subs.set s new, lock } :=
    .sub hold hlock hm
  have hlog := hf.log hclosed
  have hcursor := hf.cursor hclosed old hold rfl
  have htracks : ∀ t', t'.log = t.log → t'.cursor = begins new.events →
      Tracks old.stream s { b with subs := b.subs.set s new, lock } t' := by
    intro t' hlog' hcursor'
    refine ⟨hf.ledger.moves hmoves, hf.enrolled.moves hmoves,
      follows_step hf.ledger hf.enrolled hf.follows hmoves, fun _ => hlog'.trans hlog, ?_⟩
    intro _ sub' hsub' _
    rcases get_set hsub' with ⟨-, rfl⟩ | ⟨hne, -⟩
    · exact hcursor'
    · exact absurd rfl hne
  cases hm with
  | @reposition plan hpoll =>
    have hfol := follows_step hf.ledger hf.enrolled hf.follows hmoves s _ (get_set_self hold)
    have hbound : plan.target ≤ (b.records old.stream).length := (hfol.following hclosed).bound
    refine ⟨{ t with cursor := plan.target }, ?_, htracks _ rfl rfl⟩
    have hlen : plan.target ≤ t.log.length := by simpa [hlog, data] using hbound
    simp [Sub.shown, hpoll, exec, Tape.step_move hlen]
  | @receive delivery rest hpoll hqueue =>
    have hfol := hf.follows s old hold
    have halive : old.alive = true := by
      cases ha : old.alive with
      | true => rfl
      | false => cases hpoll.symm.trans (hfol.idle ha)
    have hsuffix := (hfol.following hclosed).queue halive
    have hahead : old.ahead = delivery :: rest := by simp only [Sub.ahead, hpoll, hqueue]
    rw [hahead, List.cons_append] at hsuffix
    obtain ⟨hindex, hget, -⟩ := suffixFrom_cons hsuffix.symm
    rw [← hcursor] at hindex hget
    have hentry : t.log[delivery.index]? = some delivery.record.data := by
      rw [hlog, data, List.getElem?_map, hindex, hget]
      rfl
    refine ⟨{ t with cursor := delivery.index + 1 }, ?_, htracks _ rfl rfl⟩
    simp [Sub.shown, hpoll, hqueue, exec, Tape.step_take hindex.symm hentry]
  | waits hpoll hqueue =>
    refine ⟨t, ?_, htracks t rfl hcursor⟩
    simp [Sub.shown, hqueue, exec]
  | seek _ | planned _ _ | refused _ | count _ _ | swap _ | release _ | wake _ | take _ _ _
  | pass _ _ _ | grow _ _ | counted _ _ | drain _ _ | empty _ _ | consume _ | replay _
  | unlock _ | refuse _ _ | hand _ _ | drop _ => exact ⟨t, rfl, htracks t rfl hcursor⟩

/-- A step of the bus does to the tape what it shows. -/
theorem step_tracks (h : b.step act = some b') (hf : Tracks name s b t) :
    ∃ t', exec Tape.step t (b.shown name s act) = some t' ∧ Tracks name s b' t' := by
  have hm := step_moves h
  by_cases hclosed : b.phase = .closed
  · rw [shown_closed hclosed]
    exact ⟨t, rfl, hf.ledger.moves hm, hf.enrolled.moves hm,
      follows_step hf.ledger hf.enrolled hf.follows hm, fun hp => absurd hclosed (hm.phase hp),
      fun hp => absurd hclosed (hm.phase hp)⟩
  · have hlog := hf.log hclosed
    cases hm with
    | tick _ | subscribe _ _ | append _ _ _ _ | stamp _ | skip _ _ _ | finish _ | shut =>
      refine ⟨t, by simp only [shown, if_neg hclosed]; rfl,
        hf.quiet (step_moves h) (fun _ => rfl) ?_⟩
      intro sub' hsub' _
      exact ⟨sub', hsub', rfl, rfl⟩
    | send _ hold _ | count _ hold | part hold _ _ _ =>
      refine ⟨t, by simp only [shown, if_neg hclosed]; rfl,
        hf.quiet (step_moves h) (fun _ => rfl) ?_⟩
      intro sub' hsub' _
      refine kept_set hold ?_ ?_ hsub' <;> rfl
    | clear _ _ =>
      refine ⟨t, by simp only [shown, if_neg hclosed]; rfl,
        hf.quiet (step_moves h) (fun hp => absurd rfl hp) ?_⟩
      intro sub' hsub' _
      exact ⟨sub', hsub', rfl, rfl⟩
    | @push k order stream record hk _ _ =>
      simp only [shown, if_neg hclosed, hk]
      by_cases hname : stream = name
      · subst hname
        refine ⟨{ t with log := t.log ++ [record.data] }, by simp [exec, Tape.step], ?_⟩
        refine ⟨hf.ledger.moves (step_moves h), hf.enrolled.moves (step_moves h),
          follows_step hf.ledger hf.enrolled hf.follows (step_moves h), ?_, ?_⟩
        · intro _
          simp [data, hlog]
        · intro _ sub' hsub' hstream
          exact hf.cursor hclosed sub' hsub' hstream
      · refine ⟨t, by simp [hname, exec], hf.quiet (step_moves h) ?_ ?_⟩
        · intro _
          simp [data, Function.update_of_ne (Ne.symm hname)]
        · intro sub' hsub' _
          exact ⟨sub', hsub', rfl, rfl⟩
    | @register k stream hk _ =>
      simp only [shown, if_neg hclosed, hk]
      by_cases hs : b.subs.length = s ∧ stream = name
      · obtain ⟨rfl, rfl⟩ := hs
        have hlen : (b.records stream).length = t.log.length := by simp [hlog, data]
        refine ⟨{ t with cursor := (b.records stream).length }, ?_, ?_⟩
        · simp [exec, Tape.step_move (le_of_eq hlen)]
        · refine ⟨hf.ledger.moves (step_moves h), hf.enrolled.moves (step_moves h),
            follows_step hf.ledger hf.enrolled hf.follows (step_moves h), fun _ => hlog, ?_⟩
          intro _ sub' hsub' _
          rcases get_push hsub' with hsub' | ⟨-, rfl⟩
          · exact absurd (get_lt hsub') (Nat.lt_irrefl _)
          · rfl
      · refine ⟨t, by simp [hs, exec], hf.quiet (step_moves h) (fun _ => rfl) ?_⟩
        intro sub' hsub' hstream
        rcases get_push hsub' with hsub' | ⟨hlen, rfl⟩
        · exact ⟨sub', hsub', rfl, rfl⟩
        · exact absurd ⟨hlen.symm, hstream⟩ hs
    | @sub i a old new lock hold hlock hmove =>
      by_cases hi : i = s ∧ old.stream = name
      · obtain ⟨rfl, rfl⟩ := hi
        simp only [shown, if_neg hclosed, hold, true_and, ite_true]
        exact sub_tracks hf hclosed hold hlock hmove
      · refine ⟨t, by simp [shown, hold, hi, exec], hf.quiet (step_moves h)
          (fun _ => rfl) ?_⟩
        intro sub' hsub' hstream
        rcases get_set hsub' with ⟨rfl, rfl⟩ | ⟨-, hsub⟩
        · exact absurd ⟨rfl, hmove.stream.symm.trans hstream⟩ hi
        · exact ⟨sub', hsub, rfl, rfl⟩

/-- What the subscription `s` to the stream `name` took off its queue. -/
def takenBy (name : String) (s : Nat) (b : Bus) : List (Nat × List UInt8) :=
  match b.subs[s]? with
  | some sub => if sub.stream = name then sub.taken else []
  | none => []

theorem takenBy_some (hsub : b.subs[s]? = some sub) (hname : sub.stream = name) :
    b.takenBy name s = sub.taken := by
  simp only [takenBy, hsub, if_pos hname]

theorem takenBy_set {i : Nat} {old new : Sub} (hold : b.subs[i]? = some old)
    (hsubs : b'.subs = b.subs.set i new) (hstream : new.stream = old.stream) :
    b'.takenBy name s =
      if i = s ∧ old.stream = name then new.taken else b.takenBy name s := by
  by_cases hi : i = s
  · subst hi
    by_cases hname : old.stream = name
    · rw [takenBy_some (by rw [hsubs]; exact get_set_self hold) (hstream.trans hname),
        if_pos ⟨rfl, hname⟩]
    · simp [takenBy, hsubs, get_set_self hold, hold, hstream, hname]
  · simp only [takenBy, hsubs, get_set_ne (Ne.symm hi), hi, false_and, ite_false]

theorem takenBy_kept {i : Nat} {old new : Sub} (hold : b.subs[i]? = some old)
    (hsubs : b'.subs = b.subs.set i new) (hstream : new.stream = old.stream)
    (hevents : new.events = old.events) : b'.takenBy name s = b.takenBy name s := by
  rw [takenBy_set hold hsubs hstream]
  split
  · rename_i hi
    obtain ⟨rfl, hname⟩ := hi
    rw [takenBy_some hold hname, Sub.taken, Sub.taken, hevents]
  · rfl

end Bus

theorem Sub.shown_taken {sub sub' : Sub} {phase : Phase} {log : List Record} {a : SubAct}
    (hm : sub.Moves phase log a sub') :
    sub'.taken = sub.taken ++ (sub.shown a).flatMap Tape.Event.taken := by
  cases hm with
  | @reposition plan hpoll =>
    have hshown : sub.shown .reposition = [.move plan.target] := by simp only [Sub.shown, hpoll]
    rw [hshown]
    exact (List.append_nil _).symm
  | receive hpoll hqueue =>
    simp [Sub.taken, Sub.shown, hpoll, hqueue, Event.taken, Tape.Event.taken]
  | waits hpoll hqueue => simp [Sub.taken, Sub.shown, hqueue]
  | _ => exact (List.append_nil _).symm

namespace Bus

variable {b b' start : Bus} {act : Act} {as : List Act} {s : Nat} {name : String}
variable {t : Tape (List UInt8)} {sub : Sub}

theorem step_taken (h : b.step act = some b') (hopen : b'.phase ≠ .closed) :
    b'.takenBy name s =
      b.takenBy name s ++ (b.shown name s act).flatMap Tape.Event.taken := by
  have hm := step_moves h
  have hclosed : b.phase ≠ .closed := hm.phase hopen
  simp only [shown, if_neg hclosed]
  cases hm with
  | clear _ _ => exact absurd rfl hopen
  | tick _ | subscribe _ _ | append _ _ _ _ | stamp _ | skip _ _ _ | finish _ | shut =>
    exact (List.append_nil _).symm
  | send _ hold _ | count _ hold | part hold _ _ _ =>
    rw [List.flatMap_nil, List.append_nil]
    apply takenBy_kept hold
    · rfl
    · rfl
    · rfl
  | @push k order stream record hk _ _ =>
    simp only [hk]
    split <;> exact (List.append_nil _).symm
  | @register k stream hk _ =>
    have hkept : takenBy name s { b with
        opening := b.opening.eraseIdx k
        registry := b.subs.length :: b.registry
        subs := b.subs ++ [{ stream, events := [.subscribed (b.records stream).length] }] } =
          b.takenBy name s := by
      simp only [takenBy]
      rcases Nat.lt_trichotomy s b.subs.length with hlt | rfl | hgt
      · rw [List.getElem?_append_left hlt]
      · simp [Sub.taken, Event.taken]
      · rw [List.getElem?_eq_none (by simp; omega), List.getElem?_eq_none (by omega)]
    rw [hkept]
    simp only [hk]
    split <;> exact (List.append_nil _).symm
  | @sub i a old new lock hold _ hmove =>
    rw [takenBy_set hold rfl hmove.stream]
    simp only [hold]
    split
    · rename_i hi
      obtain ⟨rfl, hname⟩ := hi
      rw [takenBy_some hold hname]
      exact Sub.shown_taken hmove
    · exact (List.append_nil _).symm

theorem run_tracks (h : exec Bus.step b as = some b') (hf : Tracks name s b t)
    (hopen : b'.phase ≠ .closed) :
    (∃ t', exec Tape.step t (labels Bus.step (shown name s) b as) = some t' ∧
      Tracks name s b' t') ∧ b.phase ≠ .closed ∧
    b'.takenBy name s = b.takenBy name s ++
      (labels Bus.step (shown name s) b as).flatMap Tape.Event.taken := by
  induction as generalizing b t with
  | nil =>
    obtain rfl := Option.some.inj h
    exact ⟨⟨t, rfl, hf⟩, hopen, (List.append_nil _).symm⟩
  | cons act as ih =>
    obtain ⟨m, hm, hrest⟩ := Option.bind_eq_some_iff.mp h
    obtain ⟨t₁, ht₁, hf₁⟩ := step_tracks hm hf
    obtain ⟨⟨t₂, ht₂, hf₂⟩, hopen₁, htaken⟩ := ih hrest hf₁
    rw [labels_cons hm, List.flatMap_append]
    refine ⟨⟨t₂, by rw [exec_append ht₁, ht₂], hf₂⟩, (step_moves hm).phase hopen₁, ?_⟩
    rw [htaken, step_taken hm hopen₁, List.append_assoc]

/-- Until the log is cleared a subscription's queue is, whenever no one holds the lock, the log from
a cursor on, which a run of the bus moves as a tape's; what the consumer holds is what the tape
took. -/
theorem queue_as_tape (hfresh : Fresh start) (h : exec Bus.step start as = some b)
    (hopen : b.phase ≠ .closed) (hsub : b.subs[s]? = some sub) :
    exec Tape.step ⟨start.data sub.stream, 0⟩
        (labels Bus.step (shown sub.stream s) start as) =
      some ⟨b.data sub.stream, begins sub.events⟩ ∧
    (b.lock = .free → sub.alive = true →
      sub.queue = suffixFrom (b.records sub.stream) (begins sub.events)) ∧
    (labels Bus.step (shown sub.stream s) start as).flatMap Tape.Event.taken = sub.taken ∧
    ∀ delivery ∈ sub.out, (delivery.index, delivery.record.data) ∈ sub.taken := by
  have hempty : start.subs[s]? = none := by rw [hfresh.subs]; rfl
  have hstart : Tracks sub.stream s start (⟨start.data sub.stream, 0⟩ : Tape (List UInt8)) := by
    refine ⟨ledger_fresh hfresh, enrolled_fresh hfresh, follows_fresh hfresh, fun _ => rfl, ?_⟩
    intro _ sub' hsub' _
    cases hempty.symm.trans hsub'
  obtain ⟨⟨⟨log, cursor⟩, ht, hf⟩, -, htaken⟩ := run_tracks h hstart hopen
  obtain rfl : log = b.data sub.stream := hf.log hopen
  obtain rfl : cursor = begins sub.events := hf.cursor hopen sub hsub rfl
  refine ⟨ht, (hf.follows s sub hsub).suffix hopen, ?_, ?_⟩
  · rw [takenBy_some hsub rfl] at htaken
    simpa [takenBy, hempty] using htaken.symm
  · intro delivery hd
    have htook := (hf.follows s sub hsub).handed delivery (.inl hd)
    exact List.mem_reverse.mpr (List.mem_filterMap.mpr ⟨_, htook, rfl⟩)

/-- One record is there before the subscription registers and an aggregated one comes after it;
repositioned to the horizon it takes both, and refuses the second. -/
def replaying : List Act :=
  [.append "s" "k" [7], .stamp 0, .push 0 [], .fan, .subscribe "s", .register 0,
    .append "s" "k" (kplMagic ++ [0]), .stamp 0, .push 0 [0], .fan, .fan, .fan,
    .sub 0 (.seek .horizon), .sub 0 (.plan 0), .sub 0 (.count 0), .sub 0 (.count 0),
    .sub 0 (.swap 0), .sub 0 (.wake 0), .sub 0 .take, .sub 0 .reposition, .sub 0 .drain,
    .sub 0 .drain, .sub 0 .consume, .sub 0 .drain, .sub 0 .replay, .sub 0 .replay,
    .sub 0 .unlock, .sub 0 .receive, .sub 0 .hand, .sub 0 .take, .sub 0 .receive,
    .sub 0 .hand]

/-- The cursor of that run: at the tip, back at the horizon, and over both records. -/
theorem queue_as_tape_replaying : ∃ (b : Bus) (sub : Sub),
    exec Bus.step {} replaying = some b ∧ b.subs[0]? = some sub ∧
    exec Tape.step {} (labels Bus.step (shown "s" 0) {} replaying) = some ⟨b.data "s", 2⟩ ∧
    sub.taken = [(0, [7]), (1, kplMagic ++ [0])] := by
  obtain ⟨b, hexec, hphase, sub, hsub, hstream, hbegins, htaken⟩ : ∃ b,
      exec Bus.step {} replaying = some b ∧ b.phase = .opened ∧ ∃ sub, b.subs[0]? = some sub ∧
        sub.stream = "s" ∧ begins sub.events = 2 ∧
        sub.taken = [(0, [7]), (1, kplMagic ++ [0])] :=
    ⟨_, rfl, rfl, _, rfl, rfl, rfl, rfl⟩
  have hopen : b.phase ≠ .closed := by rw [hphase]; simp
  have htape := (queue_as_tape ⟨rfl, rfl, rfl, rfl⟩ hexec hopen hsub).1
  rw [hstream, hbegins] at htape
  exact ⟨b, sub, hexec, hsub, htape, htaken⟩

end Bus

end RuststreamKinesis.InProcess
