import RuststreamKinesis.Gates
import RuststreamKinesis.Order

/-!
# What the consumer receives of a shard

The channel between a shard's readers and the consumer hands the deliveries over in the order they
were handed out, each at most once. It drops none of them but those a seek has left behind.
-/

namespace RuststreamKinesis

set_option autoImplicit false

open Runs

namespace Subscription

variable {Owner : Type} [DecidableEq Owner] {u u' : Subscription} {owner : Owner} {shard : Shard}
variable {lease lease' : MemoryLease Owner} {r : Reader} {act : ReaderAct} {a : SubAct}
variable {received : List Nat}

/-- The sequence number of the delivery an item of the channel carries. -/
def carries (u : Subscription) (stamped : Stamped) : Option Nat :=
  match stamped.item with
  | .delivery id => u.sequences[id]?
  | _ => none

/-- The deliveries in the channel. -/
def waiting (u : Subscription) : List Nat := u.queue.filterMap u.carries

/-- What a step hands over to the consumer. -/
def got (u : Subscription) : SubAct → List Nat
  | .poll =>
    match u.closed, u.queue with
    | false, stamped :: _ => if stamped.current u.gates then (u.carries stamped).toList else []
    | _, _ => []
  | _ => []

/-- What a step does to the channel. -/
inductive Passing (u u' : Subscription) (a : SubAct) : Prop where
  | same (hg : u.got a = []) (hw : u'.waiting = u.waiting) (hs : u'.sequences = u.sequences)
  | handed {n : Nat} (hg : u.got a = []) (hw : u'.waiting = u.waiting ++ [n])
      (hs : u'.sequences = u.sequences ++ [n])
  | received {n : Nat} (hg : u.got a = [n]) (hw : u.waiting = n :: u'.waiting)
      (hs : u'.sequences = u.sequences)
  | stale {n gate e : Nat} (hg : u.got a = []) (hw : u.waiting = n :: u'.waiting)
      (hs : u'.sequences = u.sequences) (he : u.gates[gate]? = some e) (hne : e ≠ 0)
  | left (hg : u.got a = []) (hw : u'.waiting = []) (hs : u'.sequences = u.sequences)
      (hc : u'.closed = true)

theorem carries_congr (hs : u'.sequences = u.sequences) : u'.carries = u.carries := by
  funext stamped
  simp only [carries, hs]

theorem waiting_congr (hq : u'.queue = u.queue) (hs : u'.sequences = u.sequences) :
    u'.waiting = u.waiting := by
  rw [waiting, waiting, hq, carries_congr hs]

theorem waiting_push {stamped : Stamped} (hq : u'.queue = u.queue ++ [stamped])
    (hs : u'.sequences = u.sequences) (hitem : ∀ id, stamped.item ≠ .delivery id) :
    u'.waiting = u.waiting := by
  have hnone : u.carries stamped = none := by
    unfold carries
    split
    · rename_i id he
      exact absurd he (hitem id)
    · rfl
  rw [waiting, waiting, hq, carries_congr hs, List.filterMap_append]
  simp [hnone]

theorem ReaderStep.passing (h : ReaderStep u owner shard lease r act lease' u')
    (hg : Generations u) : Passing u u' (.reader act) := by
  cases h with
  | @handedOut epoch next stop last idle record tracker =>
    refine .handed (n := next) rfl ?_ (by simp [sequences])
    have hbound : ∀ stamped ∈ u.queue, ∀ id, stamped.item = .delivery id →
        id < u.sequences.length := by
      intro stamped hmem id hitem
      obtain ⟨d, hd, -⟩ := hg.queued stamped hmem id hitem
      simpa [sequences] using (List.getElem?_eq_some_iff.mp hd).1
    rw [waiting, waiting]
    simp only [goto, push]
    rw [List.filterMap_append]
    congr 1
    · refine List.filterMap_congr fun stamped hmem => ?_
      unfold carries
      split
      · rename_i id hitem
        simp only [sequences, List.map_append]
        exact List.getElem?_append_left (hbound stamped hmem id hitem)
      · rfl
    · simp [carries, sequences]
  | rowFail | openFail | fatal | gaveUp | retry =>
    exact .same rfl (waiting_push rfl rfl (by simp)) rfl
  | refusedRecord => exact .same rfl (waiting_push rfl rfl (by simp)) rfl
  | _ => exact .same rfl (waiting_congr rfl rfl) rfl

theorem Step.passing (h : Step u owner shard lease a lease' u') (hg : Generations u) :
    Passing u u' a := by
  cases h with
  | reader _ h => exact h.passing hg
  | reported => exact .same rfl (waiting_push rfl rfl (by simp)) rfl
  | leave => exact .left rfl rfl sequences_leave rfl
  | @pollDelivery id d stamped rest hopen hq hitem hd hphase =>
    have hseq : u.sequences[id]? = some d.sequence := by rw [sequences, List.getElem?_map, hd]; rfl
    have hcarry : u.carries stamped = some d.sequence := by simp only [carries, hitem, hseq]
    have hw : u.waiting = d.sequence :: rest.filterMap u.carries := by
      rw [waiting, hq, List.filterMap_cons, hcarry]
    have hs : ∀ phase, (u.setPhase id d phase).sequences = u.sequences :=
      fun _ => sequences_setPhase hd
    have hw' : ∀ v : Subscription, v.queue = rest → v.sequences = u.sequences →
        v.waiting = rest.filterMap u.carries := by
      intro v hv hvs
      rw [waiting, hv, carries_congr hvs]
    cases hcur : stamped.current u.gates with
    | true =>
      refine .received (n := d.sequence) ?_ ?_ ?_
      · simp [got, hopen, hq, hcur, hcarry]
      · refine hw.trans (congrArg (d.sequence :: ·) (hw' _ ?_ ?_).symm)
        · rfl
        · exact hs _
      · exact hs _
    | false =>
      obtain ⟨d', hd', hstamp⟩ := hg.queued stamped (hq ▸ List.mem_cons_self) id hitem
      obtain rfl := Option.some.inj (hd.symm.trans hd')
      obtain ⟨e, he, hle⟩ := hg.delivered d (List.mem_of_getElem? hd)
      have hne : e ≠ 0 := by
        rintro rfl
        have hzero : d.epoch = 0 := Nat.le_zero.mp hle
        simp [Stamped.current, hstamp, he, hzero] at hcur
      refine .stale (n := d.sequence) ?_ ?_ ?_ he hne
      · simp [got, hopen, hq, hcur]
      · refine hw.trans (congrArg (d.sequence :: ·) (hw' _ ?_ ?_).symm)
        · rfl
        · exact hs _
      · exact hs _
  | @pollOther stamped rest hopen hq hitem =>
    have hnone : u.carries stamped = none := by
      unfold carries
      split
      · rename_i id he
        exact absurd he (hitem id)
      · rfl
    refine .same ?_ ?_ rfl
    · simp [got, hopen, hq, hnone]
    · rw [waiting, waiting, hq, List.filterMap_cons, hnone]
      rfl
  | ackCurrent hd | ackStale hd | settled hd | written hd | notWritten hd | refuse hd =>
    exact .same rfl (waiting_congr rfl (sequences_setPhase hd)) (sequences_setPhase hd)
  | _ => exact .same rfl (waiting_congr rfl rfl) rfl

theorem Step.still_open (h : Step u owner shard lease a lease' u') (hopen : u'.closed = false) :
    u.closed = false := by
  cases h with
  | leave => cases hopen
  | reader _ h => cases h <;> exact hopen
  | _ => exact hopen

/-- Received and waiting deliveries are some of those handed out, in their order. -/
theorem Passing.inOrder (h : Passing u u' a) (hin : (received ++ u.waiting).Sublist u.sequences) :
    ((received ++ u.got a) ++ u'.waiting).Sublist u'.sequences := by
  cases h with
  | same hg hw hs =>
    rw [hg, hw, hs, List.append_nil]
    exact hin
  | handed hg hw hs =>
    rw [hg, hw, hs, List.append_nil, ← List.append_assoc]
    exact hin.append_right _
  | received hg hw hs =>
    rw [hw] at hin
    rw [hg, hs, List.append_assoc]
    exact hin
  | stale hg hw hs =>
    rw [hw] at hin
    rw [hg, hs, List.append_nil]
    exact ((List.sublist_cons_self _ _).append_left received).trans hin
  | left hg hw hs =>
    rw [hg, hw, hs, List.append_nil, List.append_nil]
    exact (List.sublist_append_left _ _).trans hin

/-- Where no gate was bumped, what was handed out is received or waits. -/
theorem Passing.complete (h : Passing u u' a)
    (hzero : ∀ gate e : Nat, u.gates[gate]? = some e → e = 0) (hopen : u'.closed = false)
    (hin : received ++ u.waiting = u.sequences) :
    (received ++ u.got a) ++ u'.waiting = u'.sequences := by
  cases h with
  | same hg hw hs => rw [hg, hw, hs, List.append_nil, hin]
  | handed hg hw hs => rw [hg, hw, hs, List.append_nil, ← List.append_assoc, hin]
  | received hg hw hs =>
    rw [hw] at hin
    rw [hg, hs, List.append_assoc]
    exact hin
  | stale _ _ _ he hne => exact absurd (hzero _ _ he) hne
  | left _ _ _ hc => cases hopen.symm.trans hc

end Subscription

namespace System

variable {Owner : Type} [DecidableEq Owner] {owner : Nat → Owner} {s s' : System Owner} {act : Act}
variable {as : List Act} {x : Nat} {before : List Nat} {shard : Shard} {lease : MemoryLease Owner}

/-- What the consumer of instance `x` gets by a step. -/
def got (x : Nat) (s : System Owner) : Act → List Nat
  | .sub y a => if y = x then (s.subs x).got a else []
  | _ => []

/-- The records the consumer of instance `x` receives along a run, in the order it does. -/
def received (owner : Nat → Owner) (x : Nat) (s : System Owner) (as : List Act) : List Nat :=
  labels (step owner) (got x) s as

/-- Some seek bumps a gate of instance `x`. -/
def bumps (x : Nat) : Act → Bool
  | .sub y (.bump _) => y == x
  | _ => false

theorem step_passing (h : s.step owner act = some s') (hg : (s.subs x).Generations) :
    (∃ a, Subscription.Passing (s.subs x) (s'.subs x) a ∧ got x s act = (s.subs x).got a) ∨
      (s'.subs x = s.subs x ∧ got x s act = []) := by
  rcases (step_cases h).at x with hsame | ⟨a, rfl, hstep⟩
  · cases act with
    | sub y a =>
      by_cases hy : y = x
      · subst hy
        refine .inl ⟨a, ?_, by simp only [got, ite_true]⟩
        exact (sub_cases h).passing hg
      · exact .inr ⟨hsame, by simp only [got, if_neg hy]⟩
    | _ => exact .inr ⟨hsame, rfl⟩
  · exact .inl ⟨a, hstep.passing hg, by simp only [got, ite_true]⟩

theorem generations_step (h : s.step owner act = some s') (hg : (s.subs x).Generations) :
    (s'.subs x).Generations := by
  rcases (step_cases h).at x with hsame | ⟨a, -, hstep⟩
  · exact hsame ▸ hg
  · exact hg.step hstep

/-- No gate was bumped so far. -/
def Unbumped (s : System Owner) (x : Nat) : Prop :=
  ∀ gate e : Nat, (s.subs x).gates[gate]? = some e → e = 0

theorem Unbumped.step (hu : s.Unbumped x) (h : s.step owner act = some s')
    (hact : bumps x act = false) : s'.Unbumped x := by
  intro gate e he
  rcases (step_cases h).at x with hsame | ⟨a, rfl, hstep⟩
  · exact hu gate e (hsame ▸ he)
  · cases hstep.gated with
    | quiet hg | found hg | applied _ _ _ hg | turned _ hg => exact hu gate e (hg ▸ he)
    | fresh hg =>
      rw [hg] at he
      rcases Cells.get_push he with he | ⟨-, rfl⟩
      · exact hu gate e he
      · rfl
    | bumped _ _ _ _ _ ha =>
      subst ha
      simp [bumps] at hact

theorem received_run (before : List Nat) (h : exec (step owner) s as = some s')
    (hg : (s.subs x).Generations)
    (hin : (before ++ (s.subs x).waiting).Sublist (s.subs x).sequences) :
    ((before ++ received owner x s as) ++ (s'.subs x).waiting).Sublist
      (s'.subs x).sequences := by
  induction as generalizing s before with
  | nil =>
    obtain rfl := Option.some.inj h
    simpa [received, labels] using hin
  | cons act as ih =>
    obtain ⟨m, hm, hrest⟩ := Option.bind_eq_some_iff.mp h
    rw [received, labels_cons hm, ← List.append_assoc]
    refine ih _ hrest (generations_step hm hg) ?_
    rcases step_passing (x := x) hm hg with ⟨a, hch, hgot⟩ | ⟨hsame, hgot⟩
    · rw [hgot]
      exact hch.inOrder hin
    · rw [hgot, hsame, List.append_nil]
      exact hin

theorem step_closed (h : s.step owner act = some s') (hopen : (s'.subs x).closed = false) :
    (s.subs x).closed = false := by
  rcases (step_cases h).at x with hsame | ⟨a, -, hstep⟩
  · exact hsame ▸ hopen
  · exact hstep.still_open hopen

theorem exec_closed (h : exec (step owner) s as = some s') (hopen : (s'.subs x).closed = false) :
    (s.subs x).closed = false := by
  induction as generalizing s with
  | nil =>
    obtain rfl := Option.some.inj h
    exact hopen
  | cons act as ih =>
    obtain ⟨m, hm, hrest⟩ := Option.bind_eq_some_iff.mp h
    exact step_closed hm (ih hrest)

theorem received_all (before : List Nat) (h : exec (step owner) s as = some s')
    (hg : (s.subs x).Generations)
    (hu : s.Unbumped x) (hact : ∀ act ∈ as, bumps x act = false)
    (hopen : (s'.subs x).closed = false)
    (hin : before ++ (s.subs x).waiting = (s.subs x).sequences) :
    (before ++ received owner x s as) ++ (s'.subs x).waiting = (s'.subs x).sequences := by
  induction as generalizing s before with
  | nil =>
    obtain rfl := Option.some.inj h
    simpa [received, labels] using hin
  | cons act as ih =>
    obtain ⟨m, hm, hrest⟩ := Option.bind_eq_some_iff.mp h
    rw [received, labels_cons hm, ← List.append_assoc]
    refine ih _ hrest (generations_step hm hg) (hu.step hm (hact _ List.mem_cons_self))
      (fun act ha => hact act (List.mem_cons_of_mem _ ha)) ?_
    rcases step_passing (x := x) hm hg with ⟨a, hch, hgot⟩ | ⟨hsame, hgot⟩
    · rw [hgot]
      exact hch.complete hu (exec_closed hrest hopen) hin
    · rw [hgot, hsame, List.append_nil]
      exact hin

/-- The consumer receives the deliveries in the order they were handed out, none twice; as long as
no seek is made, every one that it has not received is waiting for it. -/
theorem received_in_order (h : exec (step owner) (fresh shard lease) as = some s) (x : Nat) :
    (received owner x (fresh shard lease) as).Sublist (s.subs x).sequences ∧
      ((∀ act ∈ as, bumps x act = false) → (s.subs x).closed = false →
        received owner x (fresh shard lease) as ++ (s.subs x).waiting = (s.subs x).sequences) := by
  have hstart : (fresh shard lease : System Owner).subs x = {} := rfl
  have hg : ((fresh shard lease : System Owner).subs x).Generations := .init
  constructor
  · have hall := received_run [] h hg (by simp [hstart, Subscription.waiting])
    exact (List.sublist_append_left _ _).trans hall
  · intro hact hopen
    refine received_all [] h hg ?_ hact hopen ?_
    · intro gate e he
      cases he
    · simp [hstart, Subscription.waiting, Subscription.sequences]

/-- Three records are handed out, one of them refused, and one delivery is received. -/
theorem received_in_order_handingOut : ∃ s : System Nat,
    exec (step id) (fresh {} {}) (handingOut ++ [.sub 0 .poll]) = some s ∧
    received id 0 (fresh {} {}) (handingOut ++ [.sub 0 .poll]) ++ (s.subs 0).waiting =
      (s.subs 0).sequences ∧
    (s.subs 0).waiting = [3] := by
  obtain ⟨s, hexec, hopen, hwait⟩ : ∃ s : System Nat,
      exec (step id) (fresh {} {}) (handingOut ++ [.sub 0 .poll]) = some s ∧
      (s.subs 0).closed = false ∧ (s.subs 0).waiting = [3] := ⟨_, rfl, rfl, rfl⟩
  exact ⟨s, hexec, (received_in_order hexec 0).2 (by decide) hopen, hwait⟩

end System

end RuststreamKinesis
