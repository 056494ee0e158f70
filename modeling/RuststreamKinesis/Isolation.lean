import RuststreamKinesis.Calls

/-!
# What a seek isolates

A seek bumps the gate of the live reader before it sends its command. What was handed out under
the old epoch neither reaches the consumer nor settles any more, unless it had passed its gate
check already. What the bump does not cover, because an earlier reader handed it out or the same
one under the new epoch, has to be settled or stale when the seek returns.
-/

namespace RuststreamKinesis

set_option autoImplicit false

open Runs

/-- The settlement of the delivery is not between its gate check and its write, and one that may
still come is kept off by the bump of the call or was by another. -/
def Delivery.restsAt (d : Delivery) (id : Nat) (c : SeekCall) (gates : List Nat) : Bool :=
  match d.phase with
  | .checked | .writing _ => false
  | .queued | .held => (d.gate == c.gate && decide (id < c.before)) ||
    decide (gates[d.gate]? ≠ some d.epoch)
  | _ => true

namespace Subscription

variable {Owner : Type} [DecidableEq Owner] {u u' : Subscription} {owner : Owner} {shard : Shard}
variable {lease lease' : MemoryLease Owner} {a : SubAct} {id : Nat} {c c' : SeekCall}
variable {d : Delivery}

/-- A seek returns without an error when all that is old to it is at rest. -/
def returnsAtRest (u : Subscription) (a : SubAct) : Bool :=
  (u.returns a).all fun c =>
    !c.ok || u.deliveries.zipIdx.all fun (d, id) => !c.old d || d.restsAt id c u.gates

theorem returnsAtRest_get (h : returnsAtRest u a = true) (hc : u.returns a = some c)
    (hok : c.ok = true) (hd : u.deliveries[id]? = some d) (hold : c.old d = true) :
    d.restsAt id c u.gates = true := by
  simp only [returnsAtRest, hc, Option.all_some, hok, Bool.not_true, Bool.false_or,
    List.all_eq_true] at h
  have hrest := h (d, id) (List.mk_mem_zipIdx_iff_getElem?.mpr hd)
  simpa [hold] using hrest

/-- The delivery will not write a checkpoint any more. -/
structure Spent (u : Subscription) (d : Delivery) : Prop where
  checked : d.phase ≠ .checked
  writing : ∀ c, d.phase ≠ .writing c
  behind : d.phase = .queued ∨ d.phase = .held → Behind u d.gate d.epoch

theorem Spent.fate {phase : Phase} (h : Spent u d) (hg : Gated u u' a)
    (hf : Fate u a id d phase) : Spent u' { d with phase := phase } := by
  cases hf with
  | same hp =>
    subst hp
    exact ⟨h.checked, h.writing, fun hp => (h.behind hp).gated hg⟩
  | received _ hp => exact ⟨by simp, by simp, fun _ => (h.behind (.inl hp)).gated hg⟩
  | checked _ hp hcur => exact absurd hcur (h.behind (.inr hp)).stale
  | told _ hp => exact absurd hp h.checked
  | settled _ hp => exact absurd hp (h.writing _)
  | discarded | stale | unsettled => exact ⟨by simp, by simp, by simp⟩

theorem Spent.of_rest (h : d.restsAt id c u.gates = true) (hs : Stamps u d.gate d.epoch)
    (hb : d.gate = c.gate → id < c.before → Behind u d.gate d.epoch) : Spent u d := by
  have hbehind : ((d.gate == c.gate && decide (id < c.before)) ||
      decide (u.gates[d.gate]? ≠ some d.epoch)) = true → Behind u d.gate d.epoch := by
    intro hrest
    rcases Bool.or_eq_true_iff.mp hrest with hbump | hstale
    · obtain ⟨hg, hlt⟩ := Bool.and_eq_true_iff.mp hbump
      exact hb (beq_iff_eq.mp hg) (of_decide_eq_true hlt)
    · exact hs.behind (of_decide_eq_true hstale)
  unfold Delivery.restsAt at h
  refine ⟨?_, ?_, ?_⟩
  · intro hp
    simp [hp] at h
  · intro c hp
    simp [hp] at h
  · rintro (hp | hp)
    · exact hbehind (by simpa [hp] using h)
    · exact hbehind (by simpa [hp] using h)

/-- What a call has put behind it with its bump. -/
structure Bumped (u : Subscription) : Prop where
  generations : Generations u
  behind : ∀ c ∈ u.calls, ∀ i d, i < c.before → u.deliveries[i]? = some d → d.gate = c.gate →
    Behind u d.gate d.epoch

theorem Bumped.step (h : Bumped u) (hs : Step u owner shard lease a lease' u') : Bumped u' := by
  have hgated := hs.gated
  have hgens := h.generations
  refine ⟨hgens.step hs, ?_⟩
  intro c' hc' i d' hi hd' hg
  -- what was handed out before a call was there before the step
  have old : ∀ c ∈ u.calls, i < c.before → d'.gate = c.gate → Behind u' d'.gate d'.epoch := by
    intro c hc hi hg
    have hlt : i < u.deliveries.length := Nat.lt_of_lt_of_le hi (hgens.before c hc)
    have hd := List.getElem?_eq_getElem hlt
    obtain ⟨phase, hget, _⟩ := hs.fate hd
    obtain rfl := Option.some.inj (hd'.symm.trans hget)
    exact (h.behind c hc i _ hi hd hg).gated hgated
  cases hgated with
  | quiet _ hcs | fresh _ hcs => exact old c' (hcs ▸ hc') hi hg
  | found _ hcs hb =>
    rw [hcs] at hc'
    rcases Cells.mem_push hc' with hc' | rfl
    · exact old c' hc' hi hg
    · omega
  | @bumped call epoch c hget hp he hgs hcs ha =>
    rw [hcs] at hc'
    rcases Cells.mem_set hc' with rfl | hc'
    · obtain ⟨phase, hget', _⟩ := hs.fate (List.getElem?_eq_getElem hi)
      obtain rfl := Option.some.inj (hd'.symm.trans hget')
      have hstamp := hgens.delivered _ (List.getElem_mem hi)
      exact hstamp.bumped (hg ▸ he) (hg ▸ hgs)
    · exact old c' hc' hi hg
  | applied _ _ hget _ hcs | turned hget _ hcs =>
    rw [hcs] at hc'
    rcases Cells.mem_set hc' with rfl | hc'
    · exact (old _ (List.mem_of_getElem? hget) hi hg :)
    · exact old c' hc' hi hg

/-- What was handed out before a seek that returned without an error is spent. -/
structure Overtaken (u : Subscription) : Prop where
  ranked : Ranked u
  bumped : Bumped u
  spent : ∀ c ∈ u.calls, c.ok = true → ∀ (i : Nat) (d : Delivery),
    u.deliveries[i]? = some d → c.old d = true → Spent u d

theorem Overtaken.init : Overtaken {} := ⟨.init, ⟨.init, by simp⟩, by simp⟩

theorem Overtaken.step (h : Overtaken u) (hs : Step u owner shard lease a lease' u')
    (hrest : returnsAtRest u a = true) : Overtaken u' := by
  refine ⟨h.ranked.step hs, h.bumped.step hs, ?_⟩
  intro c' hc' hok i d' hd' hold
  rcases hs.returns hc' hok with hc | hret
  · rcases hs.delivered hd' with ⟨d, phase, hd, rfl, hf⟩ | ⟨r, hr, hx, hg, hvia⟩
    · exact (h.spent c' hc hok i d hd hold).fate hs.gated hf
    · cases hold.symm.trans (h.ranked.handed hc (SeekCall.fine_of_ok hok) hr hx hg hvia)
  · obtain ⟨hds, hgs⟩ := hs.returning hret
    have hrests := returnsAtRest_get hrest hret hok (hds ▸ hd') hold
    have hbumped := h.bumped.step hs
    refine .of_rest (hgs ▸ hrests) (hbumped.generations.delivered d' (List.mem_of_getElem? hd')) ?_
    intro hg hi
    exact hbumped.behind c' hc' i d' hi hd' hg

end Subscription

namespace System

open Subscription

variable {Owner : Type} [DecidableEq Owner] {owner : Nat → Owner} {s s' : System Owner} {act : Act}

/-- Once a seek returned without an error, settling what was read before leaves the checkpoint
alone. -/
def SeekIsolates (owner : Nat → Owner) (s : System Owner) : Prop :=
  ∀ (x call id : Nat) (c : SeekCall) (d : Delivery) (a : SubAct) (s' : System Owner),
    (s.subs x).calls[call]? = some c → c.ok = true →
    (s.subs x).deliveries[id]? = some d → c.old d = true →
    a = .ack id ∨ a = .settle id ∨ (∃ ok, a = .write id ok) →
    s.step owner (.sub x a) = some s' → s'.lease.checkpoint = s.lease.checkpoint

/-- The seek isolates the checkpoint in every run in which the seeks return at rest. -/
theorem seek_isolates_checkpoint {shard : Shard} {lease : MemoryLease Owner}
    (h : Run (step owner) (fun s act => s.each returnsAtRest act = true) (fresh shard lease) s) :
    SeekIsolates owner s := by
  intro x call id c d a s' hcall hok hd hold hact hstep
  have hovertaken : Overtaken (s.subs x) := run_each .init (fun hu hp hs => hu.step hs hp) h x
  have hspent := hovertaken.spent c (List.mem_of_getElem? hcall) hok id d hd hold
  have hsub := sub_cases hstep
  generalize (s'.subs x) = u' at hsub
  generalize s'.lease = lease' at hsub ⊢
  rcases hact with rfl | rfl | ⟨ok, rfl⟩
  · cases hsub <;> rfl
  · cases hsub
    rfl
  · cases hsub with
    | written hd' hwriting | notWritten hd' hwriting =>
      obtain rfl := Option.some.inj (hd.symm.trans hd')
      exact absurd hwriting (hspent.writing _)

/-- A record is handed out and acked; a seek to the horizon comes between the gate check of the
ack and its write. -/
def seekDuringAck : List Act :=
  opening 0 .opens 0 ++ [.append [1]] ++ reading 0 1 false ++
    [.sub 0 (.reader (.recordOpening true)), .sub 0 (.reader .handOut),
      .sub 0 (.reader .batchDone), .sub 0 .poll, .sub 0 (.ack 0),
      .sub 0 (.install .horizon), .sub 0 (.find (.stream .horizon)), .sub 0 (.bump 0),
      .sub 0 (.send 0), .sub 0 (.reader .checkClosed), .sub 0 (.reader .takeSeek),
      .sub 0 (.reader (.applySeek .iterator)), .sub 0 (.settle 0), .sub 0 (.answer 0)]

theorem seek_isolates_checkpoint_fails : ∃ s : System Nat,
    exec (step id) (System.init {}) seekDuringAck = some s ∧ ¬ SeekIsolates id s := by
  have hrun : ((exec (step id) (System.init {}) seekDuringAck).bind fun s =>
      (s.step id (.sub 0 (.write 0 true))).map fun s' =>
        ((s.subs 0).calls[0]?, (s.subs 0).deliveries[0]?, s.lease.checkpoint,
          s'.lease.checkpoint)) =
      some (some ⟨0, .stream .horizon, 1, .returned (.moved 1)⟩,
        some ⟨0, 0, 0, 0, 0, 0, .writing 0⟩, none, some (.sequence 0)) := by
    decide
  obtain ⟨s, hs, hrun⟩ := Option.bind_eq_some_iff.mp hrun
  obtain ⟨s', hs', hrun⟩ := Option.map_eq_some_iff.mp hrun
  obtain ⟨hcall, hrun⟩ := Prod.mk.inj hrun
  obtain ⟨hd, hrow⟩ := Prod.mk.inj hrun
  obtain ⟨hrow, hrow'⟩ := Prod.mk.inj hrow
  refine ⟨s, hs, ?_⟩
  intro h
  have heq := h 0 0 0 _ _ _ s' hcall rfl hd rfl (.inr (.inr ⟨true, rfl⟩)) hs'
  rw [hrow, hrow'] at heq
  cases heq

/-- The same seek when the ack has come to its end before. -/
def seekAfterAck : List Act :=
  opening 0 .opens 0 ++ [.append [1]] ++ reading 0 1 false ++
    [.sub 0 (.reader (.recordOpening true)), .sub 0 (.reader .handOut),
      .sub 0 (.reader .batchDone), .sub 0 .poll] ++ acking 0 0 ++
    [.sub 0 (.install .horizon), .sub 0 (.find (.stream .horizon)), .sub 0 (.bump 0),
      .sub 0 (.send 0), .sub 0 (.reader .checkClosed), .sub 0 (.reader .takeSeek),
      .sub 0 (.reader (.applySeek .iterator)), .sub 0 (.answer 0)]

theorem seek_isolates_checkpoint_settled : ∃ s : System Nat,
    exec (step id) (System.init {}) seekAfterAck = some s ∧ SeekIsolates id s := by
  have hrun : (check (step id) (each returnsAtRest) (System.init {}) seekAfterAck).isSome =
      true := by decide
  obtain ⟨s, hs⟩ := Option.isSome_iff_exists.mp hrun
  exact ⟨s, exec_of_check hs, seek_isolates_checkpoint (.of_check hs)⟩

end System

end RuststreamKinesis
