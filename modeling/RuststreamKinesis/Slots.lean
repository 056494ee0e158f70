import Mathlib.Data.Set.Function
import RuststreamKinesis.Clients

/-!
# No selection gets another's client

A slot keeps the address of its token from being given out again, so an address names one of the
tokens that are referred to. What a slot holds is then right for the thread and the selection it
was made for, and it stays there for as long as the selection lives.
-/

namespace RuststreamKinesis.Clients

set_option autoImplicit false

open Runs

variable {Config Client : Type}

/-- A thread but for the call it is in. -/
def locals (thread : Thread) : Thread := { thread with call := none }

section Facts
variable (build : Config → Overrides → Client) (s : Clients Config Client)

/-- The client was built for the selection, at its creation or on a thread. -/
def BuiltFor (k : Nat) (thread : Option Nat) (i : Nat) : Prop :=
  ∃ clients, s.selections[k]? = some clients ∧
    s.built[i]? = some ⟨build clients.config clients.overrides, k, thread⟩

/-- What thread `t`, once it is on `runtime`, uses for selection `k`. -/
inductive Fits (t : Nat) (runtime : Option Nat) (k : Nat) : Option Nat → Prop where
  | home {clients : RuntimeClients Config} {r : Nat} : s.selections[k]? = some clients →
      runtime = some r → clients.home = some r → Fits t runtime k none
  | own {clients : RuntimeClients Config} {r home i : Nat} : s.selections[k]? = some clients →
      runtime = some r → clients.home = some home → home ≠ r →
      BuiltFor build s k (some t) i → Fits t runtime k (some i)

/-- What is known at a stage of a call that selection `k` makes on runtime `on`. -/
inductive Stands (t : Nat) (thread : Thread) (k : Nat) (on : Option Nat) : Stage → Prop where
  | finding : Stands t thread k on .finding
  | homing {current : Nat} : thread.torn = false → on = some current →
      (∀ slot ∈ thread.slots, slot.owner ≠ k) → Stands t thread k on (.homing current)
  | choosing {current home : Nat} {clients : RuntimeClients Config} : thread.torn = false →
      on = some current → (∀ slot ∈ thread.slots, slot.owner ≠ k) →
      s.selections[k]? = some clients → clients.home = some home →
      Stands t thread k on (.choosing current home)
  | clearing {passed : Nat} {own : Option Nat} : thread.torn = false →
      (∀ slot ∈ thread.slots, slot.owner ≠ k) → Fits build s t thread.runtime k own →
      Stands t thread k on (.clearing passed own)
  | outside : thread.torn = true ∨ on = none → Stands t thread k on (.serving none)
  | serving {own : Option Nat} : Fits build s t thread.runtime k own →
      Stands t thread k on (.serving own)

structure CallSound (t : Nat) (thread : Thread) (call : WithCall) : Prop where
  alive : 0 < s.strongCount call.selection
  runtime : ∀ r, call.current = some r → thread.runtime = some r
  stands : Stands build s t (locals thread) call.selection call.current call.stage

end Facts

/-- A client of the thread is in its slot, or with the call that is about to push the slot. -/
def Keeps (thread : Thread) (k i : Nat) : Prop :=
  ⟨k, some i⟩ ∈ thread.slots ∨ ∃ current passed,
    thread.call = some ⟨k, current, .clearing passed (some i)⟩

/-- What holds in every state: an address names one of the tokens that are referred to, slots and
calls are right for their thread and selection, and a client built on a thread for a selection
that lives is kept there, so that no second one is built. -/
structure Sound (build : Config → Overrides → Client) (s : Clients Config Client) : Prop where
  homes : ∀ (k : Nat) (clients : RuntimeClients Config), s.selections[k]? = some clients →
    BuiltFor build s k none clients.client
  pinned : Set.InjOn s.address {k | s.held k = true}
  slots : ∀ (t : Nat) (thread : Thread), s.threads[t]? = some thread →
    ∀ slot ∈ thread.slots, Fits build s t thread.runtime slot.owner slot.own
  calls : ∀ (t : Nat) (thread : Thread) (call : WithCall), s.threads[t]? = some thread →
    thread.call = some call → CallSound build s t thread call
  placed : ∀ (i t : Nat) (b : Built Client), s.built[i]? = some b → b.thread = some t →
    b.selection < s.selections.length ∧ t < s.threads.length
  kept : ∀ (i t : Nat) (b : Built Client) (thread : Thread), s.built[i]? = some b →
    b.thread = some t → 0 < s.strongCount b.selection → s.threads[t]? = some thread →
    thread.torn = false → Keeps thread b.selection i
  once : ∀ (i j t : Nat) (b c : Built Client), s.built[i]? = some b → s.built[j]? = some c →
    b.thread = some t → c.thread = some t → b.selection = c.selection → i = j

/-- Selections keep what they are made of, and clients are only added. -/
structure Grows (s s' : Clients Config Client) : Prop where
  selections : ∀ (k : Nat) (clients : RuntimeClients Config), s.selections[k]? = some clients →
    ∃ clients', s'.selections[k]? = some clients' ∧ clients'.config = clients.config ∧
      clients'.overrides = clients.overrides ∧ clients'.client = clients.client ∧
      clients'.address = clients.address ∧
      ∀ home, clients.home = some home → clients'.home = some home
  built : ∀ (i : Nat) (b : Built Client), s.built[i]? = some b → s'.built[i]? = some b

variable {build : Config → Overrides → Client} {s s' : Clients Config Client}
variable {a : ClientsAct Config} {t k i j : Nat} {thread thread' : Thread} {call : WithCall}
variable {runtime own : Option Nat} {slot : Slot}

theorem Grows.same (hselections : s'.selections = s.selections) (hbuilt : s'.built = s.built) :
    Grows s s' := by
  constructor
  · intro k clients hclients
    exact ⟨clients, hselections ▸ hclients, rfl, rfl, rfl, rfl, fun _ => id⟩
  · intro i b hb
    exact hbuilt ▸ hb

theorem Moves.grows (hm : Moves build s a s') : Grows s s' := by
  cases hm with
  | thread | tore _ _ | called _ _ _ | next _ _ _ _ | removed _ _ _ _ _ | pushed _ _ _ _
  | served _ _ _ => exact .same rfl rfl
  | created _ _ =>
    constructor
    · intro k clients hclients
      exact ⟨clients, Cells.get_push_old hclients, rfl, rfl, rfl, rfl, fun _ => id⟩
    · intro i b hb
      exact Cells.get_push_old hb
  | @dropped k old hold _ =>
    refine ⟨?_, fun _ _ => id⟩
    intro j clients hclients
    by_cases hj : j = k
    · subst hj
      obtain rfl := Option.some.inj (hold.symm.trans hclients)
      exact ⟨_, Cells.get_set_self hold, rfl, rfl, rfl, rfl, fun _ => id⟩
    · exact ⟨clients, (Cells.get_set_ne hj).trans hclients, rfl, rfl, rfl, rfl, fun _ => id⟩
  | @homed t current thread call old _ _ _ hold =>
    refine ⟨?_, fun _ _ => id⟩
    intro j clients hclients
    by_cases hj : j = call.selection
    · subst hj
      obtain rfl := Option.some.inj (hold.symm.trans hclients)
      refine ⟨_, Cells.get_set_self hold, rfl, rfl, rfl, rfl, ?_⟩
      intro home hhome
      rw [hhome]
      rfl
    · exact ⟨clients, (Cells.get_set_ne hj).trans hclients, rfl, rfl, rfl, rfl, fun _ => id⟩
  | built _ _ _ _ _ =>
    constructor
    · intro k clients hclients
      exact ⟨clients, hclients, rfl, rfl, rfl, rfl, fun _ => id⟩
    · intro i b hb
      exact Cells.get_push_old hb

theorem BuiltFor.grows (h : BuiltFor build s k runtime i) (hg : Grows s s') :
    BuiltFor build s' k runtime i := by
  obtain ⟨clients, hclients, hbuilt⟩ := h
  obtain ⟨clients', hclients', hconfig, hoverrides, -⟩ := hg.selections k clients hclients
  refine ⟨clients', hclients', ?_⟩
  rw [hconfig, hoverrides]
  exact hg.built _ _ hbuilt

theorem Fits.grows (h : Fits build s t runtime k own) (hg : Grows s s') :
    Fits build s' t runtime k own := by
  cases h with
  | home hclients hruntime hhome =>
    obtain ⟨clients', hclients', -, -, -, -, hkeep⟩ := hg.selections _ _ hclients
    exact .home hclients' hruntime (hkeep _ hhome)
  | own hclients hruntime hhome hne hbuilt =>
    obtain ⟨clients', hclients', -, -, -, -, hkeep⟩ := hg.selections _ _ hclients
    exact .own hclients' hruntime (hkeep _ hhome) hne (hbuilt.grows hg)

theorem Fits.selection (h : Fits build s t runtime k own) :
    ∃ clients, s.selections[k]? = some clients := by
  cases h with
  | home hclients _ _ => exact ⟨_, hclients⟩
  | own hclients _ _ _ _ => exact ⟨_, hclients⟩

theorem Stands.grows {stage : Stage} (h : Stands build s t thread k runtime stage)
    (hg : Grows s s') : Stands build s' t thread k runtime stage := by
  cases h with
  | finding => exact .finding
  | homing htorn hcurrent hnone => exact .homing htorn hcurrent hnone
  | choosing htorn hcurrent hnone hclients hhome =>
    obtain ⟨clients', hclients', -, -, -, -, hkeep⟩ := hg.selections _ _ hclients
    exact .choosing htorn hcurrent hnone hclients' (hkeep _ hhome)
  | clearing htorn hnone hfits => exact .clearing htorn hnone (hfits.grows hg)
  | outside h => exact .outside h
  | serving hfits => exact .serving (hfits.grows hg)

theorem alive_iff : 0 < s.strongCount k ↔
    ∃ clients, s.selections[k]? = some clients ∧ clients.dropped = false := by
  simp only [strongCount]
  constructor
  · intro h
    split at h
    · rename_i hany
      obtain ⟨clients, hclients, hdropped⟩ := (Option.any_eq_true _ _).mp hany
      exact ⟨clients, hclients, by simpa using hdropped⟩
    · cases h
  · rintro ⟨clients, hclients, hdropped⟩
    simp [hclients, hdropped]

/-- A selection lives on unless a step drops it, and then no call borrows it. -/
theorem Moves.alive (hm : Moves build s a s') (h : 0 < s.strongCount k) :
    0 < s'.strongCount k ∨
      ∀ thread ∈ s.threads, ∀ call, thread.call = some call → call.selection ≠ k := by
  obtain ⟨clients, hclients, hdropped⟩ := alive_iff.mp h
  cases hm with
  | thread | tore _ _ | called _ _ _ | next _ _ _ _ | built _ _ _ _ _ | removed _ _ _ _ _
  | pushed _ _ _ _ | served _ _ _ => exact .inl h
  | created _ _ => exact .inl (alive_iff.mpr ⟨clients, Cells.get_push_old hclients, hdropped⟩)
  | @dropped j old hold hidle =>
    by_cases hj : k = j
    · subst hj
      exact .inr hidle
    · exact .inl (alive_iff.mpr ⟨clients, (Cells.get_set_ne hj).trans hclients, hdropped⟩)
  | @homed t current thread call old _ _ _ hold =>
    by_cases hj : k = call.selection
    · subst hj
      obtain rfl := Option.some.inj (hold.symm.trans hclients)
      exact .inl (alive_iff.mpr ⟨_, Cells.get_set_self hold, hdropped⟩)
    · exact .inl (alive_iff.mpr ⟨clients, (Cells.get_set_ne hj).trans hclients, hdropped⟩)

/-- A selection that lives did so before the step, or the step creates it at a free address. -/
theorem Moves.alive_before (hm : Moves build s a s') (h : 0 < s'.strongCount k) :
    0 < s.strongCount k ∨ k = s.selections.length ∧
      ∃ address, s.free address = true ∧ s'.address k = some address := by
  obtain ⟨clients, hclients, hdropped⟩ := alive_iff.mp h
  cases hm with
  | thread | tore _ _ | called _ _ _ | next _ _ _ _ | built _ _ _ _ _ | removed _ _ _ _ _
  | pushed _ _ _ _ | served _ _ _ => exact .inl h
  | @created _ config overrides home address hfree _ =>
    rcases Cells.get_push hclients with hclients | ⟨rfl, -⟩
    · exact .inl (alive_iff.mpr ⟨clients, hclients, hdropped⟩)
    · refine .inr ⟨rfl, address, hfree, ?_⟩
      simp [Clients.address]
  | @dropped j old hold _ =>
    rcases Cells.get_set hclients with ⟨-, rfl⟩ | ⟨-, hclients⟩
    · cases hdropped
    · exact .inl (alive_iff.mpr ⟨clients, hclients, hdropped⟩)
  | @homed t current thread call old _ _ _ hold =>
    rcases Cells.get_set hclients with ⟨rfl, rfl⟩ | ⟨-, hclients⟩
    · exact .inl (alive_iff.mpr ⟨old, hold, hdropped⟩)
    · exact .inl (alive_iff.mpr ⟨clients, hclients, hdropped⟩)

theorem lookup_some (h : s.lookup thread k = some slot) :
    slot ∈ thread.slots ∧ s.address slot.owner = s.address k :=
  ⟨List.mem_of_find?_eq_some h, by simpa using List.find?_some h⟩

theorem lookup_none (h : s.lookup thread k = none) : ∀ slot ∈ thread.slots, slot.owner ≠ k := by
  rintro slot hslot rfl
  have := List.find?_eq_none.mp h slot hslot
  simp at this

theorem held_iff : s.held k = true ↔ 0 < s.strongCount k ∨
    ∃ (t : Nat) (thread : Thread), s.threads[t]? = some thread ∧
      ∃ slot ∈ thread.slots, slot.owner = k := by
  simp only [held, Bool.or_eq_true, decide_eq_true_eq, List.any_eq_true, beq_iff_eq,
    List.mem_iff_getElem?]
  constructor
  · rintro (h | ⟨thread, ⟨t, ht⟩, slot, hslot, heq⟩)
    · exact .inl h
    · exact .inr ⟨t, thread, ht, slot, hslot, heq⟩
  · rintro (h | ⟨t, thread, ht, slot, hslot, heq⟩)
    · exact .inl h
    · exact .inr ⟨thread, ⟨t, ht⟩, slot, hslot, heq⟩

/-- A slot was there before the step, or the step pushes it. -/
theorem Moves.slot_before (hm : Moves build s a s') (ht : s'.threads[t]? = some thread')
    (hslot : slot ∈ thread'.slots) :
    (∃ thread, s.threads[t]? = some thread ∧ slot ∈ thread.slots ∧
      ∀ r, thread.runtime = some r → thread'.runtime = some r) ∨
    ∃ thread call passed, s.threads[t]? = some thread ∧ thread.call = some call ∧
      call.stage = .clearing passed slot.own ∧ slot.owner = call.selection ∧
      thread'.runtime = thread.runtime := by
  cases hm with
  | thread =>
    rcases Cells.get_push ht with ht | ⟨-, rfl⟩
    · exact .inl ⟨thread', ht, hslot, fun _ => id⟩
    · cases hslot
  | created _ _ | dropped _ _ => exact .inl ⟨thread', ht, hslot, fun _ => id⟩
  | tore hthread _ =>
    rcases Cells.get_set ht with ⟨rfl, rfl⟩ | ⟨-, ht⟩
    · cases hslot
    · exact .inl ⟨thread', ht, hslot, fun _ => id⟩
  | called hthread _ _ =>
    rcases Cells.get_set ht with ⟨rfl, rfl⟩ | ⟨-, ht⟩
    · refine .inl ⟨_, hthread, hslot, ?_⟩
      intro r hr
      simp only [hr, Option.some_or]
    · exact .inl ⟨thread', ht, hslot, fun _ => id⟩
  | next hthread _ _ _ | homed hthread _ _ _ | built hthread _ _ _ _ | served hthread _ _ =>
    rcases Cells.get_set ht with ⟨rfl, rfl⟩ | ⟨-, ht⟩
    · exact .inl ⟨_, hthread, hslot, fun _ => id⟩
    · exact .inl ⟨thread', ht, hslot, fun _ => id⟩
  | removed hthread _ _ _ _ =>
    rcases Cells.get_set ht with ⟨rfl, rfl⟩ | ⟨-, ht⟩
    · exact .inl ⟨_, hthread, List.mem_of_mem_eraseIdx hslot, fun _ => id⟩
    · exact .inl ⟨thread', ht, hslot, fun _ => id⟩
  | pushed hthread hcall hstage _ =>
    rcases Cells.get_set ht with ⟨rfl, rfl⟩ | ⟨-, ht⟩
    · rcases Cells.mem_push hslot with hslot | rfl
      · exact .inl ⟨_, hthread, hslot, fun _ => id⟩
      · exact .inr ⟨_, _, _, hthread, hcall, hstage, rfl, rfl⟩
    · exact .inl ⟨thread', ht, hslot, fun _ => id⟩

/-- A slot of a selection that lives stays, so long as its thread keeps its locals. -/
theorem Moves.slot_stays (hm : Moves build s a s') (ht : s.threads[t]? = some thread)
    (hslot : slot ∈ thread.slots) (halive : 0 < s.strongCount slot.owner) (ha : a ≠ .tear t) :
    ∃ thread', s'.threads[t]? = some thread' ∧ slot ∈ thread'.slots := by
  have at_thread : ∀ {u : Nat} {old new : Thread}, s.threads[u]? = some old →
      (slot ∈ old.slots → slot ∈ new.slots) →
      ∃ thread', (s.threads.set u new)[t]? = some thread' ∧ slot ∈ thread'.slots := by
    intro u old new hold hkeep
    by_cases hu : t = u
    · subst hu
      obtain rfl := Option.some.inj (ht.symm.trans hold)
      exact ⟨new, Cells.get_set_self hold, hkeep hslot⟩
    · exact ⟨thread, (Cells.get_set_ne hu).trans ht, hslot⟩
  cases hm with
  | thread => exact ⟨thread, Cells.get_push_old ht, hslot⟩
  | created _ _ | dropped _ _ => exact ⟨thread, ht, hslot⟩
  | @tore u old hold _ =>
    have hu : t ≠ u := by
      rintro rfl
      exact ha rfl
    exact ⟨thread, (Cells.get_set_ne hu).trans ht, hslot⟩
  | called hold _ _ | next hold _ _ _ | homed hold _ _ _ | built hold _ _ _ _ | served hold _ _ =>
    exact at_thread hold id
  | @removed u passed own old call dead hold _ _ hget hdead =>
    apply at_thread hold
    intro hmem
    obtain ⟨j, hj⟩ := List.mem_iff_getElem?.mp hmem
    refine List.mem_eraseIdx_iff_getElem?.mpr ⟨j, ?_, hj⟩
    rintro rfl
    obtain rfl := Option.some.inj (hj.symm.trans hget)
    omega
  | pushed hold _ _ _ => exact at_thread hold (List.mem_append_left _)

theorem Fits.on (h : Fits build s t runtime k own) {runtime' : Option Nat}
    (hruntime : ∀ r, runtime = some r → runtime' = some r) : Fits build s t runtime' k own := by
  cases h with
  | home hclients hr hhome => exact .home hclients (hruntime _ hr) hhome
  | own hclients hr hhome hne hbuilt => exact .own hclients (hruntime _ hr) hhome hne hbuilt

theorem Moves.client_before (hm : Moves build s a s') {clients' : RuntimeClients Config}
    (h : s'.selections[k]? = some clients') :
    (∃ clients, s.selections[k]? = some clients ∧ clients'.client = clients.client) ∨
      BuiltFor build s' k none clients'.client := by
  cases hm with
  | thread | tore _ _ | called _ _ _ | next _ _ _ _ | built _ _ _ _ _ | removed _ _ _ _ _
  | pushed _ _ _ _ | served _ _ _ => exact .inl ⟨clients', h, rfl⟩
  | created _ _ =>
    rcases Cells.get_push h with h | ⟨rfl, rfl⟩
    · exact .inl ⟨clients', h, rfl⟩
    · refine .inr ⟨_, List.getElem?_concat_length, ?_⟩
      exact List.getElem?_concat_length
  | dropped hold _ | homed _ _ _ hold =>
    rcases Cells.get_set h with ⟨rfl, rfl⟩ | ⟨-, h⟩
    · exact .inl ⟨_, hold, rfl⟩
    · exact .inl ⟨clients', h, rfl⟩

theorem Sound.homes_step (h : Sound build s) (hm : Moves build s a s') (k : Nat)
    (clients : RuntimeClients Config) (hclients : s'.selections[k]? = some clients) :
    BuiltFor build s' k none clients.client := by
  rcases hm.client_before hclients with ⟨old, hold, heq⟩ | hbuilt
  · rw [heq]
    exact (h.homes k old hold).grows hm.grows
  · exact hbuilt

theorem Sound.held_before (h : Sound build s) (hm : Moves build s a s')
    (hheld : s'.held k = true) : s.held k = true ∨
      k = s.selections.length ∧ ∃ address, s.free address = true ∧ s'.address k = some address := by
  rcases held_iff.mp hheld with halive | ⟨t, thread', ht', slot, hslot, rfl⟩
  · rcases hm.alive_before halive with halive | hnew
    · exact .inl (held_iff.mpr (.inl halive))
    · exact .inr hnew
  · left
    rcases hm.slot_before ht' hslot with ⟨thread, ht, hslot, -⟩ |
      ⟨thread, call, passed, ht, hcall, -, howner, -⟩
    · exact held_iff.mpr (.inr ⟨t, thread, ht, slot, hslot, rfl⟩)
    · rw [howner]
      exact held_iff.mpr (.inl (h.calls t thread call ht hcall).alive)

theorem Sound.held_address (h : Sound build s) (hg : Grows s s') (hheld : s.held k = true) :
    k < s.selections.length ∧
      ∃ address, s.address k = some address ∧ s'.address k = some address := by
  obtain ⟨clients, hclients⟩ : ∃ clients, s.selections[k]? = some clients := by
    rcases held_iff.mp hheld with halive | ⟨t, thread, ht, slot, hslot, rfl⟩
    · obtain ⟨clients, hclients, -⟩ := alive_iff.mp halive
      exact ⟨clients, hclients⟩
    · exact (h.slots t thread ht slot hslot).selection
  obtain ⟨clients', hclients', -, -, -, haddress, -⟩ := hg.selections k clients hclients
  refine ⟨Cells.get_lt hclients, clients.address, ?_, ?_⟩
  · simp only [address, hclients, Option.map_some]
  · simp only [address, hclients', Option.map_some, haddress]

theorem not_held_of_free {address : Nat} (h : s.free address = true)
    (hk : k < s.selections.length) (heq : s.address k = some address) : s.held k = false := by
  have := List.all_eq_true.mp h k (List.mem_range.mpr hk)
  simpa [heq] using this

/-- A token gets an address that no other token has that is referred to. -/
theorem Sound.pinned_step (h : Sound build s) (hm : Moves build s a s') :
    Set.InjOn s'.address {k | s'.held k = true} := by
  have fresh : ∀ {j : Nat} {address : Nat}, s.held j = true → s.free address = true →
      s'.address j ≠ some address := by
    intro j address hj hfree heq
    obtain ⟨hlt, old, hold, hnow⟩ := h.held_address hm.grows hj
    obtain rfl := Option.some.inj (hnow.symm.trans heq)
    cases hj.symm.trans (not_held_of_free hfree hlt hold)
  intro j hj k hk heq
  rcases h.held_before hm hj with hj | ⟨rfl, address, hfree, hnew⟩
  · rcases h.held_before hm hk with hk | ⟨rfl, address, hfree, hnew⟩
    · obtain ⟨-, x, hx, hx'⟩ := h.held_address hm.grows hj
      obtain ⟨-, y, hy, hy'⟩ := h.held_address hm.grows hk
      apply h.pinned hj hk
      rw [hx, hy, ← hx', ← hy', heq]
    · exact absurd (heq.trans hnew) (fresh hj hfree)
  · rcases h.held_before hm hk with hk | ⟨rfl, -⟩
    · exact absurd (heq.symm.trans hnew) (fresh hk hfree)
    · rfl

theorem Sound.slots_step (h : Sound build s) (hm : Moves build s a s') (t : Nat)
    (thread' : Thread) (ht' : s'.threads[t]? = some thread') (slot : Slot)
    (hslot : slot ∈ thread'.slots) : Fits build s' t thread'.runtime slot.owner slot.own := by
  rcases hm.slot_before ht' hslot with ⟨thread, ht, hslot, hruntime⟩ |
    ⟨thread, call, passed, ht, hcall, hstage, howner, hruntime⟩
  · exact ((h.slots t thread ht slot hslot).on hruntime).grows hm.grows
  · have hstands := (h.calls t thread call ht hcall).stands
    rw [hstage] at hstands
    cases hstands with
    | clearing _ _ hfits =>
      rw [howner, hruntime]
      exact hfits.grows hm.grows

/-- A call borrows its selection, so the selection lives on. -/
theorem CallSound.alive_after (h : CallSound build s t thread call) (hm : Moves build s a s')
    (ht : s.threads[t]? = some thread) (hcall : thread.call = some call) :
    0 < s'.strongCount call.selection := by
  rcases hm.alive h.alive with halive | hidle
  · exact halive
  · exact absurd rfl (hidle thread (List.mem_of_getElem? ht) call hcall)

theorem CallSound.stands_at (h : CallSound build s t thread call) {stage : Stage}
    (hstage : call.stage = stage) :
    Stands build s t (locals thread) call.selection call.current stage := hstage ▸ h.stands

theorem CallSound.keep (h : CallSound build s t thread call) (hm : Moves build s a s')
    (ht : s.threads[t]? = some thread) (hcall : thread.call = some call) :
    CallSound build s' t thread call :=
  ⟨h.alive_after hm ht hcall, h.runtime, h.stands.grows hm.grows⟩

theorem Sound.next_stands (h : Sound build s) (ht : s.threads[t]? = some thread)
    (hcall : thread.call = some call) {stage : Stage} (hn : Next s thread call stage) :
    Stands build s t (locals thread) call.selection call.current stage := by
  have hsound := h.calls t thread call ht hcall
  cases hn with
  | torn _ htorn => exact .outside (.inl htorn)
  | @found slot _ _ hfound =>
    -- the slot and the call refer to tokens of one address, so to one token
    obtain ⟨hslot, haddress⟩ := lookup_some hfound
    have hheld : s.held slot.owner = true := held_iff.mpr (.inr ⟨t, thread, ht, slot, hslot, rfl⟩)
    have howner : slot.owner = call.selection :=
      h.pinned hheld (held_iff.mpr (.inl hsound.alive)) haddress
    exact .serving (howner ▸ h.slots t thread ht slot hslot)
  | missed _ htorn hmissed hcurrent => exact .homing htorn hcurrent (lookup_none hmissed)
  | outside _ hcurrent => exact .outside (.inr hcurrent)
  | shared hstage =>
    cases hsound.stands_at hstage with
    | choosing htorn hcurrent hnone hclients hhome =>
      exact .clearing htorn hnone (.home hclients (hsound.runtime _ hcurrent) hhome)
  | passed hstage _ _ =>
    cases hsound.stands_at hstage with
    | clearing htorn hnone hfits => exact .clearing htorn hnone hfits

theorem Sound.calls_step (h : Sound build s) (hok : s.stays a = true)
    (hm : Moves build s a s') (t : Nat) (thread' : Thread) (call' : WithCall)
    (ht' : s'.threads[t]? = some thread') (hcall' : thread'.call = some call') :
    CallSound build s' t thread' call' := by
  have keep : ∀ {t : Nat} {thread : Thread} {call : WithCall}, s.threads[t]? = some thread →
      thread.call = some call → CallSound build s' t thread call :=
    fun ht hcall => (h.calls _ _ _ ht hcall).keep hm ht hcall
  have hgrows := hm.grows
  cases hm with
  | thread =>
    rcases Cells.get_push ht' with ht | ⟨-, rfl⟩
    · exact keep ht hcall'
    · cases hcall'
  | created _ _ | dropped _ _ => exact keep ht' hcall'
  | tore _ hcall =>
    rcases Cells.get_set ht' with ⟨rfl, rfl⟩ | ⟨-, ht⟩
    · cases hcall.symm.trans hcall'
    · exact keep ht hcall'
  | called hthread _ halive =>
    rcases Cells.get_set ht' with ⟨rfl, rfl⟩ | ⟨-, ht⟩
    · obtain rfl := Option.some.inj hcall'
      refine ⟨halive, ?_, .finding⟩
      rintro r rfl
      rcases stays_call hok hthread with hnone | hnone | hsame
      · cases hnone
      · simp only [hnone, Option.none_or]
      · simp only [← hsame, Option.some_or]
    · exact keep ht hcall'
  | next hthread hcall hn _ =>
    rcases Cells.get_set ht' with ⟨rfl, rfl⟩ | ⟨-, ht⟩
    · obtain rfl := Option.some.inj hcall'
      have hsound := h.calls _ _ _ hthread hcall
      exact ⟨hsound.alive, hsound.runtime, (h.next_stands hthread hcall hn).grows hgrows⟩
    · exact keep ht hcall'
  | homed hthread hcall hstage hclients =>
    rcases Cells.get_set ht' with ⟨rfl, rfl⟩ | ⟨-, ht⟩
    · obtain rfl := Option.some.inj hcall'
      have hkeep := keep hthread hcall
      refine ⟨hkeep.alive, hkeep.runtime, ?_⟩
      cases hkeep.stands_at hstage with
      | homing htorn hcurrent hnone =>
        exact .choosing htorn hcurrent hnone (Cells.get_set_self hclients) rfl
    · exact keep ht hcall'
  | built hthread hcall hstage hother hclients =>
    rcases Cells.get_set ht' with ⟨rfl, rfl⟩ | ⟨-, ht⟩
    · obtain rfl := Option.some.inj hcall'
      have hkeep := keep hthread hcall
      refine ⟨hkeep.alive, hkeep.runtime, ?_⟩
      cases hkeep.stands_at hstage with
      | choosing htorn hcurrent hnone hclients' hhome =>
        refine .clearing htorn hnone ?_
        refine .own hclients' (hkeep.runtime _ hcurrent) hhome hother ⟨_, hclients, ?_⟩
        exact List.getElem?_concat_length
    · exact keep ht hcall'
  | removed hthread hcall hstage _ _ =>
    rcases Cells.get_set ht' with ⟨rfl, rfl⟩ | ⟨-, ht⟩
    · obtain rfl := Option.some.inj hcall'
      have hkeep := keep hthread hcall
      refine ⟨hkeep.alive, hkeep.runtime, ?_⟩
      cases hkeep.stands_at hstage with
      | clearing htorn hnone hfits =>
        refine .clearing htorn ?_ hfits
        intro slot hslot
        exact hnone slot (List.mem_of_mem_eraseIdx hslot)
    · exact keep ht hcall'
  | pushed hthread hcall hstage _ =>
    rcases Cells.get_set ht' with ⟨rfl, rfl⟩ | ⟨-, ht⟩
    · obtain rfl := Option.some.inj hcall'
      have hkeep := keep hthread hcall
      refine ⟨hkeep.alive, hkeep.runtime, ?_⟩
      cases hkeep.stands_at hstage with
      | clearing _ _ hfits => exact .serving hfits
    · exact keep ht hcall'
  | served hthread hcall _ =>
    rcases Cells.get_set ht' with ⟨rfl, rfl⟩ | ⟨-, ht⟩
    · cases hcall'
    · exact keep ht hcall'

/-- A client that the step builds: with its selection, or for a call that has found no slot. -/
inductive Builds (s s' : Clients Config Client) (i : Nat) (b : Built Client) : Prop where
  | home : b.thread = none → Builds s s' i b
  | own {t current home : Nat} {thread : Thread} {call : WithCall} : b.thread = some t →
      b.selection = call.selection → s.threads[t]? = some thread → thread.call = some call →
      call.stage = .choosing current home →
      s'.threads[t]? = some { thread with
        call := some { call with stage := .clearing 0 (some i) } } → Builds s s' i b

theorem Moves.built_before (hm : Moves build s a s') {b : Built Client}
    (h : s'.built[i]? = some b) :
    s.built[i]? = some b ∨ i = s.built.length ∧ Builds s s' i b := by
  cases hm with
  | thread | dropped _ _ | tore _ _ | called _ _ _ | next _ _ _ _ | homed _ _ _ _
  | removed _ _ _ _ _ | pushed _ _ _ _ | served _ _ _ => exact .inl h
  | created _ _ =>
    rcases Cells.get_push h with h | ⟨rfl, rfl⟩
    · exact .inl h
    · exact .inr ⟨rfl, .home rfl⟩
  | built hthread hcall hstage _ _ =>
    rcases Cells.get_push h with h | ⟨rfl, rfl⟩
    · exact .inl h
    · exact .inr ⟨rfl, .own rfl rfl hthread hcall hstage (Cells.get_set_self hthread)⟩

theorem Moves.lengths (hm : Moves build s a s') : s.selections.length ≤ s'.selections.length ∧
    s.threads.length ≤ s'.threads.length := by
  cases hm <;> simp [setThread, goto]

theorem Sound.placed_step (h : Sound build s) (hm : Moves build s a s') (i t : Nat)
    (b : Built Client) (hb : s'.built[i]? = some b) (hbt : b.thread = some t) :
    b.selection < s'.selections.length ∧ t < s'.threads.length := by
  obtain ⟨hselections, hthreads⟩ := hm.lengths
  rcases hm.built_before hb with hb | ⟨-, hnew⟩
  · obtain ⟨hk, ht⟩ := h.placed i t b hb hbt
    omega
  · cases hnew with
    | home hnone => cases hnone.symm.trans hbt
    | own hu hsel hthread hcall _ _ =>
      obtain rfl := Option.some.inj (hu.symm.trans hbt)
      obtain ⟨clients, hclients, -⟩ := alive_iff.mp (h.calls _ _ _ hthread hcall).alive
      have hk := Cells.get_lt hclients
      have ht := Cells.get_lt hthread
      omega

theorem Moves.thread_before (hm : Moves build s a s') (ht' : s'.threads[t]? = some thread') :
    t = s.threads.length ∨
      ∃ thread, s.threads[t]? = some thread ∧ (thread'.torn = false → thread.torn = false) := by
  cases hm with
  | thread =>
    rcases Cells.get_push ht' with ht | ⟨rfl, -⟩
    · exact .inr ⟨thread', ht, id⟩
    · exact .inl rfl
  | created _ _ | dropped _ _ => exact .inr ⟨thread', ht', id⟩
  | tore hthread _ =>
    rcases Cells.get_set ht' with ⟨rfl, rfl⟩ | ⟨-, ht⟩
    · exact .inr ⟨_, hthread, nofun⟩
    · exact .inr ⟨thread', ht, id⟩
  | called hthread _ _ | next hthread _ _ _ | homed hthread _ _ _ | built hthread _ _ _ _
  | removed hthread _ _ _ _ | pushed hthread _ _ _ | served hthread _ _ =>
    rcases Cells.get_set ht' with ⟨rfl, rfl⟩ | ⟨-, ht⟩
    · exact .inr ⟨_, hthread, id⟩
    · exact .inr ⟨thread', ht, id⟩

/-- The call that built a client holds it until it has pushed the slot. -/
theorem Moves.call_keeps (hm : Moves build s a s') (ht : s.threads[t]? = some thread)
    {current : Option Nat} {passed : Nat}
    (hcall : thread.call = some ⟨k, current, .clearing passed (some i)⟩)
    (ht' : s'.threads[t]? = some thread') : Keeps thread' k i := by
  have other : thread' = thread → Keeps thread' k i := by
    rintro rfl
    exact .inr ⟨current, passed, hcall⟩
  have apart : ∀ {u : Nat} {old new : Thread}, s.threads[u]? = some old →
      (s.threads.set u new)[t]? = some thread' → (t = u → old = thread → Keeps new k i) →
      Keeps thread' k i := by
    intro u old new hold hnew hkeep
    rcases Cells.get_set hnew with ⟨rfl, rfl⟩ | ⟨-, hsame⟩
    · exact hkeep rfl (Option.some.inj (hold.symm.trans ht))
    · exact other (Option.some.inj (hsame.symm.trans ht))
  cases hm with
  | thread => exact other (Option.some.inj (ht'.symm.trans (Cells.get_push_old ht)))
  | created _ _ | dropped _ _ => exact other (Option.some.inj (ht'.symm.trans ht))
  | tore hold hnone | called hold hnone _ =>
    refine apart hold ht' ?_
    rintro rfl rfl
    cases hnone.symm.trans hcall
  | next hold hc hn _ =>
    refine apart hold ht' ?_
    rintro rfl rfl
    obtain rfl := Option.some.inj (hc.symm.trans hcall)
    cases hn with
    | passed hstage _ _ =>
      cases hstage
      exact .inr ⟨_, _, rfl⟩
    | torn hstage _ | found hstage _ _ | missed hstage _ _ _ | outside hstage _ | shared hstage =>
      cases hstage
  | homed hold hc hstage _ | built hold hc hstage _ _ | served hold hc hstage =>
    refine apart hold ht' ?_
    rintro rfl rfl
    obtain rfl := Option.some.inj (hc.symm.trans hcall)
    cases hstage
  | removed hold hc hstage _ _ =>
    refine apart hold ht' ?_
    rintro rfl rfl
    obtain rfl := Option.some.inj (hc.symm.trans hcall)
    cases hstage
    exact .inr ⟨_, _, rfl⟩
  | pushed hold hc hstage _ =>
    refine apart hold ht' ?_
    rintro rfl rfl
    obtain rfl := Option.some.inj (hc.symm.trans hcall)
    cases hstage
    exact .inl (List.mem_append_right _ List.mem_cons_self)

theorem Sound.kept_step (h : Sound build s) (hm : Moves build s a s') (i t : Nat)
    (b : Built Client) (thread' : Thread) (hb : s'.built[i]? = some b) (hbt : b.thread = some t)
    (halive : 0 < s'.strongCount b.selection) (ht' : s'.threads[t]? = some thread')
    (htorn : thread'.torn = false) : Keeps thread' b.selection i := by
  rcases hm.built_before hb with hb | ⟨-, hnew⟩
  · obtain ⟨hk, ht⟩ := h.placed i t b hb hbt
    have halive : 0 < s.strongCount b.selection := by
      rcases hm.alive_before halive with halive | ⟨heq, -⟩
      · exact halive
      · omega
    obtain ⟨thread, hthread, hback⟩ : ∃ thread, s.threads[t]? = some thread ∧
        (thread'.torn = false → thread.torn = false) := by
      rcases hm.thread_before ht' with rfl | hold
      · exact absurd ht (Nat.lt_irrefl _)
      · exact hold
    rcases h.kept i t b thread hb hbt halive hthread (hback htorn) with hslot |
      ⟨current, passed, hcall⟩
    · by_cases ha : a = .tear t
      · subst ha
        cases hm with
        | tore hold _ =>
          obtain rfl := Option.some.inj ((Cells.get_set_self hold).symm.trans ht')
          cases htorn
        | created _ ha | next _ _ _ ha => exact absurd rfl (ha t)
      · obtain ⟨now, hnow, hslot⟩ := hm.slot_stays hthread hslot halive ha
        obtain rfl := Option.some.inj (hnow.symm.trans ht')
        exact .inl hslot
    · exact hm.call_keeps hthread hcall ht'
  · cases hnew with
    | home hnone => cases hnone.symm.trans hbt
    | own hu hsel _ _ _ hnow =>
      obtain rfl := Option.some.inj (hu.symm.trans hbt)
      obtain rfl := Option.some.inj (hnow.symm.trans ht')
      rw [hsel]
      exact .inr ⟨_, _, rfl⟩

/-- A thread that builds a client for a selection has none for it yet. -/
theorem Sound.not_built (h : Sound build s) {b c : Built Client} (hnew : Builds s s' j c)
    (hb : s.built[i]? = some b) (hbt : b.thread = some t) (hct : c.thread = some t) :
    b.selection ≠ c.selection := by
  intro hsel
  cases hnew with
  | home hnone => cases hnone.symm.trans hct
  | own hu hc ht hcall hstage _ =>
    obtain rfl := Option.some.inj (hu.symm.trans hct)
    rw [hc] at hsel
    have hsound := h.calls _ _ _ ht hcall
    cases hsound.stands_at hstage with
    | choosing htorn _ hnone _ _ =>
      rcases h.kept _ _ _ _ hb hbt (hsel ▸ hsound.alive) ht htorn with hslot |
        ⟨current, passed, hclearing⟩
      · exact hnone _ hslot hsel
      · obtain rfl := Option.some.inj (hcall.symm.trans hclearing)
        cases hstage

theorem Sound.once_step (h : Sound build s) (hm : Moves build s a s') (i j t : Nat)
    (b c : Built Client) (hb : s'.built[i]? = some b) (hc : s'.built[j]? = some c)
    (hbt : b.thread = some t) (hct : c.thread = some t) (hsel : b.selection = c.selection) :
    i = j := by
  rcases hm.built_before hb with hb | ⟨hi, hnewb⟩
  · rcases hm.built_before hc with hc | ⟨-, hnewc⟩
    · exact h.once i j t b c hb hc hbt hct hsel
    · exact absurd hsel (h.not_built hnewc hb hbt hct)
  · rcases hm.built_before hc with hc | ⟨hj, -⟩
    · exact absurd hsel.symm (h.not_built hnewb hc hct hbt)
    · rw [hi, hj]

theorem Sound.step (h : Sound build s) (hok : s.stays a = true) (hm : Moves build s a s') :
    Sound build s' where
  homes := h.homes_step hm
  pinned := h.pinned_step hm
  slots := h.slots_step hm
  calls := h.calls_step hok hm
  placed := h.placed_step hm
  kept := h.kept_step hm
  once := h.once_step hm

theorem Sound.init : Sound build ({} : Clients Config Client) := by
  constructor
  · intro k clients hclients
    cases hclients
  · intro k hk
    cases hk
  · intro t thread ht
    cases ht
  · intro t thread call ht
    cases ht
  · intro i t b hb
    cases hb
  · intro i t b thread hb
    cases hb
  · intro i j t b c hb
    cases hb

theorem Reached.sound (h : Reached build s) : Sound build s :=
  h.invariant (fun _ _ _ hs hok hstep => hs.step hok (step_moves hstep)) .init

/-- What a call on a thread is to be served with: a client of its own selection; the home client on
the home runtime and before the thread's first call inside a runtime; and on any other runtime a
client that was built on the thread. -/
structure Serves (build : Config → Overrides → Client) (s : Clients Config Client) (t : Nat)
    (thread : Thread) (call : WithCall) (clients : RuntimeClients Config) (client : Nat) :
    Prop where
  built : ∃ on, BuiltFor build s call.selection on client
  early : thread.runtime = none → client = clients.client
  home : ∀ r, call.current = some r → clients.home = some r → client = clients.client
  other : thread.torn = false → ∀ r home, call.current = some r → clients.home = some home →
    r ≠ home → BuiltFor build s call.selection (some t) client
  homed : thread.torn = false → call.current.isSome → clients.home.isSome

theorem Sound.serves (h : Sound build s) (ht : s.threads[t]? = some thread)
    (hcall : thread.call = some call) (hstage : call.stage = .serving own) :
    ∃ clients, s.selections[call.selection]? = some clients ∧
      Serves build s t thread call clients (own.getD clients.client) := by
  have hsound := h.calls t thread call ht hcall
  obtain ⟨clients, hclients, -⟩ := alive_iff.mp hsound.alive
  have hhome := h.homes _ clients hclients
  refine ⟨clients, hclients, ?_⟩
  cases hsound.stands_at hstage with
  | outside hout =>
    refine ⟨⟨_, hhome⟩, fun _ => rfl, fun _ _ _ => rfl, ?_, ?_⟩
    · intro htorn r home hcurrent
      rcases hout with hout | hout
      · cases htorn.symm.trans hout
      · cases hout.symm.trans hcurrent
    · intro htorn hcurrent
      rcases hout with hout | hout
      · cases htorn.symm.trans hout
      · rw [hout] at hcurrent
        cases hcurrent
  | serving hfits =>
    cases hfits with
    | home hold hruntime hsame =>
      obtain rfl := Option.some.inj (hclients.symm.trans hold)
      refine ⟨⟨_, hhome⟩, fun _ => rfl, fun _ _ _ => rfl, ?_, ?_⟩
      · intro _ r home hcurrent hhomed hne
        have hr := hsound.runtime r hcurrent
        have hsame' := hruntime.symm.trans hr
        rw [hhomed] at hsame
        exact absurd ((Option.some.inj hsame').symm.trans (Option.some.inj hsame).symm) hne
      · intro _ _
        rw [hsame]
        rfl
    | own hold hruntime hhomed hne hbuilt =>
      obtain rfl := Option.some.inj (hclients.symm.trans hold)
      refine ⟨⟨_, hbuilt⟩, ?_, ?_, fun _ _ _ _ _ _ => hbuilt, ?_⟩
      · intro hnone
        cases hnone.symm.trans hruntime
      · intro r hcurrent hsame
        have hr := Option.some.inj (hruntime.symm.trans (hsound.runtime r hcurrent))
        rw [hhomed] at hsame
        exact absurd ((Option.some.inj hsame).trans hr.symm) hne
      · intro _ _
        rw [hhomed]
        rfl

/-- In every state of every run each call is served with the right client; a thread builds at most
one for a selection; and no step but the teardown of a thread's locals takes away the slot of a
selection that lives. -/
theorem one_client_per_runtime (hreached : Reached build s) :
    (∀ (t : Nat) (thread : Thread) (call : WithCall) (own : Option Nat),
      s.threads[t]? = some thread → thread.call = some call → call.stage = .serving own →
      ∃ clients, s.selections[call.selection]? = some clients ∧
        Serves build s t thread call clients (own.getD clients.client)) ∧
    (∀ (i j t : Nat) (b c : Built Client), s.built[i]? = some b → s.built[j]? = some c →
      b.thread = some t → c.thread = some t → b.selection = c.selection → i = j) ∧
    ∀ (a : ClientsAct Config) (s' : Clients Config Client) (t : Nat) (thread : Thread)
      (slot : Slot), s.step build a = some s' → s.threads[t]? = some thread →
      slot ∈ thread.slots → 0 < s.strongCount slot.owner → a ≠ .tear t →
      ∃ thread', s'.threads[t]? = some thread' ∧ slot ∈ thread'.slots := by
  have hsound := hreached.sound
  refine ⟨?_, hsound.once, ?_⟩
  · intro t thread call own ht hcall hstage
    exact hsound.serves ht hcall hstage
  · intro a s' t thread slot hstep ht hslot halive ha
    exact (step_moves hstep).slot_stays ht hslot halive ha

/-- A call of selection 0 on a runtime that is not its home, and its drop. -/
def oneDropped : List (ClientsAct Unit) := [
  .thread, .homed () {} 0 7, .call 0 0 (some 1), .find 0, .home 0, .choose 0, .clear 0, .serve 0,
  .drop 0]

/-- The token of selection 0 has its address until a call of selection 1 clears the slot; then
selection 2 gets it, and calls on the same thread. -/
def addressReused : List (ClientsAct Unit) := oneDropped ++ [
  .homed () {} 0 8, .call 0 1 (some 1), .find 0, .home 0, .choose 0, .clear 0, .clear 0, .serve 0,
  .homed () {} 0 7, .call 0 2 (some 1), .find 0, .home 0, .choose 0, .clear 0, .clear 0]

/-- Selection 2 uses client 5, which it built itself, and selection 1 keeps its slot. -/
theorem one_client_per_runtime_reused : ∃ (s : Clients Unit Unit) (thread : Thread)
    (call : WithCall) (clients : RuntimeClients Unit), s.selections[2]? = some clients ∧
      clients.address = 7 ∧ s.threads[0]? = some thread ∧
      thread.slots = [⟨1, some 3⟩, ⟨2, some 5⟩] ∧
      Serves (fun _ _ => ()) s 0 thread call clients 5 := by
  obtain ⟨s, hs⟩ : ∃ s, Runs.check (step fun _ _ => ()) stays ({} : Clients Unit Unit)
      addressReused = some s := ⟨_, rfl⟩
  have hreached : Reached (fun _ _ => ()) s := Run.of_check hs
  obtain rfl := Option.some.inj hs
  obtain ⟨clients, hclients, hserves⟩ :=
    (one_client_per_runtime hreached).1 0 _ ⟨2, some 1, .serving (some 5)⟩ (some 5) rfl rfl rfl
  obtain rfl := Option.some.inj hclients
  exact ⟨_, _, _, _, rfl, rfl, rfl, rfl, hserves⟩

end RuststreamKinesis.Clients
