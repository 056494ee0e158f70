import RuststreamKinesis.Commands

/-!
# What is outstanding

A delivery that was not told to its tracker has an entry there that is not done, and it waits in
the channel exactly as long as it was not received.
-/

namespace RuststreamKinesis

set_option autoImplicit false

def Stamped.id (stamped : Stamped) : Option Nat :=
  match stamped.item with
  | .delivery id => some id
  | _ => none

theorem Stamped.id_eq_none {stamped : Stamped} (h : ∀ id, stamped.item ≠ .delivery id) :
    stamped.id = none := by
  unfold Stamped.id
  split
  · rename_i id hid
    exact absurd hid (h id)
  · rfl

theorem Phase.Moves.acked_eq {p q : Phase} (h : Phase.Moves p q) : q.acked = p.acked := by
  cases h <;> rfl

namespace Subscription

variable {Owner : Type} [DecidableEq Owner] {u u' : Subscription} {owner : Owner} {shard : Shard}
variable {lease lease' : MemoryLease Owner} {a : SubAct}

/-- The trackers wait for what was not told to them, and the oldest entry is not done. -/
structure Outstanding (u : Subscription) : Prop where
  unique : ∀ (i j : Nat) (d d' : Delivery), u.deliveries[i]? = some d →
    u.deliveries[j]? = some d' → d.tracker = d'.tracker → d.index = d'.index → i = j
  waits : ∀ d ∈ u.deliveries, d.phase.acked = false → ∃ w, u.trackers[d.tracker]? = some w ∧
    ∃ e ∈ w.pending, e.index = d.index ∧ e.done = false
  told : ∀ d ∈ u.deliveries, d.phase.acked = true → ∀ w, u.trackers[d.tracker]? = some w →
    ∀ e ∈ w.pending, e.index = d.index → e.done = true
  front : ∀ (t : Nat) (w : Watermark) (e : Entry) (es : List Entry), u.trackers[t]? = some w →
    w.pending = e :: es → e.done = false

theorem Outstanding.init : Outstanding {} := by
  constructor <;> simp

theorem Outstanding.books (h : Outstanding u) (hl : Linked u) (hb : Books shard u u') :
    Outstanding u' := by
  cases hb with
  | quiet ht hd =>
    refine ⟨?_, ?_, ?_, fun t w e es hw => h.front t w e es (ht ▸ hw)⟩
    · intro i j d d' hi hj htr hix
      obtain ⟨d₀, hi₀, he, _⟩ := hd.each i d hi
      obtain ⟨d₁, hj₁, he', _⟩ := hd.each j d' hj
      rw [he, he'] at htr hix
      exact h.unique i j d₀ d₁ hi₀ hj₁ htr hix
    · intro d hmem hacked
      obtain ⟨d₀, hmem₀, he, hm⟩ := hd.mem hmem
      rw [ht, he]
      exact h.waits d₀ hmem₀ (hm.acked_eq ▸ hacked)
    · intro d hmem hacked
      obtain ⟨d₀, hmem₀, he, hm⟩ := hd.mem hmem
      rw [ht, he]
      exact h.told d₀ hmem₀ (hm.acked_eq ▸ hacked)
  | fresh ht hd =>
    have old : ∀ {t : Nat} {w : Watermark}, u'.trackers[t]? = some w →
        u.trackers[t]? = some w ∨ w = {} := by
      intro t w hw
      rcases Cells.get_push (ht ▸ hw) with hw | ⟨_, rfl⟩
      · exact .inl hw
      · exact .inr rfl
    refine ⟨?_, ?_, ?_, ?_⟩
    · rw [hd]
      exact h.unique
    · intro d hmem hacked
      obtain ⟨w, hw, he⟩ := h.waits d (hd ▸ hmem) hacked
      exact ⟨w, ht ▸ Cells.get_push_old hw, he⟩
    · intro d hmem hacked w hw e he
      rcases old hw with hw | rfl
      · exact h.told d (hd ▸ hmem) hacked w hw e he
      · cases he
    · intro t w e es hw hp
      rcases old hw with hw | rfl
      · exact h.front t w e es hw hp
      · cases hp
  | @handed r epoch next stop last idle record w hr hpc hlt hrec hlog hagg hw ht hd =>
    have hord := hl.ordered _ w hw
    have new : ∀ {t : Nat} {w' : Watermark}, u'.trackers[t]? = some w' →
        (t = r.tracker ∧ w' = w.deliver next) ∨ (t ≠ r.tracker ∧ u.trackers[t]? = some w') :=
      fun hw' => Cells.get_set (ht ▸ hw')
    have index_ne : ∀ {d : Delivery}, d ∈ u.deliveries → d.tracker = r.tracker →
        d.index ≠ w.nextIndex := by
      intro d hmem htr
      exact Nat.ne_of_lt (hl.index_lt d hmem w (htr ▸ hw))
    refine ⟨?_, ?_, ?_, ?_⟩
    · intro i j d d' hi hj htr hix
      rcases Cells.get_push (hd ▸ hi) with hi | ⟨rfl, rfl⟩
      · rcases Cells.get_push (hd ▸ hj) with hj | ⟨rfl, rfl⟩
        · exact h.unique i j d d' hi hj htr hix
        · exact absurd hix (index_ne (List.mem_of_getElem? hi) htr)
      · rcases Cells.get_push (hd ▸ hj) with hj | ⟨rfl, rfl⟩
        · exact absurd hix.symm (index_ne (List.mem_of_getElem? hj) htr.symm)
        · rfl
    · intro d hmem hacked
      rw [hd] at hmem
      rcases Cells.mem_push hmem with hmem | rfl
      · obtain ⟨w₀, hw₀, e, he, hix, hdone⟩ := h.waits d hmem hacked
        by_cases htr : d.tracker = r.tracker
        · rw [htr] at hw₀ ⊢
          obtain rfl := Option.some.inj (hw.symm.trans hw₀)
          exact ⟨_, ht ▸ Cells.get_set_self hw, e, List.mem_append_left _ he, hix, hdone⟩
        · exact ⟨w₀, ht ▸ (Cells.get_set_ne htr).trans hw₀, e, he, hix, hdone⟩
      · exact ⟨_, ht ▸ Cells.get_set_self hw, _, List.mem_append_right _ List.mem_cons_self,
          rfl, rfl⟩
    · intro d hmem hacked w' hw' e he hix
      rw [hd] at hmem
      rcases Cells.mem_push hmem with hmem | rfl
      · rcases new hw' with ⟨htr, rfl⟩ | ⟨_, hw'⟩
        · rcases Watermark.mem_deliver he with he | rfl
          · exact h.told d hmem hacked w (htr ▸ hw) e he hix
          · exact absurd hix.symm (index_ne hmem htr)
        · exact h.told d hmem hacked w' hw' e he hix
      · cases hacked
    · intro t w' e es hw' hp
      rcases new hw' with ⟨_, rfl⟩ | ⟨_, hw'⟩
      · simp only [Watermark.deliver] at hp
        cases hpend : w.pending with
        | nil =>
          rw [hpend] at hp
          obtain rfl := (List.cons.inj hp).1
          rfl
        | cons e₀ es₀ =>
          rw [hpend] at hp
          obtain rfl := (List.cons.inj hp).1
          exact h.front _ w _ _ hw hpend
      · exact h.front t w' e es hw' hp
  | @settled id d w hget hw hphase ht hd =>
    have new : ∀ {t : Nat} {w' : Watermark}, u'.trackers[t]? = some w' →
        (t = d.tracker ∧ w' = (w.settle d.index).2) ∨
          (t ≠ d.tracker ∧ u.trackers[t]? = some w') := fun hw' => Cells.get_set (ht ▸ hw')
    have old : ∀ {i : Nat} {d' : Delivery}, u'.deliveries[i]? = some d' →
        ∃ d₀ : Delivery, u.deliveries[i]? = some d₀ ∧ d'.tracker = d₀.tracker ∧
          d'.index = d₀.index ∧ (i = id ∨ d' = d₀) := by
      intro i d' hi
      rcases Cells.get_set (hd ▸ hi) with ⟨rfl, rfl⟩ | ⟨_, hi⟩
      · exact ⟨d, hget, rfl, rfl, .inl rfl⟩
      · exact ⟨d', hi, rfl, rfl, .inr rfl⟩
    refine ⟨?_, ?_, ?_, ?_⟩
    · intro i j d₁ d₂ hi hj htr hix
      obtain ⟨d₁', hi', htr₁, hix₁, _⟩ := old hi
      obtain ⟨d₂', hj', htr₂, hix₂, _⟩ := old hj
      exact h.unique i j d₁' d₂' hi' hj' (htr₁ ▸ htr₂ ▸ htr) (hix₁ ▸ hix₂ ▸ hix)
    · intro d' hmem hacked
      obtain ⟨i, hi⟩ := List.mem_iff_getElem?.mp hmem
      rcases Cells.get_set (hd ▸ hi) with ⟨rfl, rfl⟩ | ⟨hne, hi⟩
      · exact absurd (hacked.symm.trans (Phase.told_acked _)) (by simp)
      · obtain ⟨w₀, hw₀, e, he, hix, hdone⟩ := h.waits d' (List.mem_of_getElem? hi) hacked
        by_cases htr : d'.tracker = d.tracker
        · rw [htr] at hw₀ ⊢
          obtain rfl := Option.some.inj (hw.symm.trans hw₀)
          refine ⟨_, ht ▸ Cells.get_set_self hw, e, ?_, hix, hdone⟩
          have hother : e.index ≠ d.index := fun heq =>
            hne (h.unique i id d' d hi hget htr (hix.symm.trans heq))
          rcases Watermark.mem_advance_or_done (Watermark.mark_other he hother) with hm | hm
          · exact hm
          · exact absurd (hdone.symm.trans hm) (by simp)
        · exact ⟨w₀, ht ▸ (Cells.get_set_ne htr).trans hw₀, e, he, hix, hdone⟩
    · intro d' hmem hacked w' hw' e he hix
      obtain ⟨i, hi⟩ := List.mem_iff_getElem?.mp hmem
      obtain ⟨d₀, hi₀, htr, hix₀, hor⟩ := old hi
      rcases new hw' with ⟨heq, rfl⟩ | ⟨hne, hw'⟩
      · obtain ⟨e₀, he₀, hie, _, hmark⟩ := Watermark.mem_settle he
        rcases hor with rfl | rfl
        · obtain rfl := Option.some.inj (hget.symm.trans hi₀)
          exact hmark.mpr (.inr (hie.symm.trans (hix.trans hix₀)))
        · exact hmark.mpr (.inl (h.told d' (List.mem_of_getElem? hi₀) hacked w (heq ▸ hw) e₀ he₀
            (hie.symm.trans hix)))
      · rcases hor with rfl | rfl
        · obtain rfl := Option.some.inj (hget.symm.trans hi₀)
          exact absurd htr hne
        · exact h.told d' (List.mem_of_getElem? hi₀) hacked w' hw' e he hix
    · intro t w' e es hw' hp
      rcases new hw' with ⟨_, rfl⟩ | ⟨_, hw'⟩
      · exact Watermark.advance_front hp
      · exact h.front t w' e es hw' hp

/-- The deliveries that wait in the channel. -/
def waitingIds (u : Subscription) : List Nat := u.queue.filterMap Stamped.id

def QueuedAt (u : Subscription) (id : Nat) : Prop :=
  ∃ d, u.deliveries[id]? = some d ∧ d.phase = .queued

/-- The channel holds each delivery that was not received, once. -/
structure Channel (u : Subscription) : Prop where
  nodup : u.waitingIds.Nodup
  mem : ∀ id, id ∈ u.waitingIds ↔ u.QueuedAt id

theorem Channel.init : Channel {} := by
  constructor <;> simp [waitingIds, QueuedAt]

theorem QueuedAt.set {id j : Nat} {d : Delivery} {phase : Phase}
    (hp : phase ≠ .queued) (hds : u'.deliveries = u.deliveries.set id { d with phase := phase }) :
    u'.QueuedAt j ↔ u.QueuedAt j ∧ j ≠ id := by
  constructor
  · rintro ⟨d', hd', hq⟩
    rcases Cells.get_set (hds ▸ hd') with ⟨_, rfl⟩ | ⟨hne, hd'⟩
    · exact absurd hq hp
    · exact ⟨⟨d', hd', hq⟩, hne⟩
  · rintro ⟨⟨d', hd', hq⟩, hne⟩
    exact ⟨d', hds ▸ (Cells.get_set_ne hne).trans hd', hq⟩

theorem Channel.same (h : Channel u) (hids : u'.waitingIds = u.waitingIds)
    (hd : u'.deliveries = u.deliveries) : Channel u' := by
  refine ⟨hids ▸ h.nodup, fun j => ?_⟩
  rw [hids, h.mem, QueuedAt, QueuedAt, hd]

theorem Channel.settling {id : Nat} {d : Delivery} {phase : Phase} (h : Channel u)
    (hd : u.deliveries[id]? = some d) (hd₀ : d.phase ≠ .queued) (hp : phase ≠ .queued)
    (hds : u'.deliveries = u.deliveries.set id { d with phase := phase })
    (hq : u'.queue = u.queue) : Channel u' := by
  have hids : u'.waitingIds = u.waitingIds := by rw [waitingIds, waitingIds, hq]
  refine ⟨hids ▸ h.nodup, fun j => ?_⟩
  rw [hids, h.mem, QueuedAt.set hp hds]
  refine ⟨fun hj => ⟨hj, ?_⟩, And.left⟩
  rintro rfl
  obtain ⟨d', hd', hq'⟩ := hj
  obtain rfl := Option.some.inj (hd.symm.trans hd')
  exact hd₀ hq'

theorem Channel.push {stamped : Stamped} (h : Channel u) (hd : u'.deliveries = u.deliveries)
    (hitem : ∀ id, stamped.item ≠ .delivery id) (hq : u'.queue = u.queue ++ [stamped]) :
    Channel u' := h.same (by simp [waitingIds, hq, Stamped.id_eq_none hitem]) hd

theorem Channel.hand {stamped : Stamped} {d : Delivery} (h : Channel u)
    (hd : u'.deliveries = u.deliveries ++ [d]) (hp : d.phase = .queued)
    (hitem : stamped.item = .delivery u.deliveries.length)
    (hq : u'.queue = u.queue ++ [stamped]) : Channel u' := by
  have hids : u'.waitingIds = u.waitingIds ++ [u.deliveries.length] := by
    simp [waitingIds, hq, Stamped.id, hitem]
  have hlt : ∀ id ∈ u.waitingIds, id < u.deliveries.length := by
    intro id hid
    obtain ⟨d, hd, _⟩ := (h.mem id).mp hid
    exact Cells.get_lt hd
  refine ⟨?_, fun j => ?_⟩
  · rw [hids]
    refine List.nodup_append.mpr ⟨h.nodup, by simp, ?_⟩
    intro i hi j hj
    obtain rfl := List.mem_singleton.mp hj
    exact Nat.ne_of_lt (hlt i hi)
  · rw [hids, List.mem_append, List.mem_singleton, h.mem]
    constructor
    · rintro (⟨d', hd', hq'⟩ | rfl)
      · exact ⟨d', hd ▸ Cells.get_push_old hd', hq'⟩
      · exact ⟨d, hd ▸ List.getElem?_concat_length, hp⟩
    · rintro ⟨d', hd', hq'⟩
      rcases Cells.get_push (hd ▸ hd') with hd' | ⟨rfl, _⟩
      · exact .inl ⟨d', hd', hq'⟩
      · exact .inr rfl

theorem Channel.step (h : Channel u) (hs : Step u owner shard lease a lease' u') : Channel u' := by
  cases hs with
  | reader hr hs =>
    cases hs with
    | rowFail | openFail | fatal | gaveUp | retry | refusedRecord =>
      exact h.push rfl (by simp) rfl
    | handedOut => exact h.hand rfl rfl rfl rfl
    | _ => exact h.same rfl rfl
  | reported => exact h.push rfl (by simp) rfl
  | leave =>
    refine ⟨by simp [waitingIds, Subscription.leave], fun j => ?_⟩
    simp only [waitingIds, Subscription.leave, List.filterMap_nil, List.not_mem_nil, false_iff]
    rintro ⟨d, hd, hq⟩
    simp only [List.getElem?_map] at hd
    obtain ⟨d₀, _, rfl⟩ := Option.map_eq_some_iff.mp hd
    split at hq <;> simp_all
  | @pollDelivery id d stamped rest _ hqueue hitem hd hp =>
    have hids : u.waitingIds = id :: rest.filterMap Stamped.id := by
      simp [waitingIds, hqueue, Stamped.id, hitem]
    have hnodup := h.nodup
    rw [hids] at hnodup
    obtain ⟨hnot, hrest⟩ := List.nodup_cons.mp hnodup
    refine ⟨hrest, fun j => ?_⟩
    have hphase : (if stamped.current u.gates then Phase.held else .discarded) ≠ .queued := by
      split <;> simp
    rw [QueuedAt.set (u := u) hphase rfl, ← h.mem, hids, List.mem_cons]
    constructor
    · intro hj
      exact ⟨.inr hj, fun he => hnot (he ▸ hj)⟩
    · rintro ⟨hj | hj, hne⟩
      · exact absurd hj hne
      · exact hj
  | pollOther _ hqueue hitem =>
    exact h.same (by simp [waitingIds, hqueue, Stamped.id_eq_none hitem]) rfl
  | ackCurrent hd hp | ackStale hd hp | refuse hd hp =>
    exact h.settling hd (by simp [hp]) (by simp) rfl rfl
  | settled hd _ hp =>
    exact h.settling hd (by simp [hp]) (Phase.told_ne_queued _) rfl rfl
  | written hd hp | notWritten hd hp =>
    exact h.settling hd (by simp [hp]) (by simp) rfl rfl
  | _ => exact h.same rfl rfl

end Subscription

end RuststreamKinesis
