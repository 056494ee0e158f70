import RuststreamKinesis.Steps

/-!
# What a step does to the bookkeeping

Deliveries and trackers change in four ways only: a delivery's settlement moves on, a tracker is
allocated, a record is handed out, a tracker is told of a settlement. `Step.books` says which.
-/

namespace RuststreamKinesis

set_option autoImplicit false

/-- The delivery was acked or dropped and its tracker has been told. -/
def Phase.acked : Phase → Bool
  | .writing _ | .settled _ => true
  | _ => false

/-- The moves of a settlement that leave the trackers alone. -/
inductive Phase.Moves : Phase → Phase → Prop where
  | refl (p : Phase) : Moves p p
  | receive : Moves .queued .held
  | discard : Moves .queued .discarded
  | pass : Moves .held .checked
  | stale : Moves .held .stale
  | refuse : Moves .held .unsettled
  | write (sequence : Nat) : Moves (.writing sequence) (.settled (some sequence))

theorem Phase.Moves.acked {p q : Phase} (h : Phase.Moves p q) (hp : p.acked = true) :
    q.acked = true := by
  cases h <;> simp_all [Phase.acked]

/-- The watermark a settlement answered, written or still to be written. -/
def Phase.watermark : Phase → Option Nat
  | .writing c => some c
  | .settled w => w
  | _ => none

@[simp] theorem Phase.told_acked (advanced : Option Nat) : (Phase.told advanced).acked = true := by
  cases advanced <;> rfl

@[simp] theorem Phase.told_watermark (advanced : Option Nat) :
    (Phase.told advanced).watermark = advanced := by
  cases advanced <;> rfl

theorem Phase.told_ne_held (advanced : Option Nat) : Phase.told advanced ≠ .held := by
  cases advanced <;> simp [Phase.told]

theorem Phase.told_ne_queued (advanced : Option Nat) : Phase.told advanced ≠ .queued := by
  cases advanced <;> simp [Phase.told]

theorem Phase.Moves.watermark {p q : Phase} (h : Phase.Moves p q) :
    q.watermark = p.watermark := by
  cases h <;> rfl

/-- The same deliveries, each with its settlement where it was or one move on. -/
structure Rephased (ds ds' : List Delivery) : Prop where
  length : ds'.length = ds.length
  each : ∀ (i : Nat) (d' : Delivery), ds'[i]? = some d' → ∃ d : Delivery, ds[i]? = some d ∧
    d' = { d with phase := d'.phase } ∧ Phase.Moves d.phase d'.phase

namespace Rephased

theorem refl (ds : List Delivery) : Rephased ds ds :=
  ⟨rfl, fun _ d h => ⟨d, h, rfl, .refl _⟩⟩

theorem set {ds : List Delivery} {id : Nat} {d : Delivery} {phase : Phase}
    (hd : ds[id]? = some d) (hm : Phase.Moves d.phase phase) :
    Rephased ds (ds.set id { d with phase := phase }) := by
  refine ⟨List.length_set .., ?_⟩
  intro i d' hi
  rw [List.getElem?_set] at hi
  split at hi
  · rename_i he
    subst he
    split at hi
    · obtain rfl := Option.some.inj hi
      exact ⟨d, hd, rfl, hm⟩
    · cases hi
  · exact ⟨d', hi, rfl, .refl _⟩

theorem leave (ds : List Delivery) : Rephased ds (ds.map fun d =>
    if d.phase = .queued then { d with phase := .discarded } else d) := by
  refine ⟨List.length_map .., ?_⟩
  intro i d' hi
  rw [List.getElem?_map] at hi
  obtain ⟨d, hd, rfl⟩ := Option.map_eq_some_iff.mp hi
  refine ⟨d, hd, ?_⟩
  split
  · rename_i hq
    exact ⟨rfl, hq ▸ .discard⟩
  · exact ⟨rfl, .refl _⟩

theorem mem {ds ds' : List Delivery} (h : Rephased ds ds') {d' : Delivery} (hd : d' ∈ ds') :
    ∃ d : Delivery, d ∈ ds ∧ d' = { d with phase := d'.phase } ∧ Phase.Moves d.phase d'.phase := by
  obtain ⟨i, hi⟩ := List.mem_iff_getElem?.mp hd
  obtain ⟨d, hid, he, hm⟩ := h.each i d' hi
  exact ⟨d, List.mem_of_getElem? hid, he, hm⟩

theorem get {ds ds' : List Delivery} (h : Rephased ds ds') {i : Nat} {d : Delivery}
    (hd : ds[i]? = some d) : ∃ phase, ds'[i]? = some { d with phase := phase } ∧
      Phase.Moves d.phase phase := by
  have hi : i < ds'.length := by
    rw [h.length]
    exact (List.getElem?_eq_some_iff.mp hd).1
  obtain ⟨o, ho, he, hm⟩ := h.each i ds'[i] (List.getElem?_eq_getElem hi)
  obtain rfl : o = d := Option.some.inj (ho ▸ hd)
  exact ⟨ds'[i].phase, by rw [List.getElem?_eq_getElem hi]; exact congrArg some he, hm⟩

end Rephased

namespace Subscription

variable {Owner : Type} [DecidableEq Owner]

/-- The four ways in which a step touches the trackers and the deliveries. -/
inductive Books (shard : Shard) (u u' : Subscription) : Prop where
  | quiet (ht : u'.trackers = u.trackers) (hd : Rephased u.deliveries u'.deliveries)
  | fresh (ht : u'.trackers = u.trackers ++ [({} : Watermark)]) (hd : u'.deliveries = u.deliveries)
  | handed {r : Reader} {epoch next stop : Nat} {last idle : Bool} {record : Record}
      {w : Watermark} (hr : u.reader = some r)
      (hpc : r.pc = .forwarding epoch next stop last idle) (hlt : next < stop)
      (hrec : r.reading.unrecorded = false) (hlog : shard.log[next]? = some record)
      (hagg : record.aggregated = false) (hw : u.trackers[r.tracker]? = some w)
      (ht : u'.trackers = u.trackers.set r.tracker (w.deliver next))
      (hd : u'.deliveries = u.deliveries ++ [{
        sequence := next, tracker := r.tracker, index := w.nextIndex, gate := r.gate,
        epoch := epoch, via := u.applied, phase := .queued }])
      (hnoted : ∃ r', u'.reader = some r' ∧ r'.reading = r.reading.noteFirst next)
  | settled {id : Nat} {d : Delivery} {w : Watermark} (hget : u.deliveries[id]? = some d)
      (hw : u.trackers[d.tracker]? = some w) (hphase : d.phase = .checked)
      (ht : u'.trackers = u.trackers.set d.tracker (w.settle d.index).2)
      (hd : u'.deliveries = u.deliveries.set id { d with phase := .told (w.settle d.index).1 })

variable {u u' : Subscription} {owner : Owner} {shard : Shard} {lease lease' : MemoryLease Owner}
variable {r : Reader} {act : ReaderAct} {a : SubAct}

theorem Books.untouched (ht : u'.trackers = u.trackers) (hd : u'.deliveries = u.deliveries) :
    Books shard u u' := .quiet ht (hd ▸ Rephased.refl _)

theorem ReaderStep.books (hr : u.reader = some r)
    (h : ReaderStep u owner shard lease r act lease' u') : Books shard u u' := by
  cases h with
  | sought => exact .fresh rfl rfl
  | handedOut hpc hlt hrec hlog hagg _ _ hw =>
    exact .handed hr hpc hlt hrec hlog hagg hw rfl rfl ⟨_, rfl, rfl⟩
  | _ => exact .untouched rfl rfl

theorem Step.books (h : Step u owner shard lease a lease' u') : Books shard u u' := by
  cases h with
  | acquired => exact .fresh rfl rfl
  | leave => exact .quiet rfl (Rephased.leave _)
  | reader hr h => exact h.books hr
  | pollDelivery _ _ _ hd hqueued =>
    refine .quiet rfl (.set hd ?_)
    split
    · exact hqueued ▸ .receive
    · exact hqueued ▸ .discard
  | ackCurrent hd hheld => exact .quiet rfl (.set hd (hheld ▸ .pass))
  | ackStale hd hheld => exact .quiet rfl (.set hd (hheld ▸ .stale))
  | settled hd hw hphase => exact .settled hd hw hphase rfl rfl
  | written hd hphase => exact .quiet rfl (.set hd (hphase ▸ .write _))
  | notWritten hd hphase => exact .quiet rfl (.set hd (hphase ▸ .write _))
  | refuse hd hheld => exact .quiet rfl (.set hd (hheld ▸ .refuse))
  | _ => exact .untouched rfl rfl

theorem Books.trackers_le (h : Books shard u u') : u.trackers.length ≤ u'.trackers.length := by
  cases h with
  | quiet ht => exact le_of_eq (ht ▸ rfl)
  | fresh ht => simp [ht]
  | handed _ _ _ _ _ _ _ ht => simp [ht]
  | settled _ _ _ ht => simp [ht]

theorem Books.get (h : Books shard u u') {i : Nat} {d : Delivery} (hd : u.deliveries[i]? = some d) :
    ∃ phase, u'.deliveries[i]? = some { d with phase := phase } ∧
      (d.phase.acked = true → phase.acked = true) := by
  cases h with
  | quiet _ hds =>
    obtain ⟨phase, hp, hm⟩ := hds.get hd
    exact ⟨phase, hp, hm.acked⟩
  | fresh _ hds => exact ⟨d.phase, hds ▸ hd, id⟩
  | handed _ _ _ _ _ _ _ _ hds =>
    refine ⟨d.phase, ?_, id⟩
    rw [hds, List.getElem?_append_left (List.getElem?_eq_some_iff.mp hd).1]
    exact hd
  | @settled id d₀ w hget hw hphase _ hds =>
    by_cases hi : i = id
    · subst hi
      obtain rfl : d₀ = d := Option.some.inj (hget ▸ hd)
      refine ⟨.told (w.settle d₀.index).1, ?_, fun _ => Phase.told_acked _⟩
      rw [hds, List.getElem?_set_self (List.getElem?_eq_some_iff.mp hd).1]
    · refine ⟨d.phase, ?_, fun h => h⟩
      rw [hds, List.getElem?_set_ne (Ne.symm hi)]
      exact hd

theorem Books.mem (h : Books shard u u') {d' : Delivery} (hd' : d' ∈ u'.deliveries) :
    (∃ d ∈ u.deliveries, d' = { d with phase := d'.phase }) ∨
      ∃ record, shard.log[d'.sequence]? = some record ∧ record.aggregated = false := by
  cases h with
  | quiet _ hds =>
    obtain ⟨d, hd, he, _⟩ := hds.mem hd'
    exact .inl ⟨d, hd, he⟩
  | fresh _ hds => exact .inl ⟨d', hds ▸ hd', rfl⟩
  | handed _ _ _ _ hlog hagg _ _ hds =>
    rw [hds] at hd'
    rcases Cells.mem_push hd' with hd' | rfl
    · exact .inl ⟨d', hd', rfl⟩
    · exact .inr ⟨_, hlog, hagg⟩
  | settled hget _ _ _ hds =>
    rw [hds] at hd'
    rcases List.mem_or_eq_of_mem_set hd' with hd' | rfl
    · exact .inl ⟨d', hd', rfl⟩
    · exact .inl ⟨_, List.mem_of_getElem? hget, rfl⟩

end Subscription

end RuststreamKinesis
