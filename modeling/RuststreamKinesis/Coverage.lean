import RuststreamKinesis.Books
import RuststreamKinesis.Lib.Cells
import Mathlib.Data.Nat.SuccPred

/-!
# What the trackers cover

A tracker covers the shard from `b` on when every record from `b` up to a delivery it still waits
for is done or was delivered before it. `T` picks the trackers of a reading and `Done` is what
counts as done; both are parameters, so that one argument serves every claim about checkpoints.
-/

namespace RuststreamKinesis

set_option autoImplicit false

open Window

namespace Subscription

/-- Deliveries carry the index their tracker gave them. -/
structure Linked (u : Subscription) : Prop where
  ordered : ∀ (t : Nat) (w : Watermark), u.trackers[t]? = some w → w.Ordered
  tracker_lt : ∀ d ∈ u.deliveries, d.tracker < u.trackers.length
  index_lt : ∀ d ∈ u.deliveries, ∀ w, u.trackers[d.tracker]? = some w → d.index < w.nextIndex
  sequence : ∀ d ∈ u.deliveries, ∀ w, u.trackers[d.tracker]? = some w →
    ∀ e ∈ w.pending, e.index = d.index → e.sequence = d.sequence
  entry : ∀ (t : Nat) (w : Watermark), u.trackers[t]? = some w → ∀ e ∈ w.pending,
    ∃ d ∈ u.deliveries, d.tracker = t ∧ d.index = e.index ∧ d.sequence = e.sequence

structure Tracked (T : Nat → Prop) (Done : Nat → Prop) (b : Nat) (u : Subscription) : Prop where
  flagged : ∀ (t : Nat) (w : Watermark), T t → u.trackers[t]? = some w →
    ∀ e ∈ w.pending, e.done = true → Done e.sequence
  stacked : ∀ (t : Nat) (w : Watermark), T t → u.trackers[t]? = some w →
    Stacked Done b (w.pending.map Entry.sequence)
  watermark : ∀ d ∈ u.deliveries, T d.tracker → ∀ c, d.phase.watermark = some c →
    DoneTo Done b c
  above : ∀ d ∈ u.deliveries, T d.tracker → b ≤ d.sequence

/-- A reading through tracker `t` has come to `p`: all before it is done or waited for. -/
def Reached (Done : Nat → Prop) (b : Nat) (u : Subscription) (t p : Nat) : Prop :=
  ∃ w, u.trackers[t]? = some w ∧ Through Done b p (w.pending.map Entry.sequence)

variable {u u' : Subscription} {shard : Shard} {T : Nat → Prop} {Done Done' : Nat → Prop}
variable {b t p : Nat}

theorem Linked.books (h : Linked u) (hb : Books shard u u') : Linked u' := by
  have entry : ∀ (t : Nat) (w : Watermark), u.trackers[t]? = some w → ∀ e ∈ w.pending,
      ∃ d ∈ u'.deliveries, d.tracker = t ∧ d.index = e.index ∧ d.sequence = e.sequence := by
    intro t w hw e he
    obtain ⟨d, hd, htr, hix, hsq⟩ := h.entry t w hw e he
    obtain ⟨i, hi⟩ := List.mem_iff_getElem?.mp hd
    obtain ⟨phase, hi', _⟩ := hb.get hi
    exact ⟨_, List.mem_of_getElem? hi', htr, hix, hsq⟩
  cases hb with
  | quiet ht hd =>
    constructor
    · rw [ht]
      exact h.ordered
    · intro d' hmem
      obtain ⟨d, hd, he, _⟩ := hd.mem hmem
      rw [ht, he]
      exact h.tracker_lt d hd
    · intro d' hmem
      obtain ⟨d, hd, he, _⟩ := hd.mem hmem
      rw [ht, he]
      exact h.index_lt d hd
    · intro d' hmem
      obtain ⟨d, hd, he, _⟩ := hd.mem hmem
      rw [ht, he]
      exact h.sequence d hd
    · intro t w hw
      exact entry t w (ht ▸ hw)
  | fresh ht hd =>
    have old : ∀ d ∈ u.deliveries, ∀ w, u'.trackers[d.tracker]? = some w →
        u.trackers[d.tracker]? = some w := by
      intro d hmem w hw
      rw [ht] at hw
      rcases Cells.get_push hw with hw | ⟨he, _⟩
      · exact hw
      · exact absurd (h.tracker_lt d hmem) (by omega)
    constructor
    · intro i w hw
      rw [ht] at hw
      rcases Cells.get_push hw with hw | ⟨_, rfl⟩
      · exact h.ordered i w hw
      · exact .empty
    · intro d hmem
      rw [hd] at hmem
      rw [ht, List.length_append]
      exact Nat.lt_add_right _ (h.tracker_lt d hmem)
    · intro d hmem w hw
      rw [hd] at hmem
      exact h.index_lt d hmem w (old d hmem w hw)
    · intro d hmem w hw
      rw [hd] at hmem
      exact h.sequence d hmem w (old d hmem w hw)
    · intro t w hw
      rcases Cells.get_push (ht ▸ hw) with hw | ⟨_, rfl⟩
      · exact entry t w hw
      · intro e he
        cases he
  | @handed r epoch next stop last idle record w hr hpc hlt hrec hlog hagg hw ht hd =>
    have hord := h.ordered _ w hw
    constructor
    · intro i w' hw'
      rw [ht] at hw'
      rcases Cells.get_set hw' with ⟨_, rfl⟩ | ⟨_, hw'⟩
      · exact hord.deliver next
      · exact h.ordered i w' hw'
    · intro d hmem
      rw [hd] at hmem
      rw [ht, List.length_set]
      rcases Cells.mem_push hmem with hmem | rfl
      · exact h.tracker_lt d hmem
      · exact Cells.get_lt hw
    · intro d hmem w' hw'
      rw [hd] at hmem
      rw [ht] at hw'
      rcases Cells.mem_push hmem with hmem | rfl
      · rcases Cells.get_set hw' with ⟨he, rfl⟩ | ⟨_, hw'⟩
        · exact Nat.lt_succ_of_lt (h.index_lt d hmem w (he ▸ hw))
        · exact h.index_lt d hmem w' hw'
      · rcases Cells.get_set hw' with ⟨_, rfl⟩ | ⟨hne, _⟩
        · exact Nat.lt_succ_self _
        · exact absurd rfl hne
    · intro d hmem w' hw' e he hi
      rw [hd] at hmem
      rw [ht] at hw'
      rcases Cells.mem_push hmem with hmem | rfl
      · rcases Cells.get_set hw' with ⟨hid, rfl⟩ | ⟨_, hw'⟩
        · have hlt' := h.index_lt d hmem w (hid ▸ hw)
          rcases Watermark.mem_deliver he with he | rfl
          · exact h.sequence d hmem w (hid ▸ hw) e he hi
          · exact absurd hi (Nat.ne_of_gt hlt')
        · exact h.sequence d hmem w' hw' e he hi
      · rcases Cells.get_set hw' with ⟨_, rfl⟩ | ⟨hne, _⟩
        · rcases Watermark.mem_deliver he with he | rfl
          · exact absurd hi (Nat.ne_of_lt (hord.below e he))
          · rfl
        · exact absurd rfl hne
    · intro t w' hw' e he
      rcases Cells.get_set (ht ▸ hw') with ⟨rfl, rfl⟩ | ⟨_, hw'⟩
      · rcases Watermark.mem_deliver he with he | rfl
        · exact entry _ w hw e he
        · exact ⟨_, hd ▸ List.mem_append_right _ List.mem_cons_self, rfl, rfl, rfl⟩
      · exact entry t w' hw' e he
  | @settled id d w hget hw hphase ht hd =>
    have old : ∀ d' ∈ u'.deliveries, ∃ d₀ ∈ u.deliveries, d'.tracker = d₀.tracker ∧
        d'.index = d₀.index ∧ d'.sequence = d₀.sequence := by
      intro d' hmem
      rw [hd] at hmem
      rcases Cells.mem_set hmem with rfl | hmem
      · exact ⟨d, List.mem_of_getElem? hget, rfl, rfl, rfl⟩
      · exact ⟨d', hmem, rfl, rfl, rfl⟩
    constructor
    · intro i w' hw'
      rw [ht] at hw'
      rcases Cells.get_set hw' with ⟨_, rfl⟩ | ⟨_, hw'⟩
      · exact (h.ordered _ w hw).settle d.index
      · exact h.ordered i w' hw'
    · intro d' hmem
      obtain ⟨d₀, hmem₀, htr, _, _⟩ := old d' hmem
      rw [ht, List.length_set, htr]
      exact h.tracker_lt d₀ hmem₀
    · intro d' hmem w' hw'
      obtain ⟨d₀, hmem₀, htr, hix, _⟩ := old d' hmem
      rw [htr, ht] at hw'
      rw [hix]
      rcases Cells.get_set hw' with ⟨he, rfl⟩ | ⟨_, hw'⟩
      · exact h.index_lt d₀ hmem₀ w (he ▸ hw)
      · exact h.index_lt d₀ hmem₀ w' hw'
    · intro d' hmem w' hw' e he hi
      obtain ⟨d₀, hmem₀, htr, hix, hsq⟩ := old d' hmem
      rw [htr, ht] at hw'
      rw [hix] at hi
      rw [hsq]
      rcases Cells.get_set hw' with ⟨hid, rfl⟩ | ⟨_, hw'⟩
      · obtain ⟨e₀, he₀, hi₀, hs₀, _⟩ := Watermark.mem_settle he
        rw [hs₀]
        exact h.sequence d₀ hmem₀ w (hid ▸ hw) e₀ he₀ (hi₀ ▸ hi)
      · exact h.sequence d₀ hmem₀ w' hw' e he hi
    · intro t w' hw' e he
      rcases Cells.get_set (ht ▸ hw') with ⟨rfl, rfl⟩ | ⟨_, hw'⟩
      · obtain ⟨e₀, he₀, hi₀, hs₀, _⟩ := Watermark.mem_settle he
        rw [hi₀, hs₀]
        exact entry _ w hw e₀ he₀
      · exact entry t w' hw' e he

theorem settle_covers {w : Watermark} (index : Nat)
    (hst : Stacked Done b (w.pending.map Entry.sequence))
    (hfl : ∀ e ∈ w.pending, e.done = true → Done e.sequence)
    (hix : ∀ e ∈ w.pending, e.index = index → Done e.sequence) :
    (∀ e ∈ (w.settle index).2.pending, e.done = true → Done e.sequence) ∧
      Stacked Done b ((w.settle index).2.pending.map Entry.sequence) ∧
      ∀ c, (w.settle index).1 = some c → DoneTo Done b c := by
  have hmark : ∀ e ∈ Watermark.mark index w.pending, e.done = true → Done e.sequence := by
    intro e he hdone
    obtain ⟨old, hold, _, hseq, hor⟩ := Watermark.mem_mark he
    rw [hseq]
    rcases hor.mp hdone with ho | hi
    · exact hfl old hold ho
    · exact hix old hold hi
  have hst' : Stacked Done b ((Watermark.mark index w.pending).map Entry.sequence) := by
    rwa [Watermark.mark_sequence]
  obtain ⟨hrest, hto⟩ := Watermark.advance_stacked hst' hmark
  exact ⟨fun e he => hmark e (Watermark.mem_of_mem_advance he), hrest, hto⟩

/-- The step lemma of coverage: a record is handed out only by a reading that has reached it. -/
theorem Tracked.books (h : Tracked T Done b u) (hl : Linked u) (hb : Books shard u u')
    (hmono : ∀ n, Done n → Done' n)
    (hacked : ∀ d ∈ u'.deliveries, T d.tracker → d.phase.acked = true → Done' d.sequence)
    (hhand : ∀ r epoch next stop last idle d, u.reader = some r →
      r.pc = .forwarding epoch next stop last idle → r.reading.unrecorded = false →
      u'.deliveries = u.deliveries ++ [d] → d.tracker = r.tracker → d.sequence = next →
      next < stop → T r.tracker → Reached Done b u r.tracker next) :
    Tracked T Done' b u' := by
  have hflag : ∀ (t : Nat) (w : Watermark), T t → u.trackers[t]? = some w →
      ∀ e ∈ w.pending, e.done = true → Done' e.sequence :=
    fun t w hT hw e he hd => hmono _ (h.flagged t w hT hw e he hd)
  have hstack : ∀ (t : Nat) (w : Watermark), T t → u.trackers[t]? = some w →
      Stacked Done' b (w.pending.map Entry.sequence) :=
    fun t w hT hw => (h.stacked t w hT hw).mono hmono
  have hmark : ∀ d ∈ u.deliveries, T d.tracker → ∀ c, d.phase.watermark = some c →
      DoneTo Done' b c := fun d hd hT c hc => (h.watermark d hd hT c hc).mono hmono
  cases hb with
  | quiet ht hd =>
    refine ⟨fun t w hT hw => hflag t w hT (ht ▸ hw), fun t w hT hw => hstack t w hT (ht ▸ hw),
      ?_, ?_⟩
    · intro d' hmem hT c hc
      obtain ⟨d, hmem, he, hm⟩ := hd.mem hmem
      rw [hm.watermark] at hc
      rw [he] at hT
      exact hmark d hmem hT c hc
    · intro d' hmem hT
      obtain ⟨d, hmem, he, _⟩ := hd.mem hmem
      rw [he] at hT ⊢
      exact h.above d hmem hT
  | fresh ht hd =>
    refine ⟨?_, ?_, fun d hmem => hmark d (hd ▸ hmem), fun d hmem => h.above d (hd ▸ hmem)⟩
    · intro t w hT hw
      rcases Cells.get_push (ht ▸ hw) with hw | ⟨_, rfl⟩
      · exact hflag t w hT hw
      · intro e he
        cases he
    · intro t w hT hw
      rcases Cells.get_push (ht ▸ hw) with hw | ⟨_, rfl⟩
      · exact hstack t w hT hw
      · exact .nil
  | @handed r epoch next stop last idle record w hr hpc hlt hrec hlog hagg hw ht hd =>
    refine ⟨?_, ?_, ?_, ?_⟩
    · intro t w' hT hw'
      rcases Cells.get_set (ht ▸ hw') with ⟨rfl, rfl⟩ | ⟨_, hw'⟩
      · intro e he hdone
        rcases Watermark.mem_deliver he with he | rfl
        · exact hflag _ w hT hw e he hdone
        · cases hdone
      · exact hflag t w' hT hw'
    · intro t w' hT hw'
      rcases Cells.get_set (ht ▸ hw') with ⟨rfl, rfl⟩ | ⟨_, hw'⟩
      · obtain ⟨w₀, hw₀, hthrough⟩ := hhand r _ _ _ _ _ _ hr hpc hrec hd rfl rfl hlt hT
        obtain rfl : w₀ = w := Option.some.inj (hw₀ ▸ hw)
        simp only [Watermark.deliver, List.map_append, List.map_cons, List.map_nil]
        exact (hstack _ _ hT hw).push (hthrough.mono hmono fun n hn => .inr hn)
      · exact hstack t w' hT hw'
    · intro d hmem hT c hc
      rw [hd] at hmem
      rcases Cells.mem_push hmem with hmem | rfl
      · exact hmark d hmem hT c hc
      · cases hc
    · intro d hmem hT
      rw [hd] at hmem
      rcases Cells.mem_push hmem with hmem | rfl
      · exact h.above d hmem hT
      · obtain ⟨_, _, hthrough⟩ := hhand r _ _ _ _ _ _ hr hpc hrec hd rfl rfl hlt hT
        exact hthrough.1
  | @settled id d w hget hw hphase ht hd =>
    have hmem := List.mem_of_getElem? hget
    have hself : T d.tracker → Done' d.sequence := by
      intro hT
      have hnew : { d with phase := .told (w.settle d.index).1 } ∈ u'.deliveries :=
        hd ▸ List.mem_of_getElem? (Cells.get_set_self hget)
      exact (hacked _ hnew hT (Phase.told_acked _) :)
    have hcov : T d.tracker → _ := fun hT => settle_covers d.index (hstack _ w hT hw)
      (hflag _ w hT hw) fun e he hi => hl.sequence d hmem w hw e he hi ▸ hself hT
    refine ⟨?_, ?_, ?_, ?_⟩
    · intro t w' hT hw'
      rcases Cells.get_set (ht ▸ hw') with ⟨rfl, rfl⟩ | ⟨_, hw'⟩
      · exact (hcov hT).1
      · exact hflag t w' hT hw'
    · intro t w' hT hw'
      rcases Cells.get_set (ht ▸ hw') with ⟨rfl, rfl⟩ | ⟨_, hw'⟩
      · exact (hcov hT).2.1
      · exact hstack t w' hT hw'
    · intro d' hmem' hT c hc
      rw [hd] at hmem'
      rcases Cells.mem_set hmem' with rfl | hmem'
      · exact (hcov hT).2.2 c (by simpa using hc)
      · exact hmark d' hmem' hT c hc
    · intro d' hmem' hT
      rw [hd] at hmem'
      rcases Cells.mem_set hmem' with rfl | hmem'
      · exact h.above d hmem hT
      · exact h.above d' hmem' hT

theorem Reached.books (h : Reached Done b u t p) (hT : T t) (htr : Tracked T Done b u)
    (hl : Linked u) (hb : Books shard u u') (hmono : ∀ n, Done n → Done' n)
    (hacked : ∀ d ∈ u'.deliveries, T d.tracker → d.phase.acked = true → Done' d.sequence) :
    Reached Done' b u' t p := by
  obtain ⟨w, hw, hthrough⟩ := h
  have hkeep : u'.trackers[t]? = some w → Reached Done' b u' t p :=
    fun hw' => ⟨w, hw', hthrough.mono hmono fun n hn => .inr hn⟩
  cases hb with
  | quiet ht hd => exact hkeep (ht ▸ hw)
  | fresh ht hd => exact hkeep (ht ▸ Cells.get_push_old hw)
  | @handed r epoch next stop last idle record w₀ hr hpc hlt hrec hlog hagg hw₀ ht hd =>
    by_cases he : t = r.tracker
    · subst he
      obtain rfl : w = w₀ := Option.some.inj (hw ▸ hw₀)
      refine ⟨_, ht ▸ Cells.get_set_self hw, hthrough.mono hmono fun n hn => .inr ?_⟩
      simp only [Watermark.deliver, List.map_append]
      exact List.mem_append_left _ hn
    · exact hkeep (ht ▸ (Cells.get_set_ne he).trans hw)
  | @settled id d w₀ hget hw₀ hphase ht hd =>
    by_cases he : t = d.tracker
    · subst he
      obtain rfl : w = w₀ := Option.some.inj (hw ▸ hw₀)
      have hself : Done' d.sequence := by
        have hnew : { d with phase := .told (w.settle d.index).1 } ∈ u'.deliveries :=
          hd ▸ List.mem_of_getElem? (Cells.get_set_self hget)
        exact (hacked _ hnew hT (Phase.told_acked _) :)
      refine ⟨_, ht ▸ Cells.get_set_self hw, hthrough.mono hmono ?_⟩
      intro n hn
      obtain ⟨e, hemem, rfl⟩ := List.mem_map.mp hn
      have hmem : (if e.index = d.index then { e with done := true } else e) ∈
          Watermark.mark d.index w.pending := List.mem_map.mpr ⟨e, hemem, rfl⟩
      rcases Watermark.mem_advance_or_done hmem with hm | hdone
      · refine .inr (List.mem_map.mpr ⟨_, hm, ?_⟩)
        split <;> rfl
      · split at hdone
        · rename_i hi
          exact .inl (hl.sequence d (List.mem_of_getElem? hget) w hw e hemem hi ▸ hself)
        · exact .inl (hmono _ (htr.flagged _ w hT hw e hemem hdone))
    · exact hkeep (ht ▸ (Cells.get_set_ne he).trans hw)

theorem Reached.next (h : Reached Done b u t p)
    (hp : Done p ∨ ∃ w, u.trackers[t]? = some w ∧ p ∈ w.pending.map Entry.sequence) :
    Reached Done b u t (p + 1) := by
  obtain ⟨w, hw, hthrough⟩ := h
  refine ⟨w, hw, hthrough.next (Order.covBy_add_one p) ?_⟩
  rcases hp with hp | ⟨w', hw', hp⟩
  · exact .inl hp
  · obtain rfl : w = w' := Option.some.inj (hw ▸ hw')
    exact .inr hp

theorem Reached.start (ht : t < u.trackers.length) (hp : Through Done b p []) :
    Reached Done b u t p :=
  ⟨_, List.getElem?_eq_getElem ht, hp.mono (fun _ => id) fun _ hn => by simp at hn⟩

theorem Reached.mono (h : Reached Done b u t p) (hmono : ∀ n, Done n → Done' n) :
    Reached Done' b u t p := by
  obtain ⟨w, hw, hthrough⟩ := h
  exact ⟨w, hw, hthrough.mono hmono fun _ hn => .inr hn⟩

theorem Tracked.mono (h : Tracked T Done b u) (hmono : ∀ n, Done n → Done' n) :
    Tracked T Done' b u where
  flagged t w hT hw e he hd := hmono _ (h.flagged t w hT hw e he hd)
  stacked t w hT hw := (h.stacked t w hT hw).mono hmono
  watermark d hd hT c hc := (h.watermark d hd hT c hc).mono hmono
  above := h.above

theorem Tracked.idle (hw : ∀ w ∈ u.trackers, w = {}) (hd : u.deliveries = []) :
    Tracked T Done b u where
  flagged t w _ ht e he := by
    rw [hw w (List.mem_of_getElem? ht)] at he
    cases he
  stacked t w _ ht := by
    rw [hw w (List.mem_of_getElem? ht)]
    exact .nil
  watermark d hmem := by simp [hd] at hmem
  above d hmem := by simp [hd] at hmem

end Subscription

end RuststreamKinesis
