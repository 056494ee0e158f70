import RuststreamKinesis.Ending
import RuststreamKinesis.Tip
import Mathlib.Data.List.Nodup

/-!
# How far the watermark catches up

A tracker knows deliveries by their index, so a record that is handed out again takes a second
place in it. The watermark catches up with what was settled as long as each delivery is settled
behind earlier records only, none of which is left open while another copy of it was settled.
-/

namespace RuststreamKinesis

set_option autoImplicit false

open Runs

namespace Watermark

theorem advance_answer {es : List Entry} {c : Nat} (h : (advance es).1 = some c) :
    ∃ e ∈ es, e.done = true ∧ e.sequence = c := by
  induction es with
  | nil => cases h
  | cons a es ih =>
    simp only [advance] at h
    split at h
    · rename_i ha
      cases hadv : (advance es).1 with
      | none =>
        rw [hadv] at h
        exact ⟨a, List.mem_cons_self, ha, Option.some.inj h⟩
      | some c' =>
        obtain rfl : c' = c := by simpa [hadv] using h
        obtain ⟨e, he, hdone, hseq⟩ := ih hadv
        exact ⟨e, List.mem_cons_of_mem a he, hdone, hseq⟩
    · cases h

/-- When settled entries are behind earlier records only, the answer covers all that is dropped. -/
theorem advance_covers {es : List Entry}
    (hs : es.Pairwise fun e e' => e'.done = true → e.sequence ≤ e'.sequence) {e : Entry}
    (he : e ∈ es) : e ∈ (advance es).2 ∨ ∃ c, (advance es).1 = some c ∧ e.sequence ≤ c := by
  induction es with
  | nil => cases he
  | cons a es ih =>
    obtain ⟨hhead, htail⟩ := List.pairwise_cons.mp hs
    simp only [advance]
    split
    · rcases List.mem_cons.mp he with rfl | he
      · right
        refine ⟨_, rfl, ?_⟩
        cases hadv : (advance es).1 with
        | none => exact le_refl _
        | some c =>
          obtain ⟨e', he', hdone, rfl⟩ := advance_answer hadv
          exact hhead e' he' hdone
      · rcases ih htail he with hleft | ⟨c, hc, hle⟩
        · exact .inl hleft
        · exact .inr ⟨c, by rw [hc]; rfl, hle⟩
    · exact .inl he

theorem mem_mark_of (index : Nat) {es : List Entry} {e : Entry} (h : e ∈ es) :
    ∃ e' ∈ mark index es, e'.index = e.index ∧ e'.sequence = e.sequence := by
  refine ⟨_, List.mem_map_of_mem h, ?_⟩
  split <;> exact ⟨rfl, rfl⟩

theorem mark_open {index : Nat} {es : List Entry} {e : Entry} (h : e ∈ mark index es)
    (hopen : e.done = false) : e ∈ es ∧ e.index ≠ index := by
  obtain ⟨old, hold, he⟩ := List.mem_map.mp h
  split at he
  · rw [← he] at hopen
    cases hopen
  · rename_i hne
    exact ⟨he ▸ hold, he ▸ hne⟩

end Watermark

namespace Subscription

variable {Owner : Type} [DecidableEq Owner] {u u' : Subscription} {owner : Owner}
variable {shard : Shard} {lease lease' : MemoryLease Owner} {a : SubAct} {t n : Nat}
variable {w : Watermark}

/-- The record was handed out through the tracker. -/
def HandedBy (u : Subscription) (t n : Nat) : Prop :=
  ∃ d ∈ u.deliveries, d.tracker = t ∧ d.sequence = n

/-- A delivery of the record through the tracker was acked or dropped. -/
def SettledBy (u : Subscription) (t n : Nat) : Prop :=
  ∃ d ∈ u.deliveries, d.tracker = t ∧ d.sequence = n ∧ d.phase.acked = true

/-- The tracker has answered the watermark. -/
def AnsweredBy (u : Subscription) (t c : Nat) : Prop :=
  ∃ d ∈ u.deliveries, d.tracker = t ∧ d.phase.watermark = some c

/-- Whenever all that was handed out up to a record is settled, an answered watermark covers it. -/
def CatchesUp (u : Subscription) (t : Nat) : Prop :=
  ∀ n, u.HandedBy t n → (∀ m, m ≤ n → u.HandedBy t m → u.SettledBy t m) →
    ∃ c, u.AnsweredBy t c ∧ n ≤ c

/-- Settled entries are behind earlier records only, those that are still open have no settled
copy, and what left the tracker is covered by an answer. -/
structure InTurn (u : Subscription) (t : Nat) (w : Watermark) : Prop where
  increasing : ∀ e ∈ w.pending, e.done = true → ∀ f ∈ w.pending, ∀ g ∈ w.pending,
    f.index < g.index → g.index ≤ e.index → f.sequence < g.sequence
  waiting : ∀ e ∈ w.pending, e.done = true → ∀ f ∈ w.pending, f.index < e.index →
    f.done = false → ¬ u.SettledBy t f.sequence
  covered : ∀ d ∈ u.deliveries, d.tracker = t → d.phase.acked = true →
    (∃ e ∈ w.pending, e.index = d.index) ∨ ∃ c, u.AnsweredBy t c ∧ d.sequence ≤ c

/-- What a settlement in turn meets: its tracker holds earlier records ahead of it, in order, and
none that is open there was settled through another copy. -/
structure SettlesInTurn (u : Subscription) (d : Delivery) (w : Watermark) : Prop where
  increasing : ∀ f ∈ w.pending, ∀ g ∈ w.pending, f.index < g.index → g.index ≤ d.index →
    f.sequence < g.sequence
  waiting : ∀ f ∈ w.pending, f.index < d.index → f.done = false →
    ¬ u.SettledBy d.tracker f.sequence

/-- The invariant's part for each tracker, with what it rests on. -/
structure Turns (u : Subscription) : Prop where
  linked : Linked u
  outstanding : Outstanding u
  inTurn : ∀ t w, u.trackers[t]? = some w → InTurn u t w

theorem Turns.init : Turns {} where
  linked := by constructor <;> simp
  outstanding := .init
  inTurn := by simp

theorem HandedBy.entry (hl : Linked u) (hw : u.trackers[t]? = some w) {e : Entry}
    (he : e ∈ w.pending) : u.HandedBy t e.sequence := by
  obtain ⟨d, hd, htr, _, hseq⟩ := hl.entry t w hw e he
  exact ⟨d, hd, htr, hseq⟩

theorem InTurn.catchesUp (h : InTurn u t w) (hl : Linked u) (ho : Outstanding u)
    (hw : u.trackers[t]? = some w) : CatchesUp u t := by
  intro n hn hall
  obtain ⟨d, hd, rfl, rfl, hacked⟩ := hall n (le_refl n) hn
  rcases h.covered d hd rfl hacked with ⟨e, he, hix⟩ | hc
  · exfalso
    have hdone := ho.told d hd hacked w hw e he hix
    have hseq := hl.sequence d hd w hw e he hix
    have hsorted := List.pairwise_map.mp (hl.ordered _ w hw).sorted
    match hpend : w.pending with
    | [] =>
      rw [hpend] at he
      cases he
    | f :: es =>
      have hf : f ∈ w.pending := hpend ▸ List.mem_cons_self
      have hopen := ho.front _ w f es hw hpend
      have hlt : f.index < e.index := by
        rw [hpend] at he hsorted
        rcases List.mem_cons.mp he with rfl | he
        · exact absurd (hdone.symm.trans hopen) (by simp)
        · exact (List.pairwise_cons.mp hsorted).1 e he
      have hbefore := h.increasing e he hdone f hf e he hlt (le_refl _)
      refine h.waiting e he hdone f hf hlt hopen (hall _ ?_ (.entry hl hw hf))
      omega
  · exact hc

theorem Outstanding.drained_iff (ho : Outstanding u) (hl : Linked u)
    (hw : u.trackers[t]? = some w) :
    w.drained = true ↔ ∀ d ∈ u.deliveries, d.tracker = t → d.phase.acked = true := by
  constructor
  · rintro hd d hmem rfl
    by_contra hnot
    obtain ⟨w', hw', e, he, _⟩ := ho.waits d hmem (by simpa using hnot)
    obtain rfl := Option.some.inj (hw.symm.trans hw')
    rw [List.isEmpty_iff.mp hd] at he
    cases he
  · intro hall
    apply List.isEmpty_iff.mpr
    match hpend : w.pending with
    | [] => rfl
    | f :: es =>
      have hf : f ∈ w.pending := hpend ▸ List.mem_cons_self
      obtain ⟨d, hd, rfl, hix, _⟩ := hl.entry t w hw f hf
      have hdone := ho.told d hd (hall d hd rfl) w hw f hf hix.symm
      exact absurd (hdone.symm.trans (ho.front _ w f es hw hpend)) (by simp)

theorem InTurn.empty (hd : ∀ d ∈ u.deliveries, d.tracker ≠ t) : InTurn u t {} where
  increasing := by simp
  waiting := by simp
  covered d hmem htr := absurd htr (hd d hmem)

theorem InTurn.kept (h : InTurn u t w)
    (hsettled : ∀ n, u'.SettledBy t n → u.SettledBy t n)
    (hanswered : ∀ c, u.AnsweredBy t c → u'.AnsweredBy t c)
    (hold : ∀ d' ∈ u'.deliveries, d'.tracker = t → d'.phase.acked = true →
      ∃ d ∈ u.deliveries, d.tracker = t ∧ d.index = d'.index ∧ d.sequence = d'.sequence ∧
        d.phase.acked = true) : InTurn u' t w where
  increasing := h.increasing
  waiting e he hdone f hf hlt hopen hs := h.waiting e he hdone f hf hlt hopen (hsettled _ hs)
  covered d' hd' htr hacked := by
    obtain ⟨d, hd, htr', hix, hseq, hacked'⟩ := hold d' hd' htr hacked
    rcases h.covered d hd htr' hacked' with ⟨e, he, hie⟩ | ⟨c, hc, hle⟩
    · exact .inl ⟨e, he, hie.trans hix⟩
    · exact .inr ⟨c, hanswered c hc, hseq ▸ hle⟩

theorem InTurn.deliver (h : InTurn u t w) (hord : w.Ordered) (next : Nat) :
    InTurn u t (w.deliver next) := by
  have old : ∀ {e f : Entry}, e ∈ w.pending → f ∈ (w.deliver next).pending →
      f.index ≤ e.index → f ∈ w.pending := by
    intro e f he hf hle
    rcases Watermark.mem_deliver hf with hf | rfl
    · exact hf
    · exact absurd (hord.below e he) (Nat.not_lt.mpr hle)
  have done : ∀ {e : Entry}, e ∈ (w.deliver next).pending → e.done = true → e ∈ w.pending := by
    intro e he hdone
    rcases Watermark.mem_deliver he with he | rfl
    · exact he
    · cases hdone
  refine ⟨?_, ?_, ?_⟩
  · intro e he hdone f hf g hg hlt hle
    have he := done he hdone
    exact h.increasing e he hdone f (old he hf (hlt.le.trans hle)) g (old he hg hle) hlt hle
  · intro e he hdone f hf hlt
    have he := done he hdone
    exact h.waiting e he hdone f (old he hf hlt.le) hlt
  · intro d hd htr hacked
    rcases h.covered d hd htr hacked with ⟨e, he, hix⟩ | hc
    · exact .inl ⟨e, List.mem_append_left _ he, hix⟩
    · exact .inr hc

theorem InTurn.settle {id : Nat} {d : Delivery} (h : InTurn u d.tracker w) (hl : Linked u)
    (ho : Outstanding u) (hget : u.deliveries[id]? = some d)
    (hw : u.trackers[d.tracker]? = some w) (hphase : d.phase = .checked)
    (hd : u'.deliveries = u.deliveries.set id { d with phase := .told (w.settle d.index).1 })
    (hturn : SettlesInTurn u d w) : InTurn u' d.tracker (w.settle d.index).2 := by
  have hmem := List.mem_of_getElem? hget
  have hsorted := List.pairwise_map.mp (hl.ordered _ w hw).sorted
  obtain ⟨w₀, hw₀, own, hown, hix, _⟩ := ho.waits d hmem (by rw [hphase]; rfl)
  obtain rfl := Option.some.inj (hw.symm.trans hw₀)
  have hseq := hl.sequence d hmem w hw own hown hix
  have settled : ∀ n, u'.SettledBy d.tracker n → u.SettledBy d.tracker n ∨ n = d.sequence := by
    rintro n ⟨d', hd', htr, rfl, hacked⟩
    rcases Cells.mem_set (hd ▸ hd') with rfl | hd'
    · exact .inr rfl
    · exact .inl ⟨d', hd', htr, rfl, hacked⟩
  -- up to a settled entry the records are in order, whether it was settled before or is now
  have increasing : ∀ e ∈ w.pending, e.done = true ∨ e.index = d.index → ∀ f ∈ w.pending,
      ∀ g ∈ w.pending, f.index < g.index → g.index ≤ e.index → f.sequence < g.sequence := by
    intro e he hor f hf g hg hlt hle
    rcases hor with hdone | hie
    · exact h.increasing e he hdone f hf g hg hlt hle
    · exact hturn.increasing f hf g hg hlt (hie ▸ hle)
  have answered : ∀ c, (w.settle d.index).1 = some c → u'.AnsweredBy d.tracker c := by
    intro c hc
    refine ⟨{ d with phase := .told (w.settle d.index).1 }, ?_, rfl, ?_⟩
    · rw [hd]
      exact List.mem_of_getElem? (Cells.get_set_self hget)
    · rw [Phase.told_watermark, hc]
  have kept : ∀ c, u.AnsweredBy d.tracker c → u'.AnsweredBy d.tracker c := by
    rintro c ⟨d', hd', htr, hc⟩
    obtain ⟨i, hi⟩ := List.mem_iff_getElem?.mp hd'
    have hne : i ≠ id := by
      rintro rfl
      obtain rfl := Option.some.inj (hi.symm.trans hget)
      rw [hphase] at hc
      cases hc
    exact ⟨d', hd ▸ List.mem_of_getElem? ((Cells.get_set_ne hne).trans hi), htr, hc⟩
  -- an entry of the tracker stays in it, or an answer covers it
  have dropped : ∀ e ∈ w.pending, (∃ e' ∈ (w.settle d.index).2.pending, e'.index = e.index) ∨
      ∃ c, u'.AnsweredBy d.tracker c ∧ e.sequence ≤ c := by
    intro e he
    have hpair : (Watermark.mark d.index w.pending).Pairwise
        fun e e' => e'.done = true → e.sequence ≤ e'.sequence := by
      have hmarked : (Watermark.mark d.index w.pending).Pairwise
          fun e e' => e.index < e'.index := by
        apply List.pairwise_map.mp
        rw [Watermark.mark_index]
        exact List.pairwise_map.mpr hsorted
      refine hmarked.imp_of_mem ?_
      intro f g hf hg hlt hdone
      obtain ⟨f₀, hf₀, hfi, hfs, _⟩ := Watermark.mem_mark hf
      obtain ⟨g₀, hg₀, hgi, hgs, hgd⟩ := Watermark.mem_mark hg
      have := increasing g₀ hg₀ (hgd.mp hdone) f₀ hf₀ g₀ hg₀ (by omega) (le_refl _)
      omega
    obtain ⟨e', he', hei, hes⟩ := Watermark.mem_mark_of d.index he
    rcases Watermark.advance_covers hpair he' with hleft | ⟨c, hc, hle⟩
    · exact .inl ⟨e', hleft, hei⟩
    · exact .inr ⟨c, answered c hc, hes ▸ hle⟩
  refine ⟨?_, ?_, ?_⟩
  · intro e he hdone f hf g hg hlt hle
    obtain ⟨e₀, he₀, hei, _, hed⟩ := Watermark.mem_settle he
    obtain ⟨f₀, hf₀, hfi, hfs, _⟩ := Watermark.mem_settle hf
    obtain ⟨g₀, hg₀, hgi, hgs, _⟩ := Watermark.mem_settle hg
    have := increasing e₀ he₀ (hed.mp hdone) f₀ hf₀ g₀ hg₀ (by omega) (by omega)
    omega
  · intro e he hdone f hf hlt hopen hs
    obtain ⟨e₀, he₀, hei, _, hed⟩ := Watermark.mem_settle he
    obtain ⟨hf₀, hne⟩ := Watermark.mark_open (Watermark.mem_of_mem_advance hf) hopen
    rcases settled _ hs with hs | hfd
    · rcases hed.mp hdone with hdone₀ | hie
      · exact h.waiting e₀ he₀ hdone₀ f hf₀ (by omega) hopen hs
      · exact hturn.waiting f hf₀ (by omega) hopen hs
    · -- the record of an open entry ahead is another than the one settled now
      rcases Nat.lt_or_gt_of_ne hne with hlt' | hgt
      · have := hturn.increasing f hf₀ own hown (by omega) (by omega)
        omega
      · have := increasing e₀ he₀ (hed.mp hdone) own hown f hf₀ (by omega) (by omega)
        omega
  · intro d' hd' htr hacked
    rcases Cells.mem_set (hd ▸ hd') with rfl | hd'
    · rcases dropped own hown with ⟨e', he', hei⟩ | ⟨c, hc, hle⟩
      · exact .inl ⟨e', he', hei.trans hix⟩
      · exact .inr ⟨c, hc, hseq ▸ hle⟩
    · rcases h.covered d' hd' htr hacked with ⟨e, he, hei⟩ | ⟨c, hc, hle⟩
      · rcases dropped e he with ⟨e', he', hei'⟩ | ⟨c, hc, hle⟩
        · exact .inl ⟨e', he', hei'.trans hei⟩
        · have hes := hl.sequence d' hd' w (htr ▸ hw) e he hei
          exact .inr ⟨c, hc, hes ▸ hle⟩
      · exact .inr ⟨c, kept c hc, hle⟩

theorem Step.telling {id : Nat} {d : Delivery} (hs : Step u owner shard lease a lease' u')
    (hget : u.deliveries[id]? = some d) (hphase : d.phase = .checked) {told : Option Nat}
    (hget' : u'.deliveries[id]? = some { d with phase := .told told }) : a = .settle id := by
  obtain ⟨phase, hi, hf⟩ := hs.fate hget
  have hp : phase = .told told := congrArg Delivery.phase (Option.some.inj (hi.symm.trans hget'))
  cases hf with
  | told ha => exact ha
  | same hp' =>
    rw [hp', hphase] at hp
    cases told <;> cases hp
  | received _ hp' | discarded _ hp' | checked _ hp' | stale _ hp' | unsettled _ hp'
  | settled _ hp' => cases hphase.symm.trans hp'

theorem Turns.step (h : Turns u) (hs : Step u owner shard lease a lease' u')
    (hturn : ∀ id d w, a = .settle id → u.deliveries[id]? = some d →
      u.trackers[d.tracker]? = some w → d.phase = .checked → SettlesInTurn u d w) : Turns u' := by
  have hb := hs.books
  refine ⟨h.linked.books hb, h.outstanding.books h.linked hb, ?_⟩
  intro t w hw
  cases hb with
  | quiet ht hd =>
    refine (h.inTurn t w (ht ▸ hw)).kept ?_ ?_ ?_
    · rintro n ⟨d', hd', htr, hseq, hacked⟩
      obtain ⟨d, hmem, he, hm⟩ := hd.mem hd'
      rw [he] at htr hseq
      exact ⟨d, hmem, htr, hseq, hm.acked_eq ▸ hacked⟩
    · rintro c ⟨d, hmem, htr, hc⟩
      obtain ⟨i, hi⟩ := List.mem_iff_getElem?.mp hmem
      obtain ⟨phase, hi', hm⟩ := hd.get hi
      exact ⟨_, List.mem_of_getElem? hi', htr, hm.watermark.trans hc⟩
    · intro d' hd' htr hacked
      obtain ⟨d, hmem, he, hm⟩ := hd.mem hd'
      rw [he] at htr
      refine ⟨d, hmem, htr, ?_, ?_, hm.acked_eq ▸ hacked⟩ <;> rw [he]
  | fresh ht hd =>
    rcases Cells.get_push (ht ▸ hw) with hw | ⟨rfl, rfl⟩
    · refine (h.inTurn t w hw).kept ?_ ?_ ?_
      · rintro n ⟨d, hmem, hrest⟩
        exact ⟨d, hd ▸ hmem, hrest⟩
      · rintro c ⟨d, hmem, hrest⟩
        exact ⟨d, hd ▸ hmem, hrest⟩
      · intro d hmem htr hacked
        exact ⟨d, hd ▸ hmem, htr, rfl, rfl, hacked⟩
    · apply InTurn.empty
      intro d hmem
      exact Nat.ne_of_lt (h.linked.tracker_lt d (hd ▸ hmem))
  | @handed r epoch next stop last idle record w₀ hr _ _ _ _ _ hw₀ ht hd =>
    have kept : ∀ {w : Watermark}, InTurn u t w → InTurn u' t w := by
      intro w h
      refine h.kept ?_ ?_ ?_
      · rintro n ⟨d', hd', htr, hseq, hacked⟩
        rcases Cells.mem_push (hd ▸ hd') with hd' | rfl
        · exact ⟨d', hd', htr, hseq, hacked⟩
        · cases hacked
      · rintro c ⟨d, hmem, hrest⟩
        exact ⟨d, hd ▸ List.mem_append_left _ hmem, hrest⟩
      · intro d' hd' htr hacked
        rcases Cells.mem_push (hd ▸ hd') with hd' | rfl
        · exact ⟨d', hd', htr, rfl, rfl, hacked⟩
        · cases hacked
    rcases Cells.get_set (ht ▸ hw) with ⟨rfl, rfl⟩ | ⟨_, hw⟩
    · exact kept ((h.inTurn _ w₀ hw₀).deliver (h.linked.ordered _ w₀ hw₀) next)
    · exact kept (h.inTurn t w hw)
  | @settled id d w₀ hget hw₀ hphase ht hd =>
    have hact := hs.telling hget hphase (hd ▸ Cells.get_set_self hget)
    rcases Cells.get_set (ht ▸ hw) with ⟨rfl, rfl⟩ | ⟨hne, hw⟩
    · exact (h.inTurn _ w₀ hw₀).settle h.linked h.outstanding hget hw₀ hphase hd
        (hturn id d w₀ hact hget hw₀ hphase)
    · have old : ∀ d' ∈ u'.deliveries, d'.tracker = t → d' ∈ u.deliveries := by
        intro d' hd' htr
        rcases Cells.mem_set (hd ▸ hd') with rfl | hd'
        · exact absurd htr.symm hne
        · exact hd'
      refine (h.inTurn t w hw).kept ?_ ?_ ?_
      · rintro n ⟨d', hd', htr, hrest⟩
        exact ⟨d', old d' hd' htr, htr, hrest⟩
      · rintro c ⟨d', hd', htr, hrest⟩
        obtain ⟨i, hi⟩ := List.mem_iff_getElem?.mp hd'
        have hi' : i ≠ id := by
          rintro rfl
          obtain rfl := Option.some.inj (hi.symm.trans hget)
          exact hne htr.symm
        exact ⟨d', hd ▸ List.mem_of_getElem? ((Cells.get_set_ne hi').trans hi), htr, hrest⟩
      · intro d' hd' htr hacked
        exact ⟨d', old d' hd' htr, htr, rfl, rfl, hacked⟩

/-- A delivery is settled when all that its tracker holds ahead of it is of earlier records, in
order, and none of that is open while another copy of the record was settled. -/
def settlesInTurn (u : Subscription) : SubAct → Bool
  | .settle id => (u.deliveries[id]?).all fun d => (u.trackers[d.tracker]?).all fun w =>
    (w.pending.all fun f => w.pending.all fun g =>
      !decide (f.index < g.index ∧ g.index ≤ d.index) || decide (f.sequence < g.sequence)) &&
    w.pending.all fun f => !decide (f.index < d.index) || f.done || u.deliveries.all fun d' =>
      d'.tracker != d.tracker || d'.sequence != f.sequence || !d'.phase.acked
  | _ => true

theorem settlesInTurn_of {id : Nat} {d : Delivery} (h : u.settlesInTurn (.settle id) = true)
    (hget : u.deliveries[id]? = some d) (hw : u.trackers[d.tracker]? = some w) :
    SettlesInTurn u d w := by
  simp only [settlesInTurn, hget, hw, Option.all_some, Bool.and_eq_true, List.all_eq_true,
    Bool.or_eq_true, Bool.not_eq_true', decide_eq_false_iff_not, decide_eq_true_eq, bne_iff_ne] at h
  refine ⟨?_, ?_⟩
  · intro f hf g hg hlt hle
    exact (h.1 f hf g hg).resolve_left fun hn => hn ⟨hlt, hle⟩
  · rintro f hf hlt hopen ⟨d', hd', htr, hseq, hacked⟩
    rcases h.2 f hf with (hn | hdone) | hall
    · exact hn hlt
    · exact absurd (hopen.symm.trans hdone) (by simp)
    · rcases hall d' hd' with (hn | hn) | hn
      · exact hn htr
      · exact hn hseq
      · exact absurd (hn.symm.trans hacked) (by simp)

end Subscription

namespace System

open Subscription

variable {Owner : Type} [DecidableEq Owner] {owner : Nat → Owner} {s : System Owner}

/-- In a run whose deliveries settle in turn, the watermark of every reader catches up with what
was settled, and its tracker is drained once no delivery through it is left unsettled. -/
theorem watermark_catches_up {shard : Shard} {lease : MemoryLease Owner} {x t : Nat}
    {w : Watermark}
    (hrun : Run (step owner) (fun s act => s.each settlesInTurn act = true) (fresh shard lease) s)
    (hw : (s.subs x).trackers[t]? = some w) :
    (s.subs x).CatchesUp t ∧
      (w.drained = true ↔
        ∀ d ∈ (s.subs x).deliveries, d.tracker = t → d.phase.acked = true) := by
  have hturns : Turns (s.subs x) := run_each .init (fun h hp hs =>
    h.step hs fun id d w ha hget hw _ => settlesInTurn_of (ha ▸ hp) hget hw) hrun x
  exact ⟨(hturns.inTurn t w hw).catchesUp hturns.linked hturns.outstanding hw,
    hturns.outstanding.drained_iff hturns.linked hw⟩

/-- A record is handed out, and once more after the iterator was lost. -/
def rereading (between : List Act) : List Act :=
  opening 0 .opens 0 ++ [.append [1]] ++ reading 0 1 false ++
    [.sub 0 (.reader (.recordOpening true)), .sub 0 (.reader .handOut),
      .sub 0 (.reader .batchDone), .sub 0 .poll] ++ between ++ losing ++ [.close] ++
    reading 0 1 true ++ [.sub 0 (.reader .handOut), .sub 0 (.reader .batchDone), .sub 0 .poll]

/-- The first delivery is left unsettled, and the second one is acked: the only record of the shard
has a settled delivery, no watermark covers it, and the reader waits at the end for ever. -/
theorem watermark_stays_behind : ∃ (s : System Nat) (w : Watermark),
    Run (step id) (fun s act => s.each seekless act = true) (init {}) s ∧
      (s.subs 0).trackers[0]? = some w ∧ ¬ (s.subs 0).CatchesUp 0 ∧
      (s.subs 0).reader.map Reader.pc = some (.ending 1) ∧ w.drained = false ∧
      ∀ n, (s.subs 0).HandedBy 0 n → (s.subs 0).SettledBy 0 n := by
  have hrun : ((check (step id) (each seekless) (init {}) (rereading [.sub 0 (.refuse 0)] ++
      [.sub 0 (.ack 1), .sub 0 (.settle 1)])).bind fun s =>
        ((s.subs 0).trackers[0]?).map fun w =>
          (s.subs 0).reader.map Reader.pc == some (.ending 1) && !w.drained &&
            (s.subs 0).deliveries.map (fun d => (d.sequence, d.tracker, d.phase)) ==
              [(0, 0, .unsettled), (0, 0, .settled none)]) = some true := by decide
  obtain ⟨s, hs, hrun⟩ := Option.bind_eq_some_iff.mp hrun
  obtain ⟨w, hw, hrun⟩ := Option.map_eq_some_iff.mp hrun
  simp only [Bool.and_eq_true, beq_iff_eq, Bool.not_eq_true'] at hrun
  obtain ⟨⟨hpc, hdrained⟩, hds⟩ := hrun
  have hmem : ∀ d ∈ (s.subs 0).deliveries, (d.sequence, d.tracker, d.phase) = (0, 0, .unsettled) ∨
      (d.sequence, d.tracker, d.phase) = (0, 0, .settled none) := by
    intro d hd
    have hin := List.mem_map_of_mem (f := fun d : Delivery => (d.sequence, d.tracker, d.phase)) hd
    rw [hds] at hin
    simpa using hin
  obtain ⟨d, hd, he⟩ : ∃ d ∈ (s.subs 0).deliveries,
      (d.sequence, d.tracker, d.phase) = (0, 0, .settled none) := by
    apply List.mem_map.mp
    rw [hds]
    simp
  obtain ⟨hseq, htr, hphase⟩ : d.sequence = 0 ∧ d.tracker = 0 ∧ d.phase = .settled none := by
    simpa using he
  have hsettled : (s.subs 0).SettledBy 0 0 := ⟨d, hd, htr, hseq, by rw [hphase]; rfl⟩
  refine ⟨s, w, .of_check hs, hw, ?_, hpc, hdrained, ?_⟩
  · intro h
    obtain ⟨c, ⟨d', hd', _, hc⟩, _⟩ := h 0 ⟨d, hd, htr, hseq⟩ fun m hm _ => by
      obtain rfl : m = 0 := by omega
      exact hsettled
    rcases hmem d' hd' with h' | h' <;>
      · obtain ⟨_, _, hp⟩ := by simpa using h'
        rw [hp] at hc
        cases hc
  · rintro n ⟨d', hd', _, rfl⟩
    obtain h' : d'.sequence = 0 := by
      rcases hmem d' hd' with h' | h' <;> exact congrArg Prod.fst h'
    exact h' ▸ hsettled

/-- Both deliveries of the record are acked, the first one first. -/
theorem watermark_catches_up_rereading : ∃ (s : System Nat) (w : Watermark),
    (s.subs 0).trackers[0]? = some w ∧ (s.subs 0).deliveries.length = 2 ∧
      (s.subs 0).CatchesUp 0 ∧ (w.drained = true ↔
        ∀ d ∈ (s.subs 0).deliveries, d.tracker = 0 → d.phase.acked = true) := by
  have hrun : ((check (step id) (each settlesInTurn) (fresh {} {}) (rereading [] ++
      [.sub 0 (.ack 0), .sub 0 (.settle 0), .sub 0 (.ack 1), .sub 0 (.settle 1)])).bind fun s =>
        ((s.subs 0).trackers[0]?).map fun _ => (s.subs 0).deliveries.length) = some 2 := by decide
  obtain ⟨s, hs, hrun⟩ := Option.bind_eq_some_iff.mp hrun
  obtain ⟨w, hw, hlen⟩ := Option.map_eq_some_iff.mp hrun
  exact ⟨s, w, hw, hlen, watermark_catches_up (.of_check hs) hw⟩

end System

end RuststreamKinesis
