import RuststreamKinesis.Succession
import RuststreamKinesis.Tip
import Mathlib.Data.List.Nodup
import Mathlib.Data.List.TakeWhile
import Mathlib.Order.WithBot

/-!
# The checkpoint of a row moves forward

A settlement writes later what its tracker answered, and does not look at the row. The row goes
forward as long as the writes land in the order of their watermarks, nothing is read again behind
what is outstanding or answered, and a shard is marked finished when no write is to come.
-/

namespace RuststreamKinesis

set_option autoImplicit false

open Runs

/-- The order of the values of a row's checkpoint. -/
def Checkpoint.place : Option Checkpoint → WithBot (WithTop Nat)
  | none => ⊥
  | some (.sequence n) => WithBot.some (WithTop.some n)
  | some .shardEnd => ⊤

theorem Checkpoint.place_sequence {a b : Nat} :
    place (some (.sequence a)) ≤ place (some (.sequence b)) ↔ a ≤ b := by
  simp only [place, WithBot.coe_le_coe, WithTop.coe_le_coe]

theorem Checkpoint.eq_shardEnd {c : Option Checkpoint} (h : place (some .shardEnd) ≤ place c) :
    c = some .shardEnd := by
  match c with
  | none => simp [place] at h
  | some (.sequence _) => simp [place] at h
  | some .shardEnd => rfl

/-- The delivery was left unsettled for good. -/
def Phase.lost : Phase → Bool
  | .stale | .unsettled | .discarded => true
  | _ => false

theorem Phase.Moves.lost {p q : Phase} (h : Phase.Moves p q) (hp : p.lost = true) :
    q.lost = true := by
  cases h <;> simp_all [Phase.lost]

theorem Phase.told_not_lost (advanced : Option Nat) : (Phase.told advanced).lost = false := by
  cases advanced <;> rfl

theorem Phase.not_acked_of_lost {p : Phase} (hp : p.lost = true) : p.acked = false := by
  cases p <;> simp_all [Phase.lost, Phase.acked]

namespace Watermark

variable {p : Entry → Bool} {es : List Entry} {c index : Nat}

theorem mark_takeWhile (hp : ∀ e e', e.index = e'.index → p e = p e') :
    (mark index es).takeWhile p = mark index (es.takeWhile p) := by
  simp only [mark, List.takeWhile_map]
  congr 1
  apply congrArg (List.takeWhile · es)
  funext e
  apply hp
  simp only
  split <;> rfl

/-- What the loop does is settled by the entries ahead of the first one that stays open. -/
theorem advance_takeWhile (h : ∀ e ∈ es, p e = false → e.done = false) :
    advance (es.takeWhile p) = ((advance es).1, (advance es).2.takeWhile p) := by
  induction es with
  | nil => rfl
  | cons a es ih =>
    have ih := ih fun e he => h e (List.mem_cons_of_mem a he)
    cases hp : p a with
    | false =>
      have ha := h a List.mem_cons_self hp
      simp [advance, hp, ha]
    | true =>
      simp only [List.takeWhile_cons, hp, if_true, advance]
      cases ha : a.done with
      | false => simp [hp]
      | true => simp [ih]

theorem advance_sorted (hs : (es.map Entry.sequence).Pairwise (· ≤ ·))
    (hc : (advance es).1 = some c) :
    (∃ e ∈ es, e.sequence = c) ∧ ∀ e ∈ (advance es).2, c ≤ e.sequence := by
  induction es with
  | nil => cases hc
  | cons a es ih =>
    obtain ⟨hhead, htail⟩ := List.pairwise_cons.mp hs
    simp only [advance] at hc ⊢
    split at hc
    · rename_i ha
      rw [if_pos ha]
      cases hadv : (advance es).1 with
      | none =>
        obtain rfl : a.sequence = c := by simpa [hadv] using hc
        refine ⟨⟨a, List.mem_cons_self, rfl⟩, ?_⟩
        intro e he
        exact hhead _ (List.mem_map_of_mem (mem_of_mem_advance he))
      | some c' =>
        obtain rfl : c' = c := by simpa [hadv] using hc
        obtain ⟨⟨e, he, hec⟩, hrest⟩ := ih htail hadv
        exact ⟨⟨e, List.mem_cons_of_mem a he, hec⟩, hrest⟩
    · cases hc

end Watermark

namespace Subscription

variable {Owner : Type} [DecidableEq Owner] {u u' : Subscription} {owner : Owner}
variable {shard : Shard} {lease lease' : MemoryLease Owner} {a : SubAct} {t : Nat} {e : Entry}

/-- The entry is of a delivery that will not be settled. -/
def lost (u : Subscription) (t : Nat) (e : Entry) : Bool :=
  u.deliveries.any fun d => d.tracker == t && d.index == e.index && d.phase.lost

def pending (u : Subscription) (t : Nat) : List Entry := (u.trackers[t]?).elim [] (·.pending)

/-- The entries that the watermark can still pass. -/
def passable (u : Subscription) (t : Nat) : List Entry :=
  (u.pending t).takeWhile fun e => !u.lost t e

theorem lost_iff : u.lost t e = true ↔
    ∃ d ∈ u.deliveries, d.tracker = t ∧ d.index = e.index ∧ d.phase.lost = true := by
  simp [lost, and_assoc]

theorem pending_eq {w : Watermark} (hw : u.trackers[t]? = some w) : u.pending t = w.pending := by
  simp [pending, hw]

theorem lost_index {e' : Entry} (h : e.index = e'.index) : u.lost t e = u.lost t e' := by
  simp [lost, h]

theorem Books.lost (hb : Books shard u u') (h : u.lost t e = true) : u'.lost t e = true := by
  obtain ⟨d, hd, htr, hix, hl⟩ := lost_iff.mp h
  apply lost_iff.mpr
  cases hb with
  | quiet _ hds =>
    obtain ⟨i, hi⟩ := List.mem_iff_getElem?.mp hd
    obtain ⟨phase, hi', hm⟩ := hds.get hi
    exact ⟨_, List.mem_of_getElem? hi', htr, hix, hm.lost hl⟩
  | fresh _ hds => exact ⟨d, hds ▸ hd, htr, hix, hl⟩
  | handed _ _ _ _ _ _ _ _ hds => exact ⟨d, hds ▸ List.mem_append_left _ hd, htr, hix, hl⟩
  | @settled id d₀ w hget _ hphase _ hds =>
    obtain ⟨i, hi⟩ := List.mem_iff_getElem?.mp hd
    have hne : i ≠ id := by
      intro he
      obtain rfl : d = d₀ := Option.some.inj (hi.symm.trans (he ▸ hget))
      rw [hphase] at hl
      cases hl
    exact ⟨d, hds ▸ List.mem_of_getElem? ((Cells.get_set_ne hne).trans hi), htr, hix, hl⟩

theorem Outstanding.lost_open (h : Outstanding u) (hl : Linked u) (he : e ∈ u.pending t)
    (hlost : u.lost t e = true) : e.done = false := by
  obtain ⟨d, hd, rfl, hix, hphase⟩ := lost_iff.mp hlost
  obtain ⟨w, hw, e', he', hix', hdone⟩ := h.waits d hd (Phase.not_acked_of_lost hphase)
  rw [pending_eq hw] at he
  have hnodup : (w.pending.map Entry.index).Nodup := (hl.ordered _ w hw).sorted.imp Nat.ne_of_lt
  obtain rfl : e' = e := List.inj_on_of_nodup_map hnodup he' he (hix'.trans hix)
  exact hdone

theorem passable_of_pending (hp : u'.pending t = u.pending t)
    (hl : ∀ e, u.lost t e = true → u'.lost t e = true) : u'.passable t <+: u.passable t := by
  have hboth : (fun e => !u'.lost t e) =
      fun e => decide ((!u'.lost t e) = true ∧ (!u.lost t e) = true) := by
    funext e
    cases h : u.lost t e with
    | false => simp
    | true => simp [hl e h]
  rw [passable, hp, hboth, ← List.takeWhile_takeWhile]
  exact List.takeWhile_prefix _

theorem passable_same (hp : u'.pending t = u.pending t)
    (hl : ∀ e, u'.lost t e = u.lost t e) : u'.passable t = u.passable t := by
  simp only [passable, hp, hl]

theorem lost_same (hb : Books shard u u') (hd : ∀ d' ∈ u'.deliveries, d' ∈ u.deliveries ∨
    d'.phase.lost = false) : u'.lost t e = u.lost t e := by
  apply Bool.eq_iff_iff.mpr
  refine ⟨?_, hb.lost⟩
  intro hl
  obtain ⟨d', hd', htr, hix, hl⟩ := lost_iff.mp hl
  rcases hd d' hd' with hd' | hn
  · exact lost_iff.mpr ⟨d', hd', htr, hix, hl⟩
  · exact absurd (hn.symm.trans hl) (by simp)

theorem passable_settled {id : Nat} {d : Delivery} {w : Watermark} (ho : Outstanding u)
    (hl : Linked u) (hget : u.deliveries[id]? = some d) (hw : u.trackers[d.tracker]? = some w)
    (hphase : d.phase = .checked)
    (ht : u'.trackers = u.trackers.set d.tracker (w.settle d.index).2)
    (hsame : ∀ t e, u'.lost t e = u.lost t e) :
    Watermark.advance (Watermark.mark d.index (u.passable d.tracker)) =
      ((w.settle d.index).1, u'.passable d.tracker) := by
  have hopen : ∀ e, e.index = d.index → u.lost d.tracker e = false := by
    intro e hix
    by_contra hlost
    obtain ⟨d₀, hd₀, htr, hix₀, hl₀⟩ := lost_iff.mp (by simpa using hlost)
    obtain ⟨i, hi⟩ := List.mem_iff_getElem?.mp hd₀
    obtain rfl := ho.unique i id d₀ d hi hget htr (hix₀.trans hix)
    obtain rfl := Option.some.inj (hi.symm.trans hget)
    rw [hphase] at hl₀
    cases hl₀
  have hp' : u'.pending d.tracker = (w.settle d.index).2.pending :=
    pending_eq (ht ▸ Cells.get_set_self hw)
  have hwaits : ∀ e ∈ Watermark.mark d.index w.pending, (!u.lost d.tracker e) = false →
      e.done = false := by
    intro e he hlo
    obtain ⟨old, hold, hix, _, hdone⟩ := Watermark.mem_mark he
    have hlo' : u.lost d.tracker old = true := by
      rw [lost_index hix.symm]
      simpa using hlo
    cases hd : e.done with
    | false => rfl
    | true =>
      rcases hdone.mp hd with hd | hix'
      · exact absurd (hd.symm.trans (ho.lost_open hl (pending_eq hw ▸ hold) hlo')) (by simp)
      · exact absurd ((hopen old hix').symm.trans hlo') (by simp)
  rw [passable, pending_eq hw, ← Watermark.mark_takeWhile (fun e e' h => by rw [lost_index h]),
    Watermark.advance_takeWhile hwaits, passable, hp']
  simp only [Watermark.settle, hsame]

theorem Orderly.told {id : Nat} {d : Delivery} {w : Watermark} (ho : Orderly shard u)
    (hget : u.deliveries[id]? = some d) (hw : u.trackers[d.tracker]? = some w)
    (hphase : d.phase = .checked)
    (ht : u'.trackers = u.trackers.set d.tracker (w.settle d.index).2)
    (hd : u'.deliveries = u.deliveries.set id { d with phase := .told (w.settle d.index).1 }) :
    Watermark.advance (Watermark.mark d.index (u.passable d.tracker)) =
      ((w.settle d.index).1, u'.passable d.tracker) ∧
      ∀ t, t ≠ d.tracker → u'.passable t = u.passable t := by
  have hb : Books shard u u' := .settled hget hw hphase ht hd
  have hsame : ∀ t e, u'.lost t e = u.lost t e := by
    intro t e
    refine lost_same hb ?_
    intro d' hd'
    rcases Cells.mem_set (hd ▸ hd') with rfl | hd'
    · exact .inr (Phase.told_not_lost _)
    · exact .inl hd'
  refine ⟨passable_settled ho.outstanding ho.sound.linked hget hw hphase ht hsame, ?_⟩
  intro t htr
  exact passable_same (by rw [pending, pending, ht, Cells.get_set_ne htr]) (hsame t)

theorem Orderly.sheds (ho : Orderly shard u) (hb : Books shard u u')
    (hlen : u'.deliveries.length = u.deliveries.length) (t : Nat) :
    ((u'.passable t).map Entry.sequence).Sublist ((u.passable t).map Entry.sequence) := by
  have hlost : ∀ e, u.lost t e = true → u'.lost t e = true := fun _ => hb.lost
  cases hb with
  | quiet ht =>
    exact ((passable_of_pending (by rw [pending, pending, ht]) hlost).sublist).map _
  | fresh ht =>
    have hp : u'.pending t = u.pending t := by
      rw [pending, pending, ht, List.getElem?_append]
      split
      · rfl
      · rename_i hge
        rw [List.getElem?_singleton, List.getElem?_eq_none (Nat.le_of_not_lt hge)]
        split <;> rfl
    exact ((passable_of_pending hp hlost).sublist).map _
  | handed _ _ _ _ _ _ _ _ hd => simp [hd] at hlen
  | @settled id d w hget hw hphase ht hd =>
    obtain ⟨hadv, hother⟩ := ho.told hget hw hphase ht hd
    by_cases htr : t = d.tracker
    · subst htr
      have hsub := (Watermark.advance_sublist
        (Watermark.mark d.index (u.passable d.tracker))).map Entry.sequence
      rw [hadv, Watermark.mark_sequence] at hsub
      exact hsub
    · rw [hother t htr]

theorem Orderly.answers {d' : Delivery} {c : Nat} (ho : Orderly shard u) (hb : Books shard u u')
    (hd' : d' ∈ u'.deliveries) (hc : d'.phase.watermark = some c) :
    (∃ d ∈ u.deliveries, d.phase = d'.phase ∨ d.phase = .writing c) ∨
      ∃ t index, Watermark.advance (Watermark.mark index (u.passable t)) =
        (some c, u'.passable t) ∧ ∀ t', t' ≠ t → u'.passable t' = u.passable t' := by
  cases hb with
  | quiet _ hd =>
    obtain ⟨d, hmem, _, hm⟩ := hd.mem hd'
    refine .inl ⟨d, hmem, ?_⟩
    generalize d.phase = p at hm
    generalize d'.phase = q at hm hc
    cases hm with
    | refl => exact .inl rfl
    | write =>
      obtain rfl := Option.some.inj hc
      exact .inr rfl
    | _ => cases hc
  | fresh _ hd => exact .inl ⟨d', hd ▸ hd', .inl rfl⟩
  | handed _ _ _ _ _ _ _ _ hd =>
    rcases Cells.mem_push (hd ▸ hd') with hd' | rfl
    · exact .inl ⟨d', hd', .inl rfl⟩
    · cases hc
  | @settled id d w hget hw hphase ht hd =>
    rcases Cells.mem_set (hd ▸ hd') with rfl | hmem
    · obtain ⟨hadv, hother⟩ := ho.told hget hw hphase ht hd
      rw [Phase.told_watermark] at hc
      rw [hc] at hadv
      exact .inr ⟨d.tracker, d.index, hadv, hother⟩
    · exact .inl ⟨d', hmem, .inl rfl⟩

/-- A watermark that the row holds or that was answered. -/
def Passed (lease : MemoryLease Owner) (u : Subscription) (c : Nat) : Prop :=
  lease.checkpoint = some (.sequence c) ∨ ∃ d ∈ u.deliveries, d.phase.watermark = some c

/-- The record comes behind nothing that is outstanding or answered, or its tracker waits for a
delivery that will not be settled. -/
def Forward (lease : MemoryLease Owner) (u : Subscription) (t next : Nat) : Prop :=
  (∃ e ∈ u.pending t, u.lost t e = true) ∨
    ((∀ c, u.Passed lease c → c ≤ next) ∧ (∀ e ∈ u.pending t, e.sequence ≤ next) ∧
      ∀ t', t' ≠ t → u.passable t' = [])

/-- What can still be answered comes in order and after all that was answered. -/
structure Tracking (lease : MemoryLease Owner) (u : Subscription) : Prop where
  sorted : ∀ t, ((u.passable t).map Entry.sequence).Pairwise (· ≤ ·)
  ahead : ∀ t, ∀ e ∈ u.passable t, ∀ c, u.Passed lease c → c ≤ e.sequence
  single : ∀ t t', u.passable t ≠ [] → u.passable t' ≠ [] → t = t'

omit [DecidableEq Owner] in
theorem Tracking.shed (h : Tracking lease u)
    (hsub : ∀ t, ((u'.passable t).map Entry.sequence).Sublist ((u.passable t).map Entry.sequence))
    (hpassed : ∀ c, u'.Passed lease' c → u.Passed lease c ∨
      ∀ t, ∀ e ∈ u'.passable t, c ≤ e.sequence) : Tracking lease' u' := by
  have hne : ∀ t, u'.passable t ≠ [] → u.passable t ≠ [] := by
    intro t hne hnil
    apply hne
    simpa [hnil] using hsub t
  refine ⟨fun t => (h.sorted t).sublist (hsub t), ?_, fun t t' ht ht' =>
    h.single t t' (hne t ht) (hne t' ht')⟩
  intro t e he c hc
  rcases hpassed c hc with hc | hc
  · obtain ⟨e₀, he₀, hseq⟩ := List.mem_map.mp ((hsub t).subset (List.mem_map_of_mem he))
    exact hseq ▸ h.ahead t e₀ he₀ c hc
  · exact hc t e he

omit [DecidableEq Owner] in
theorem Tracking.answer {index c : Nat} (h : Tracking lease u)
    (hadv : Watermark.advance (Watermark.mark index (u.passable t)) = (some c, u'.passable t))
    (hother : ∀ t', t' ≠ t → u'.passable t' = u.passable t') :
    (∀ c', u.Passed lease c' → c' ≤ c) ∧ ∀ t', ∀ e ∈ u'.passable t', c ≤ e.sequence := by
  have hsorted := (Watermark.mark_sequence index (u.passable t)).symm ▸ h.sorted t
  obtain ⟨⟨e₀, he₀, rfl⟩, hrest⟩ := Watermark.advance_sorted hsorted (congrArg Prod.fst hadv)
  obtain ⟨old, hold, _, hseq, _⟩ := Watermark.mem_mark he₀
  rw [hadv] at hrest
  refine ⟨fun c' hc' => hseq ▸ h.ahead t old hold c' hc', ?_⟩
  intro t' e he
  by_cases htr : t' = t
  · subst htr
    exact hrest e he
  · rw [hother t' htr] at he
    exact absurd (h.single t' t (List.ne_nil_of_mem he) (List.ne_nil_of_mem hold)) htr

omit [DecidableEq Owner] in
theorem Tracking.handed {w : Watermark} {next : Nat} (h : Tracking lease u)
    (hforward : Forward lease u t next) (hw : u.trackers[t]? = some w)
    (ht : u'.trackers = u.trackers.set t (w.deliver next))
    (hnew : u.lost t ⟨w.nextIndex, next, false⟩ = false)
    (hsame : ∀ t e, u'.lost t e = u.lost t e)
    (hpassed : ∀ c, u'.Passed lease' c → u.Passed lease c) : Tracking lease' u' := by
  have hother : ∀ t', t' ≠ t → u'.passable t' = u.passable t' := by
    intro t' hne
    exact passable_same (by rw [pending, pending, ht, Cells.get_set_ne hne]) (hsame t')
  have hown : u'.pending t = u.pending t ++ [⟨w.nextIndex, next, false⟩] := by
    rw [pending_eq hw, pending_eq (ht ▸ Cells.get_set_self hw)]
    rfl
  by_cases hblocked : ∃ e ∈ u.pending t, u.lost t e = true
  · apply h.shed
    · intro t'
      by_cases htr : t' = t
      · subst htr
        obtain ⟨e, he, hl⟩ := hblocked
        have hlen : ¬ ((u.pending t').takeWhile fun e => !u.lost t' e).length =
            (u.pending t').length := by
          intro hlen
          have hall := List.takeWhile_eq_self_iff.mp
            ((List.takeWhile_prefix _).eq_of_length hlen)
          simpa [hl] using hall e he
        simp only [passable, hown, hsame, List.takeWhile_append, if_neg hlen]
        exact List.Sublist.refl _
      · rw [hother t' htr]
    · exact fun c hc => .inl (hpassed c hc)
  · obtain ⟨hle, hord, hnone⟩ := hforward.resolve_left hblocked
    have hall : ∀ e ∈ u.pending t, (!u.lost t e) = true := by
      intro e he
      simpa using fun hl => hblocked ⟨e, he, hl⟩
    have hold : u.passable t = u.pending t := List.takeWhile_eq_self_iff.mpr hall
    have hnow : u'.passable t = u.passable t ++ [⟨w.nextIndex, next, false⟩] := by
      rw [hold]
      simp only [passable, hown, hsame, List.takeWhile_append_of_pos hall]
      simp [hnew]
    have honly : ∀ t', u'.passable t' ≠ [] → t' = t := by
      intro t' hne
      by_contra htr
      exact hne ((hother t' htr).trans (hnone t' htr))
    refine ⟨?_, ?_, fun i j hi hj => (honly i hi).trans (honly j hj).symm⟩
    · intro t'
      by_cases htr : t' = t
      · subst htr
        rw [hnow, List.map_append]
        refine List.pairwise_append.mpr ⟨h.sorted _, by simp, ?_⟩
        intro n hn m hm
        obtain rfl : m = next := by simpa using hm
        obtain ⟨e, he, rfl⟩ := List.mem_map.mp hn
        exact hord e (hold ▸ he)
      · rw [hother t' htr]
        exact h.sorted t'
    · intro t' e he c hc
      obtain rfl := honly t' (List.ne_nil_of_mem he)
      rw [hnow] at he
      rcases Cells.mem_push he with he | rfl
      · exact h.ahead _ e he c (hpassed c hc)
      · exact hle c (hpassed c hc)

theorem Step.handing (hs : Step u owner shard lease a lease' u')
    (hlen : u'.deliveries.length ≠ u.deliveries.length) : a = .reader .handOut ∧
      u.closed = false ∧ ∃ r epoch next stop last idle record w, u.reader = some r ∧
        r.pc = .forwarding epoch next stop last idle ∧ shard.log[next]? = some record ∧
        record.aggregated = false ∧ u.trackers[r.tracker]? = some w ∧
        u'.trackers = u.trackers.set r.tracker (w.deliver next) ∧
        ∀ d' ∈ u'.deliveries, d' ∈ u.deliveries ∨ d'.phase = .queued := by
  cases hs with
  | reader hr hs =>
    cases hs with
    | handedOut hpc _ _ hlog hagg _ hopen hw =>
      refine ⟨rfl, hopen, _, _, _, _, _, _, _, _, hr, hpc, hlog, hagg, hw, rfl, ?_⟩
      intro d' hd'
      rcases List.mem_append.mp hd' with hd' | hd'
      · exact .inl hd'
      · exact .inr (List.mem_singleton.mp hd' ▸ rfl)
    | _ => exact absurd rfl hlen
  | leave | pollDelivery | ackCurrent | ackStale | settled | written | notWritten | refuse =>
    simp [Subscription.leave, setPhase] at hlen
  | _ => exact absurd rfl hlen

theorem Step.rowPassed {c : Nat} (hs : Step u owner shard lease a lease' u')
    (hc : lease'.checkpoint = some (.sequence c)) : u.Passed lease c := by
  rcases hs.row.sequence hc with hold | ⟨d, hd, hphase⟩
  · exact .inl hold
  · exact .inr ⟨d, hd, by rw [hphase]; rfl⟩

theorem Step.passed {c : Nat} (ho : Orderly shard u) (hs : Step u owner shard lease a lease' u')
    (hc : u'.Passed lease' c) : u.Passed lease c ∨
      ∃ t index, Watermark.advance (Watermark.mark index (u.passable t)) =
        (some c, u'.passable t) ∧ ∀ t', t' ≠ t → u'.passable t' = u.passable t' := by
  rcases hc with hc | ⟨d', hd', hc⟩
  · exact .inl (hs.rowPassed hc)
  · rcases ho.answers hs.books hd' hc with ⟨d, hd, hp⟩ | hnew
    · refine .inl (.inr ⟨d, hd, ?_⟩)
      rcases hp with hp | hp
      · exact hp ▸ hc
      · rw [hp]
        rfl
    · exact .inr hnew

/-- Records are handed out behind what can be passed. -/
def Orders (shard : Shard) (lease : MemoryLease Owner) (u : Subscription) (a : SubAct) : Prop :=
  a = .reader .handOut → u.closed = false → ∀ r epoch next stop last idle record,
    u.reader = some r → r.pc = .forwarding epoch next stop last idle →
    shard.log[next]? = some record → record.aggregated = false → Forward lease u r.tracker next

theorem Tracking.step (h : Tracking lease u) (ho : Orderly shard u)
    (hs : Step u owner shard lease a lease' u') (hand : Orders shard lease u a) :
    Tracking lease' u' := by
  by_cases hlen : u'.deliveries.length = u.deliveries.length
  · apply h.shed (ho.sheds hs.books hlen)
    intro c hc
    refine (hs.passed ho hc).imp_right ?_
    rintro ⟨t, index, hadv, hother⟩
    exact (h.answer hadv hother).2
  · obtain ⟨hact, hopen, r, epoch, next, stop, last, idle, record, w, hr, hpc, hlog, hagg, hw, ht,
      hold⟩ := hs.handing hlen
    refine h.handed (hand hact hopen r epoch next stop last idle record hr hpc hlog hagg) hw ht
      ?_ ?_ ?_
    · by_contra hl
      obtain ⟨d, hmem, htr, hix, _⟩ := lost_iff.mp (by simpa using hl)
      exact absurd hix (Nat.ne_of_lt (ho.sound.linked.index_lt d hmem w (htr ▸ hw)))
    · intro t e
      refine lost_same hs.books ?_
      intro d' hd'
      exact (hold d' hd').imp_right fun hq => by rw [hq]; rfl
    · rintro c (hc | ⟨d', hd', hc⟩)
      · exact hs.rowPassed hc
      · rcases hold d' hd' with hd' | hq
        · exact .inr ⟨d', hd', hc⟩
        · rw [hq] at hc
          cases hc

/-- Nothing is to be written any more, and the reader is at rest. -/
structure Finished (u : Subscription) : Prop where
  written : ∀ d ∈ u.deliveries, ∀ c, d.phase ≠ .writing c
  silent : ∀ t, u.passable t = []
  resting : ∀ r, u.reader = some r →
    r.pc = .opening false ∨ (∃ rewind, r.pc = .releasing rewind) ∨ ∃ rewind, r.pc = .exited rewind

theorem Finished.step (h : Finished u) (ho : Orderly shard u)
    (hrow : lease.checkpoint = some .shardEnd) (hs : Step u owner shard lease a lease' u') :
    Finished u' := by
  have hlen : u'.deliveries.length = u.deliveries.length := by
    by_contra hne
    obtain ⟨_, _, r, _, _, _, _, _, _, _, hr, hpc, _⟩ := hs.handing hne
    rcases h.resting r hr with hpc' | ⟨_, hpc'⟩ | ⟨_, hpc'⟩ <;> cases hpc.symm.trans hpc'
  have hsheds := ho.sheds hs.books hlen
  refine ⟨?_, ?_, ?_⟩
  · intro d' hd' c hp
    rcases ho.answers hs.books hd' (by rw [hp]; rfl) with ⟨d, hd, hp'⟩ | ⟨t, _, hadv, _⟩
    · exact h.written d hd c (by simpa [hp] using hp')
    · rw [h.silent t] at hadv
      cases congrArg Prod.fst hadv
  · intro t
    simpa [h.silent t] using hsheds t
  · intro r' hr'
    cases hs with
    | reader hr hs => exact hs.resting hrow hr' (h.resting _ hr)
    | forgot => cases hr'
    | acquired =>
      obtain rfl := Option.some.inj hr'
      exact .inl rfl
    | @sent _ _ r _ _ hr =>
      obtain rfl := Option.some.inj hr'
      exact h.resting r hr
    | _ => exact h.resting r' hr'

/-- The order in which checkpoints are written: a settlement's after those of smaller watermarks,
the mark of a finished shard after all of them. -/
structure Sequenced (shard : Shard) (lease : MemoryLease Owner) (u : Subscription) (a : SubAct) :
    Prop where
  orders : Orders shard lease u a
  writes : ∀ id, a = .write id true → ∀ d c, u.deliveries[id]? = some d → d.phase = .writing c →
    ∀ d' ∈ u.deliveries, ∀ c', d'.phase = .writing c' → c ≤ c'
  ends : a = .reader (.markEnd true) → ∀ r, u.reader = some r → u.pending r.tracker = [] →
    (∀ d ∈ u.deliveries, ∀ c, d.phase ≠ .writing c) ∧ ∀ t, u.passable t = []

structure Advancing (shard : Shard) (lease : MemoryLease Owner) (u : Subscription) : Prop where
  orderly : Orderly shard u
  tracking : Tracking lease u
  least : ∀ c, lease.checkpoint = some (.sequence c) →
    ∀ d ∈ u.deliveries, ∀ c', d.phase = .writing c' → c ≤ c'
  ended : lease.checkpoint = some .shardEnd → Finished u

omit [DecidableEq Owner] in
theorem Advancing.init : Advancing shard lease {} where
  orderly := .init
  tracking := by
    constructor <;> simp [passable, pending]
  least := by simp
  ended _ := by
    constructor <;> simp [passable, pending]

theorem Advancing.least_step (h : Advancing shard lease u)
    (hs : Step u owner shard lease a lease' u') (hseq : Sequenced shard lease u a) (c : Nat)
    (hc : lease'.checkpoint = some (.sequence c)) :
    ∀ d' ∈ u'.deliveries, ∀ c', d'.phase = .writing c' → c ≤ c' := by
  intro d' hd' c' hp
  rcases h.orderly.answers hs.books hd' (by rw [hp]; rfl) with ⟨d, hd, hp'⟩ | ⟨t, _, hadv, hother⟩
  · replace hp' : d.phase = .writing c' := by simpa [hp] using hp'
    cases hs.row with
    | kept hck | taken hck => exact h.least c (hck ▸ hc) d hd c' hp'
    | opened _ _ _ _ hl => exact h.least c (by rw [hl] at hc; exact hc) d hd c' hp'
    | ended _ _ _ _ _ hl =>
      rw [hl] at hc
      cases hc
    | written hget hphase ha _ hl =>
      rw [hl] at hc
      obtain rfl := Checkpoint.sequence.inj (Option.some.inj hc)
      exact hseq.writes _ ha _ _ hget hphase d hd c' hp'
  · exact (h.tracking.answer hadv hother).1 c (hs.rowPassed hc)

theorem Advancing.step (h : Advancing shard lease u) (hs : Step u owner shard lease a lease' u')
    (hseq : Sequenced shard lease u a) :
    Advancing shard lease' u' ∧
      Checkpoint.place lease.checkpoint ≤ Checkpoint.place lease'.checkpoint := by
  refine ⟨⟨h.orderly.step hs, h.tracking.step h.orderly hs hseq.orders, h.least_step hs hseq, ?_⟩,
    ?_⟩
  · intro hend
    by_cases hold : lease.checkpoint = some .shardEnd
    · exact (h.ended hold).step h.orderly hold hs
    · cases hs.row with
      | kept hc | taken hc => exact absurd (hc.symm.trans hend) hold
      | opened _ _ _ _ hl => exact absurd (by rw [hl] at hend; exact hend) hold
      | written _ _ _ _ hl =>
        rw [hl] at hend
        cases hend
      | ended hr hpc hw hd ha hl =>
        obtain ⟨hwritten, hsilent⟩ := hseq.ends ha _ hr
          ((pending_eq hw).trans (List.isEmpty_iff.mp hd))
        subst ha
        cases hs with
        | reader hr₀ hs =>
          cases hs with
          | markedEnd | leftEnd =>
            refine ⟨hwritten, hsilent, ?_⟩
            intro r' hr'
            obtain rfl := Option.some.inj hr'
            exact .inr (.inl ⟨_, rfl⟩)
  · cases hs.row with
    | kept hc | taken hc => exact le_of_eq (by rw [hc])
    | opened _ _ _ _ hl => exact le_of_eq (by rw [hl])
    | ended _ _ _ _ _ hl =>
      rw [hl]
      exact le_top
    | @written id c d hd hphase _ _ hl =>
      have hmem := List.mem_of_getElem? hd
      rw [hl]
      match hck : lease.checkpoint with
      | none => exact bot_le
      | some (.sequence _) => exact Checkpoint.place_sequence.mpr (h.least _ hck d hmem c hphase)
      | some .shardEnd => exact absurd hphase ((h.ended hck).written d hmem c)

/-- `Forward`, computed. -/
def forward (lease : MemoryLease Owner) (u : Subscription) (t next : Nat) : Bool :=
  (u.pending t).any (u.lost t) ||
    (match lease.checkpoint with
      | some (.sequence c) => decide (c ≤ next)
      | _ => true) &&
    u.deliveries.all (fun d => d.phase.watermark.all fun c => decide (c ≤ next)) &&
    (u.pending t).all (fun e => decide (e.sequence ≤ next)) &&
    (List.range u.trackers.length).all fun t' => t' == t || (u.passable t').isEmpty

/-- The side condition on the steps: a record is handed out behind all that can be answered, a
settlement's write lands after those of smaller watermarks, and the shard is marked finished when
nothing is to be written. -/
def inSequence (shard : Shard) (lease : MemoryLease Owner) (u : Subscription) : SubAct → Bool
  | .reader .handOut => u.closed || u.reader.all fun r =>
    match r.pc with
    | .forwarding _ next _ _ _ =>
      (shard.log[next]?).any Record.aggregated || u.forward lease r.tracker next
    | _ => true
  | .write id true => (u.deliveries[id]?).all fun d =>
    match d.phase with
    | .writing c => u.deliveries.all fun d' =>
      match d'.phase with
      | .writing c' => decide (c ≤ c')
      | _ => true
    | _ => true
  | .reader (.markEnd true) => u.reader.all fun r =>
    !(u.pending r.tracker).isEmpty ||
      u.deliveries.all (fun d => !(d.phase matches .writing _)) &&
        (List.range u.trackers.length).all fun t => (u.passable t).isEmpty
  | _ => true

omit [DecidableEq Owner] in
theorem passable_unallocated (h : u.trackers.length ≤ t) : u.passable t = [] := by
  simp [passable, pending, List.getElem?_eq_none h]

omit [DecidableEq Owner] in
theorem forward_of {next : Nat} (h : u.forward lease t next = true) : Forward lease u t next := by
  simp only [forward, Bool.or_eq_true, Bool.and_eq_true, List.any_eq_true, List.all_eq_true,
    decide_eq_true_eq, List.mem_range, beq_iff_eq, List.isEmpty_iff] at h
  rcases h with h | ⟨⟨⟨hrow, hds⟩, hes⟩, hothers⟩
  · exact .inl h
  · refine .inr ⟨?_, hes, ?_⟩
    · rintro c (hc | ⟨d, hd, hc⟩)
      · simpa [hc] using hrow
      · simpa [hc] using hds d hd
    · intro t' hne
      by_cases hlt : t' < u.trackers.length
      · exact (hothers t' hlt).resolve_left hne
      · exact passable_unallocated (Nat.le_of_not_lt hlt)

omit [DecidableEq Owner] in
theorem sequenced (h : inSequence shard lease u a = true) : Sequenced shard lease u a := by
  refine ⟨?_, ?_, ?_⟩
  · rintro rfl hopen r epoch next stop last idle record hr hpc hlog hagg
    have hf : u.forward lease r.tracker next = true := by
      simpa [inSequence, hopen, hr, hpc, hlog, hagg] using h
    exact forward_of hf
  · rintro id rfl d c hd hp d' hd' c' hp'
    simp only [inSequence, hd, Option.all_some, hp, List.all_eq_true] at h
    simpa [hp'] using h d' hd'
  · rintro rfl r hr hnil
    simp only [inSequence, hr, Option.all_some, hnil, List.isEmpty_nil, Bool.not_true,
      Bool.false_or, Bool.and_eq_true, List.all_eq_true, List.mem_range, List.isEmpty_iff] at h
    refine ⟨?_, ?_⟩
    · intro d hd c hp
      simpa [hp] using h.1 d hd
    · intro t
      by_cases hlt : t < u.trackers.length
      · exact h.2 t hlt
      · exact passable_unallocated (Nat.le_of_not_lt hlt)

end Subscription

namespace System

open Subscription

variable {Owner : Type} [DecidableEq Owner] {owner : Nat → Owner} {s s' s₁ s₂ : System Owner}
variable {act : Act} {x : Nat}

/-- No other instance changes the row, and the checkpoints of `x` are written in sequence. -/
def inSequence (owner : Nat → Owner) (x : Nat) (s : System Owner) (act : Act) : Bool :=
  undisturbed owner x s act &&
    match act with
    | .sub y a => y != x || (s.subs y).inSequence s.shard s.lease a
    | _ => true

theorem advancing_step (h : Advancing s.shard s.lease (s.subs x))
    (hstep : s.step owner act = some s') (hok : s.inSequence owner x act = true) :
    Advancing s'.shard s'.lease (s'.subs x) ∧
      Checkpoint.place s.lease.checkpoint ≤ Checkpoint.place s'.lease.checkpoint := by
  simp only [inSequence, Bool.and_eq_true] at hok
  obtain ⟨hundisturbed, hseq⟩ := hok
  cases step_cases hstep with
  | service hg => exact ⟨⟨h.orderly.grows hg, h.tracking, h.least, h.ended⟩, le_refl _⟩
  | @sub y a lease' u' hs =>
    by_cases hy : y = x
    · subst hy
      simp only [Function.update_self]
      exact h.step hs (sequenced (by simpa using hseq))
    · have hlease : lease' = s.lease := by
        obtain ⟨⟨lease, u⟩, hu, he⟩ := Option.map_eq_some_iff.mp hstep
        obtain rfl : lease = lease' := congrArg System.lease he
        simpa [undisturbed, hy, hu] using hundisturbed
      simp only [Function.update_of_ne (Ne.symm hy), hlease]
      exact ⟨h, le_refl _⟩

/-- The checkpoint does not move back, and nothing takes the place of `SHARD_END`, as long as the
writes of the owner land in sequence. -/
theorem checkpoint_never_back {shard : Shard} {lease : MemoryLease Owner}
    (hpre : Run (step owner) (fun s act => s.inSequence owner x act = true) (fresh shard lease) s₁)
    (hrun : Run (step owner) (fun s act => s.inSequence owner x act = true) s₁ s₂) :
    Checkpoint.place s₁.lease.checkpoint ≤ Checkpoint.place s₂.lease.checkpoint ∧
      (s₁.lease.checkpoint = some .shardEnd → s₂.lease.checkpoint = some .shardEnd) := by
  have hadv : Advancing s₁.shard s₁.lease (s₁.subs x) :=
    hpre.invariant (I := fun s => Advancing s.shard s.lease (s.subs x))
      (fun _ _ _ h hok hstep => (advancing_step h hstep hok).1) .init
  have hle : Advancing s₂.shard s₂.lease (s₂.subs x) ∧
      Checkpoint.place s₁.lease.checkpoint ≤ Checkpoint.place s₂.lease.checkpoint := by
    refine hrun.invariant (I := fun s => Advancing s.shard s.lease (s.subs x) ∧
      Checkpoint.place s₁.lease.checkpoint ≤ Checkpoint.place s.lease.checkpoint) ?_
      ⟨hadv, le_refl _⟩
    intro s act s' h hok hstep
    obtain ⟨hadv', hle⟩ := advancing_step h.1 hstep hok
    exact ⟨hadv', h.2.trans hle⟩
  refine ⟨hle.2, ?_⟩
  intro hend
  exact Checkpoint.eq_shardEnd (hend ▸ hle.2)

/-- One owner holds the lease and makes no seek. -/
def soleOwner (owner : Nat → Owner) (x : Nat) (s : System Owner) (act : Act) : Bool :=
  undisturbed owner x s act && s.each seekless act && s.lease.owner.all fun o => o = owner x

/-- Two records are handed out and acked in order, and the tracker has answered both. -/
def answering : List Act :=
  opening 0 .opens 0 ++ [.append [1], .append [2]] ++ reading 0 2 false ++
    [.sub 0 (.reader (.recordOpening true)), .sub 0 (.reader .handOut), .sub 0 (.reader .handOut),
      .sub 0 .poll, .sub 0 .poll, .sub 0 (.ack 0), .sub 0 (.settle 0), .sub 0 (.ack 1),
      .sub 0 (.settle 1)]

/-- The write of the first settlement lands after that of the second. -/
theorem checkpoint_moves_back : ∃ s₁ s₂ : System Nat,
    Run (step id) (fun s act => s.soleOwner id 0 act = true) (init {}) s₁ ∧
      Run (step id) (fun s act => s.soleOwner id 0 act = true) s₁ s₂ ∧
      s₁.lease.checkpoint = some (.sequence 1) ∧ s₂.lease.checkpoint = some (.sequence 0) ∧
      ¬ Checkpoint.place s₁.lease.checkpoint ≤ Checkpoint.place s₂.lease.checkpoint := by
  have hrun : ((check (step id) (soleOwner id 0) (init {}) (answering ++
      [.sub 0 (.write 1 true)])).bind fun s₁ =>
        (check (step id) (soleOwner id 0) s₁ [.sub 0 (.write 0 true)]).map fun s₂ =>
          s₁.lease.checkpoint == some (.sequence 1) && s₂.lease.checkpoint == some (.sequence 0)) =
      some true := by decide
  obtain ⟨s₁, hs₁, hrun⟩ := Option.bind_eq_some_iff.mp hrun
  obtain ⟨s₂, hs₂, hrun⟩ := Option.map_eq_some_iff.mp hrun
  simp only [Bool.and_eq_true, beq_iff_eq] at hrun
  obtain ⟨h₁, h₂⟩ := hrun
  refine ⟨s₁, s₂, .of_check hs₁, .of_check hs₂, h₁, h₂, ?_⟩
  rw [h₁, h₂, Checkpoint.place_sequence]
  omega

/-- The writes land in the order of the settlements. -/
theorem checkpoint_never_back_written : ∃ s₁ s₂ : System Nat,
    s₁.lease.checkpoint = some (.sequence 0) ∧ s₂.lease.checkpoint = some (.sequence 1) ∧
      Checkpoint.place s₁.lease.checkpoint ≤ Checkpoint.place s₂.lease.checkpoint ∧
      (s₁.lease.checkpoint = some .shardEnd → s₂.lease.checkpoint = some .shardEnd) := by
  have hrun : ((check (step id) (inSequence id 0) (fresh {} {}) (answering ++
      [.sub 0 (.write 0 true)])).bind fun s₁ =>
        (check (step id) (inSequence id 0) s₁ [.sub 0 (.write 1 true)]).map fun s₂ =>
          s₁.lease.checkpoint == some (.sequence 0) && s₂.lease.checkpoint == some (.sequence 1)) =
      some true := by decide
  obtain ⟨s₁, hs₁, hrun⟩ := Option.bind_eq_some_iff.mp hrun
  obtain ⟨s₂, hs₂, hrun⟩ := Option.map_eq_some_iff.mp hrun
  simp only [Bool.and_eq_true, beq_iff_eq] at hrun
  obtain ⟨h₁, h₂⟩ := hrun
  exact ⟨s₁, s₂, h₁, h₂, checkpoint_never_back (.of_check hs₁) (.of_check hs₂)⟩

end System

end RuststreamKinesis
