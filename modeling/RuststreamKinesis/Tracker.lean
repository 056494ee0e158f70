import RuststreamKinesis.Lib.Front
import RuststreamKinesis.Track

/-!
# The tracker over the whole of its calls

`track.rs` once more, with the sequence numbers as the texts the source keeps (any type `σ`) and
the `BTreeMap` with its own `insert`. After any calls the watermark stands at the end of the
longest settled prefix. The tracker of the subscriptions (`Track.lean`) is the one at `σ := ℕ`.
-/

namespace RuststreamKinesis

set_option autoImplicit false

open Front

variable {σ : Type}

/-- An entry of the map: index ↦ (sequence number, done). -/
abbrev Tracked (σ : Type) := Nat × σ × Bool

structure TrackState (σ : Type) where
  /-- Outstanding deliveries in arrival order, the map's entries in the order of their keys. -/
  pending : List (Tracked σ) := []
  nextIndex : Nat := 0
deriving DecidableEq, Repr

namespace TrackState

/-- `BTreeMap::insert`. -/
def insert (index : Nat) (value : σ × Bool) : List (Tracked σ) → List (Tracked σ)
  | [] => [(index, value)]
  | (key, old) :: items =>
    if index < key then (index, value) :: (key, old) :: items
    else if index = key then (index, value) :: items
    else (key, old) :: insert index value items

/-- Registers a delivery; answers its tracking index. -/
def deliver (w : TrackState σ) (sequence : σ) : Nat × TrackState σ :=
  (w.nextIndex,
    { pending := insert w.nextIndex (sequence, false) w.pending
      nextIndex := w.nextIndex + 1 })

/-- `if let Some(entry) = pending.get_mut(&index) { entry.1 = true }`. -/
def mark (index : Nat) (items : List (Tracked σ)) : List (Tracked σ) :=
  items.map fun (key, sequence, done) => (key, sequence, done || key == index)

/-- The `while` loop of `settle`, with the answer so far. -/
def advance (advanced : Option σ) : List (Tracked σ) → Option σ × List (Tracked σ)
  | [] => (advanced, [])
  | (front, sequence, done) :: items =>
    if done then advance (some sequence) items
    else (advanced, (front, sequence, done) :: items)

/-- Marks a delivery done; answers the highest sequence number the watermark advanced to, when it
moved. -/
def settle (w : TrackState σ) (index : Nat) : Option σ × TrackState σ :=
  let (advanced, rest) := advance none (mark index w.pending)
  (advanced, { w with pending := rest })

/-- Whether every registered delivery has settled. -/
def drained (w : TrackState σ) : Bool := w.pending.isEmpty

end TrackState

/-- A call on a tracker. -/
inductive TrackCall (σ : Type) where
  | deliver (sequence : σ)
  | settle (index : Nat)
deriving DecidableEq, Repr

namespace TrackCall

def run (w : TrackState σ) : TrackCall σ → TrackState σ
  | deliver sequence => (w.deliver sequence).2
  | settle index => (w.settle index).2

def sequence? : TrackCall σ → Option σ
  | deliver sequence => some sequence
  | settle _ => none

end TrackCall

namespace TrackCalls

/-- The tracker after the calls, from the empty one. -/
def after (calls : List (TrackCall σ)) : TrackState σ := calls.foldl TrackCall.run {}

/-- The sequence numbers delivered, in order: the delivery of index `i` is the `i`-th. -/
def delivered (calls : List (TrackCall σ)) : List σ := calls.filterMap TrackCall.sequence?

/-- Some call settled the index after its delivery. -/
def Settled (calls : List (TrackCall σ)) (i : Nat) : Prop :=
  ∃ before later, calls = before ++ .settle i :: later ∧ i < (delivered before).length

/-- The length of the longest prefix of the deliveries that is settled. -/
noncomputable def watermark (calls : List (TrackCall σ)) : Nat :=
  front (Settled calls) (delivered calls).length

@[simp] theorem delivered_deliver (calls : List (TrackCall σ)) (sequence : σ) :
    delivered (calls ++ [.deliver sequence]) = delivered calls ++ [sequence] := by
  simp [delivered, TrackCall.sequence?]

@[simp] theorem delivered_settle (calls : List (TrackCall σ)) (index : Nat) :
    delivered (calls ++ [.settle index]) = delivered calls := by
  simp [delivered, TrackCall.sequence?]

@[simp] theorem after_snoc (calls : List (TrackCall σ)) (call : TrackCall σ) :
    after (calls ++ [call]) = call.run (after calls) := by
  simp [after]

theorem Settled.lt {calls : List (TrackCall σ)} {i : Nat} (h : Settled calls i) :
    i < (delivered calls).length := by
  obtain ⟨before, later, rfl, hi⟩ := h
  simp only [delivered, List.filterMap_append, List.length_append] at hi ⊢
  omega

theorem settled_snoc {calls : List (TrackCall σ)} {call : TrackCall σ} {i : Nat} :
    Settled (calls ++ [call]) i ↔
      Settled calls i ∨ (call = .settle i ∧ i < (delivered calls).length) := by
  constructor
  · rintro ⟨before, later, heq, hi⟩
    rcases List.eq_nil_or_concat later with rfl | ⟨later, last, rfl⟩
    · obtain ⟨rfl, hcall⟩ := List.append_inj' heq rfl
      exact Or.inr ⟨(List.cons.inj hcall).1, hi⟩
    · have heq' : calls ++ [call] = (before ++ .settle i :: later) ++ [last] := by
        simpa using heq
      obtain ⟨hcalls, -⟩ := List.append_inj' heq' rfl
      exact Or.inl ⟨before, later, hcalls, hi⟩
  · rintro (⟨before, later, rfl, hi⟩ | ⟨rfl, hi⟩)
    · exact ⟨before, later ++ [call], by simp, hi⟩
    · exact ⟨calls, [], rfl, hi⟩

theorem settled_deliver {calls : List (TrackCall σ)} {sequence : σ} {i : Nat} :
    Settled (calls ++ [.deliver sequence]) i ↔ Settled calls i := by
  simp [settled_snoc]

theorem settled_settle {calls : List (TrackCall σ)} {index i : Nat} :
    Settled (calls ++ [.settle index]) i ↔
      Settled calls i ∨ (index = i ∧ i < (delivered calls).length) := by
  simp [settled_snoc]

end TrackCalls

namespace TrackState

/-- The entries of the deliveries from `p` on, with their flags. -/
def listing (seqs : List σ) (s : Nat → Bool) (p : Nat) : List (Tracked σ) :=
  (seqs.zipIdx.map fun (sequence, i) => (i, sequence, s i)).drop p

variable {seqs : List σ} {s : Nat → Bool} {p : Nat}

theorem listing_end (h : seqs.length ≤ p) : listing seqs s p = [] := by
  apply List.drop_eq_nil_of_le
  simpa using h

theorem listing_cons (h : p < seqs.length) :
    listing seqs s p = (p, seqs[p], s p) :: listing seqs s (p + 1) := by
  rw [listing, List.drop_eq_getElem_cons (by simpa using h)]
  simp [listing]

@[simp] theorem listing_isEmpty : (listing seqs s p).isEmpty = true ↔ seqs.length ≤ p := by
  simp [listing]

theorem listing_keys : (listing seqs s p).map Prod.fst = List.range' p (seqs.length - p) := by
  simp only [listing, List.map_drop, List.map_map]
  have hkeys : seqs.zipIdx.map (Prod.fst ∘ fun (x : σ × Nat) => (x.2, x.1, s x.2)) =
      seqs.zipIdx.map Prod.snd := rfl
  rw [hkeys, List.zipIdx_map_snd, List.drop_range']
  simp

theorem mem_listing {i : Nat} {sequence : σ} {done : Bool} :
    (i, sequence, done) ∈ listing seqs s p ↔
      p ≤ i ∧ seqs[i]? = some sequence ∧ done = s i := by
  simp only [listing, List.mem_iff_getElem?, List.getElem?_drop, List.getElem?_map,
    List.getElem?_zipIdx, Option.map_map, Option.map_eq_some_iff, Function.comp_apply,
    Nat.zero_add, Prod.mk.injEq]
  constructor
  · rintro ⟨k, sequence, hget, hi, rfl, hdone⟩
    obtain rfl : p + k = i := by omega
    exact ⟨by omega, hget, hdone.symm⟩
  · rintro ⟨hp, hget, hdone⟩
    have hi : p + (i - p) = i := by omega
    exact ⟨i - p, sequence, by rw [hi]; exact hget, by omega, rfl, by rw [hi, hdone]⟩

theorem listing_congr {t : Nat → Bool} (h : ∀ i < seqs.length, s i = t i) :
    listing seqs s p = listing seqs t p := by
  unfold listing
  congr 1
  apply List.map_congr_left
  rintro ⟨sequence, i⟩ hmem
  have hi : i < seqs.length := by
    have := (List.mem_zipIdx hmem).2.1
    omega
  simp only [h i hi]

theorem mark_listing (index : Nat) :
    mark index (listing seqs s p) = listing seqs (fun i => s i || i == index) p := by
  simp only [mark, listing, List.map_drop, List.map_map]
  rfl

theorem listing_snoc {sequence : σ} (hp : p ≤ seqs.length) (hs : s seqs.length = false) :
    listing (seqs ++ [sequence]) s p = listing seqs s p ++ [(seqs.length, sequence, false)] := by
  unfold listing
  rw [List.zipIdx_append, List.map_append, List.drop_append_of_le_length (by simpa using hp)]
  simp [hs]

theorem insert_last {index : Nat} {value : σ × Bool} {items : List (Tracked σ)}
    (h : ∀ item ∈ items, item.1 < index) :
    insert index value items = items ++ [(index, value)] := by
  induction items with
  | nil => rfl
  | cons item items ih =>
    obtain ⟨key, old⟩ := item
    have hkey : key < index := h (key, old) List.mem_cons_self
    have hrest := ih fun item hitem => h item (List.mem_cons_of_mem _ hitem)
    simp only [insert, hrest, List.cons_append]
    rw [if_neg (by omega), if_neg (by omega)]

/-- The loop of `settle` stops at the first entry from `p` on that is not done. -/
theorem advance_listing {q : Nat} {advanced : Option σ} (hpq : p ≤ q) (hq : q ≤ seqs.length)
    (hdone : ∀ i, p ≤ i → i < q → s i = true) (hstop : q < seqs.length → s q = false) :
    advance advanced (listing seqs s p) =
      (if p < q then seqs[q - 1]? else advanced, listing seqs s q) := by
  obtain ⟨k, rfl⟩ := Nat.exists_eq_add_of_le hpq
  induction k generalizing p advanced with
  | zero =>
    rw [if_neg (by omega), Nat.add_zero]
    by_cases hp : p < seqs.length
    · have hfalse : s p = false := hstop hp
      rw [listing_cons hp, advance, if_neg (by simp [hfalse])]
    · rw [listing_end (by omega), advance]
  | succ k ih =>
    have htrue : s p = true := hdone p (by omega) (by omega)
    have hnext : p + (k + 1) = p + 1 + k := by omega
    rw [listing_cons (by omega), advance, if_pos htrue, if_pos (by omega)]
    rw [hnext] at hq hstop hdone ⊢
    rw [ih (by omega) hq (fun i hi => hdone i (by omega)) hstop]
    by_cases hk : k = 0
    · subst hk
      rw [if_neg (by omega), Nat.add_zero, Nat.add_sub_cancel, List.getElem?_eq_getElem]
    · rw [if_pos (by omega)]

end TrackState

namespace TrackCalls

open Classical in
/-- The flag of an index: it is settled. -/
noncomputable def flag (calls : List (TrackCall σ)) (i : Nat) : Bool := decide (Settled calls i)

@[simp] theorem flag_eq_true {calls : List (TrackCall σ)} {i : Nat} :
    flag calls i = true ↔ Settled calls i := by
  simp [flag]

@[simp] theorem flag_eq_false {calls : List (TrackCall σ)} {i : Nat} :
    flag calls i = false ↔ ¬ Settled calls i := by
  simp [flag]

theorem watermark_le (calls : List (TrackCall σ)) : watermark calls ≤ (delivered calls).length :=
  front_le

theorem watermark_stop {calls : List (TrackCall σ)}
    (h : watermark calls < (delivered calls).length) :
    ¬ Settled calls (watermark calls) := by
  intro hs
  have hmem : watermark calls + 1 ∈ prefixes (Settled calls) (delivered calls).length := by
    refine ⟨h, ?_⟩
    intro i hi
    rcases Nat.lt_succ_iff_lt_or_eq.mp hi with hlt | rfl
    · exact of_lt_front hlt
    · exact hs
  have := (front_isGreatest (Settled calls) (delivered calls).length).2 hmem
  unfold watermark at this
  omega

theorem watermark_deliver (calls : List (TrackCall σ)) (sequence : σ) :
    watermark (calls ++ [.deliver sequence]) = watermark calls := by
  apply front_eq
  · constructor
    · have := watermark_le calls
      simp only [delivered_deliver, List.length_append]
      omega
    · intro i hi
      exact settled_deliver.mpr (of_lt_front hi)
  · intro _ hs
    have hs' := settled_deliver.mp hs
    exact watermark_stop hs'.lt hs'

theorem watermark_settle (calls : List (TrackCall σ)) (index : Nat) :
    watermark calls ≤ watermark (calls ++ [.settle index]) := by
  unfold watermark
  rw [delivered_settle]
  apply front_mono
  intro i hi
  exact settled_settle.mpr (Or.inl hi)

/-- What the tracker holds: the entries from the watermark on. -/
structure Holds (calls : List (TrackCall σ)) (w : TrackState σ) : Prop where
  next : w.nextIndex = (delivered calls).length
  pending : w.pending = TrackState.listing (delivered calls) (flag calls) (watermark calls)

theorem Holds.deliver {calls : List (TrackCall σ)} {w : TrackState σ} (h : Holds calls w)
    (sequence : σ) : Holds (calls ++ [.deliver sequence]) (w.deliver sequence).2 := by
  constructor
  · simp [TrackState.deliver, h.next]
  · have hkeys : ∀ item ∈ w.pending, item.1 < w.nextIndex := by
      rintro ⟨i, s, done⟩ hitem
      rw [h.pending, TrackState.mem_listing] at hitem
      have := (List.getElem?_eq_some_iff.mp hitem.2.1).1
      rw [h.next]
      exact this
    have hflag : ∀ i, flag (calls ++ [.deliver sequence]) i = flag calls i := by
      intro i
      rw [Bool.eq_iff_iff, flag_eq_true, flag_eq_true, settled_deliver]
    have hlast : flag calls (delivered calls).length = false := by
      rw [flag_eq_false]
      intro hs
      have := hs.lt
      omega
    simp only [TrackState.deliver]
    rw [TrackState.insert_last hkeys, h.pending, h.next, watermark_deliver, delivered_deliver]
    rw [TrackState.listing_congr (fun i _ => hflag i)]
    rw [TrackState.listing_snoc (watermark_le calls) hlast]

theorem Holds.settle {calls : List (TrackCall σ)} {w : TrackState σ} (h : Holds calls w)
    (index : Nat) :
    (w.settle index).1 =
        (if watermark calls < watermark (calls ++ [.settle index])
          then (delivered calls)[watermark (calls ++ [.settle index]) - 1]? else none) ∧
      Holds (calls ++ [.settle index]) (w.settle index).2 := by
  have hflag : ∀ i < (delivered calls).length,
      (flag calls i || i == index) = flag (calls ++ [.settle index]) i := by
    intro i hi
    rw [Bool.eq_iff_iff, flag_eq_true, settled_settle]
    simp only [Bool.or_eq_true, flag_eq_true, beq_iff_eq]
    constructor
    · rintro (hs | rfl)
      · exact Or.inl hs
      · exact Or.inr ⟨rfl, hi⟩
    · rintro (hs | ⟨rfl, -⟩)
      · exact Or.inl hs
      · exact Or.inr rfl
  have hrun : TrackState.advance none (TrackState.mark index w.pending) =
      (if watermark calls < watermark (calls ++ [.settle index])
        then (delivered calls)[watermark (calls ++ [.settle index]) - 1]? else none,
        TrackState.listing (delivered calls) (flag (calls ++ [.settle index]))
          (watermark (calls ++ [.settle index]))) := by
    rw [h.pending, TrackState.mark_listing, TrackState.listing_congr hflag]
    apply TrackState.advance_listing (watermark_settle calls index)
    · have := watermark_le (calls ++ [.settle index])
      rwa [delivered_settle] at this
    · intro i _ hi
      exact flag_eq_true.mpr (of_lt_front hi)
    · intro hlt
      apply flag_eq_false.mpr
      apply watermark_stop
      rwa [delivered_settle]
  constructor
  · simp only [TrackState.settle, hrun]
  · constructor
    · simp only [TrackState.settle, delivered_settle]
      exact h.next
    · simp only [TrackState.settle, hrun, delivered_settle]

theorem after_holds (calls : List (TrackCall σ)) : Holds calls (after calls) := by
  induction calls using List.reverseRecOn with
  | nil =>
    constructor
    · rfl
    · rw [TrackState.listing_end (Nat.zero_le _)]
      rfl
  | append_singleton calls call ih =>
    rw [after_snoc]
    cases call with
    | deliver sequence => exact ih.deliver sequence
    | settle index => exact (ih.settle index).2

end TrackCalls

open TrackCalls in
/-- The watermark is the longest settled prefix: the map holds the rest of the deliveries, with
their sequence numbers and flags, and a settle call answers the last delivery of the prefix
exactly when it makes the prefix longer. -/
theorem watermark_longest_prefix (calls : List (TrackCall σ)) :
    IsGreatest (prefixes (Settled calls) (delivered calls).length) (watermark calls) ∧
    (after calls).pending.map Prod.fst =
      List.range' (watermark calls) ((delivered calls).length - watermark calls) ∧
    (∀ i sequence done, (i, sequence, done) ∈ (after calls).pending ↔
      watermark calls ≤ i ∧ (delivered calls)[i]? = some sequence ∧
        (done = true ↔ Settled calls i)) ∧
    (∀ index, watermark calls < watermark (calls ++ [.settle index]) →
      ∃ sequence, (delivered calls)[watermark (calls ++ [.settle index]) - 1]? = some sequence ∧
        ((after calls).settle index).1 = some sequence) ∧
    (∀ index, ¬ watermark calls < watermark (calls ++ [.settle index]) →
      ((after calls).settle index).1 = none) ∧
    (∀ index sequence, ((after calls).settle index).1 = some sequence →
      ∃ i, (delivered calls)[i]? = some sequence ∧
        ∀ j ≤ i, Settled (calls ++ [.settle index]) j) ∧
    ((after calls).drained = true ↔ ∀ i < (delivered calls).length, Settled calls i) := by
  have hholds := after_holds calls
  refine ⟨front_isGreatest _ _, ?_, ?_, ?_, ?_, ?_, ?_⟩
  · rw [hholds.pending, TrackState.listing_keys]
  · intro i sequence done
    rw [hholds.pending, TrackState.mem_listing, Bool.eq_iff_iff, flag_eq_true]
  · intro index hlt
    have hle := watermark_le (calls ++ [.settle index])
    rw [delivered_settle] at hle
    have hin : watermark (calls ++ [.settle index]) - 1 < (delivered calls).length := by omega
    refine ⟨(delivered calls)[watermark (calls ++ [.settle index]) - 1], by simp [hin], ?_⟩
    rw [(hholds.settle index).1, if_pos hlt, List.getElem?_eq_getElem hin]
  · intro index hlt
    rw [(hholds.settle index).1, if_neg hlt]
  · intro index sequence hanswer
    rw [(hholds.settle index).1] at hanswer
    split_ifs at hanswer with hlt
    refine ⟨_, hanswer, ?_⟩
    intro j hj
    exact of_lt_front (show j < watermark (calls ++ [.settle index]) by omega)
  · rw [TrackState.drained, hholds.pending, TrackState.listing_isEmpty, ← front_eq_end_iff]
    have := watermark_le calls
    unfold watermark at this ⊢
    omega

namespace Watermark

def item (e : Entry) : Tracked Nat := (e.index, e.sequence, e.done)

/-- The tracker of a subscription, as the one of this module at numbers. -/
def state (w : Watermark) : TrackState Nat where
  pending := w.pending.map item
  nextIndex := w.nextIndex

theorem mark_items (index : Nat) (es : List Entry) :
    TrackState.mark index (es.map item) = (mark index es).map item := by
  simp only [TrackState.mark, mark, List.map_map]
  apply List.map_congr_left
  intro e _
  simp only [Function.comp, item]
  split_ifs with h
  · simp [h]
  · simp [h]

theorem advance_items (advanced : Option Nat) (es : List Entry) :
    TrackState.advance advanced (es.map item) =
      ((advance es).1.or advanced, (advance es).2.map item) := by
  induction es generalizing advanced with
  | nil => rfl
  | cons e es ih =>
    simp only [List.map_cons, item, TrackState.advance, advance]
    split_ifs with hdone
    · rw [ih (some e.sequence)]
      cases (advance es).1 with
      | none => rfl
      | some c => rfl
    · rfl

theorem state_deliver {w : Watermark} (h : w.Ordered) (sequence : Nat) :
    w.state.deliver sequence = (w.nextIndex, (w.deliver sequence).state) := by
  have hkeys : ∀ x ∈ w.pending.map item, x.1 < w.nextIndex := by
    intro x hx
    obtain ⟨e, he, rfl⟩ := List.mem_map.mp hx
    exact h.below e he
  simp only [TrackState.deliver, state, TrackState.insert_last hkeys, deliver, List.map_append,
    List.map_cons, List.map_nil, item]

theorem state_settle (w : Watermark) (index : Nat) :
    w.state.settle index = ((w.settle index).1, (w.settle index).2.state) := by
  simp only [TrackState.settle, state, settle, mark_items, advance_items, Option.or_none]

theorem state_drained (w : Watermark) : w.state.drained = w.drained := by
  simp [TrackState.drained, drained, state]

def call (w : Watermark) : TrackCall Nat → Watermark
  | .deliver sequence => w.deliver sequence
  | .settle index => (w.settle index).2

theorem Ordered.call {w : Watermark} (h : w.Ordered) (c : TrackCall Nat) : (w.call c).Ordered := by
  cases c with
  | deliver sequence => exact h.deliver sequence
  | settle index => exact h.settle index

theorem state_call {w : Watermark} (h : w.Ordered) (c : TrackCall Nat) :
    (w.call c).state = c.run w.state := by
  cases c with
  | deliver sequence => simp only [call, TrackCall.run, state_deliver h]
  | settle index => simp only [call, TrackCall.run, state_settle]

/-- Over any calls the tracker of a subscription and the one of this module stay the same. -/
theorem state_foldl (calls : List (TrackCall Nat)) {w : Watermark} (h : w.Ordered) :
    (calls.foldl call w).state = calls.foldl TrackCall.run w.state := by
  induction calls generalizing w with
  | nil => rfl
  | cons c calls ih =>
    rw [List.foldl_cons, List.foldl_cons, ih (h.call c), state_call h]

end Watermark

end RuststreamKinesis
