import RuststreamKinesis.Lib.Cells
import RuststreamKinesis.Lib.Window

/-!
# The per-shard watermark tracker

Acknowledgements advance a contiguous watermark over deliveries in arrival order, tracked by a
monotonic index (`track.rs`). The `BTreeMap` is the list of its entries in index order.
-/

namespace RuststreamKinesis

set_option autoImplicit false

open Window

structure Entry where
  index : Nat
  sequence : Nat
  done : Bool
deriving DecidableEq, Repr

/-- Tracks outstanding deliveries for one shard. -/
structure Watermark where
  pending : List Entry := []
  nextIndex : Nat := 0
deriving DecidableEq, Repr

namespace Watermark

/-- Registers a delivery under the next index. -/
def deliver (w : Watermark) (sequence : Nat) : Watermark where
  pending := w.pending ++ [⟨w.nextIndex, sequence, false⟩]
  nextIndex := w.nextIndex + 1

def mark (index : Nat) (entries : List Entry) : List Entry :=
  entries.map fun e => if e.index = index then { e with done := true } else e

/-- The `while` loop of `settle`: drops the settled entries at the front and answers the sequence
number of the last one dropped. -/
def advance : List Entry → Option Nat × List Entry
  | [] => (none, [])
  | e :: es =>
    if e.done then
      let rest := advance es
      (some (rest.1.getD e.sequence), rest.2)
    else (none, e :: es)

/-- Marks a delivery done and answers the sequence number the watermark advanced to. -/
def settle (w : Watermark) (index : Nat) : Option Nat × Watermark :=
  let (advanced, rest) := advance (mark index w.pending)
  (advanced, { w with pending := rest })

/-- Whether every registered delivery has settled. -/
def drained (w : Watermark) : Bool := w.pending.isEmpty

@[simp] theorem mark_sequence (index : Nat) (es : List Entry) :
    (mark index es).map Entry.sequence = es.map Entry.sequence := by
  simp only [mark, List.map_map]
  apply List.map_congr_left
  intro e _
  simp only [Function.comp]
  split <;> rfl

@[simp] theorem mark_index (index : Nat) (es : List Entry) :
    (mark index es).map Entry.index = es.map Entry.index := by
  simp only [mark, List.map_map]
  apply List.map_congr_left
  intro e _
  simp only [Function.comp]
  split <;> rfl

theorem mem_deliver {w : Watermark} {sequence : Nat} {e : Entry}
    (h : e ∈ (w.deliver sequence).pending) :
    e ∈ w.pending ∨ e = ⟨w.nextIndex, sequence, false⟩ := Cells.mem_push h

theorem mem_mark {index : Nat} {es : List Entry} {e : Entry} (h : e ∈ mark index es) :
    ∃ old ∈ es, e.index = old.index ∧ e.sequence = old.sequence ∧
      (e.done = true ↔ old.done = true ∨ old.index = index) := by
  obtain ⟨old, hold, rfl⟩ := List.mem_map.mp h
  refine ⟨old, hold, ?_⟩
  split
  · rename_i hi
    exact ⟨rfl, rfl, iff_of_true rfl (.inr hi)⟩
  · rename_i hne
    exact ⟨rfl, rfl, .inl, fun hor => hor.resolve_right hne⟩

theorem mark_other {index : Nat} {es : List Entry} {e : Entry} (h : e ∈ es)
    (hne : e.index ≠ index) : e ∈ mark index es :=
  List.mem_map.mpr ⟨e, h, if_neg hne⟩

/-- The oldest entry left is not settled. -/
theorem advance_front {es : List Entry} {e : Entry} {rest : List Entry}
    (h : (advance es).2 = e :: rest) : e.done = false := by
  induction es with
  | nil => cases h
  | cons a es ih =>
    simp only [advance] at h
    split at h
    · exact ih h
    · rename_i ha
      obtain rfl := (List.cons.inj h).1
      simpa using ha

theorem mem_of_mem_advance {es : List Entry} {e : Entry} (h : e ∈ (advance es).2) : e ∈ es := by
  induction es with
  | nil => simp [advance] at h
  | cons a es ih =>
    simp only [advance] at h
    split at h
    · exact List.mem_cons_of_mem a (ih h)
    · exact h

/-- What is left after a settlement was there before, settled if it is the one settled now. -/
theorem mem_settle {w : Watermark} {index : Nat} {e : Entry}
    (h : e ∈ (w.settle index).2.pending) :
    ∃ old ∈ w.pending, e.index = old.index ∧ e.sequence = old.sequence ∧
      (e.done = true ↔ old.done = true ∨ old.index = index) :=
  mem_mark (mem_of_mem_advance h)

theorem mem_advance_or_done {es : List Entry} {e : Entry} (h : e ∈ es) :
    e ∈ (advance es).2 ∨ e.done = true := by
  induction es with
  | nil => simp at h
  | cons a es ih =>
    simp only [advance]
    split
    · rename_i ha
      rcases List.mem_cons.mp h with rfl | h
      · exact .inr ha
      · exact ih h
    · exact .inl h

theorem advance_sublist (es : List Entry) : (advance es).2.Sublist es := by
  induction es with
  | nil => exact List.Sublist.slnil
  | cons a es ih =>
    simp only [advance]
    split
    · exact ih.cons a
    · exact List.Sublist.refl _

/-- When the front entries settle the window stays stacked, and the answer of the loop has
everything before it done. -/
theorem advance_stacked {Done : Nat → Prop} {b : Nat} {es : List Entry}
    (hs : Stacked Done b (es.map Entry.sequence))
    (hd : ∀ e ∈ es, e.done = true → Done e.sequence) :
    Stacked Done b ((advance es).2.map Entry.sequence) ∧
      ∀ c, (advance es).1 = some c → DoneTo Done b c := by
  induction es with
  | nil => simp [advance, Stacked.nil]
  | cons a es ih =>
    simp only [advance]
    split
    · rename_i ha
      have hhead := hd a List.mem_cons_self ha
      obtain ⟨hrest, hto⟩ := ih (hs.drop hhead) fun e he => hd e (List.mem_cons_of_mem a he)
      refine ⟨hrest, ?_⟩
      intro c hc
      obtain rfl := Option.some.inj hc
      cases hadv : (advance es).1 with
      | none => exact hs.head hhead
      | some c => exact hto c hadv
    · exact ⟨hs, by simp⟩

/-- Indexes are handed out in increasing order and stay below the next one. -/
structure Ordered (w : Watermark) : Prop where
  sorted : (w.pending.map Entry.index).Pairwise (· < ·)
  below : ∀ e ∈ w.pending, e.index < w.nextIndex

theorem Ordered.empty : Ordered {} := ⟨by simp, by simp⟩

theorem Ordered.deliver {w : Watermark} (h : w.Ordered) (sequence : Nat) :
    (w.deliver sequence).Ordered := by
  constructor
  · simp only [Watermark.deliver, List.map_append, List.map_cons, List.map_nil]
    refine List.pairwise_append.mpr ⟨h.sorted, by simp, ?_⟩
    intro i hi j hj
    obtain ⟨e, he, rfl⟩ := List.mem_map.mp hi
    obtain rfl : j = w.nextIndex := List.mem_singleton.mp hj
    exact h.below e he
  · intro e he
    simp only [Watermark.deliver, List.mem_append, List.mem_singleton] at he ⊢
    rcases he with he | rfl
    · exact Nat.lt_succ_of_lt (h.below e he)
    · exact Nat.lt_succ_self _

theorem Ordered.settle {w : Watermark} (h : w.Ordered) (index : Nat) :
    (w.settle index).2.Ordered := by
  constructor
  · have hsub := (advance_sublist (mark index w.pending)).map Entry.index
    exact (mark_index index w.pending ▸ h.sorted : ((mark index w.pending).map Entry.index).Pairwise
      (· < ·)).sublist hsub
  · intro e he
    obtain ⟨old, hold, hi, _⟩ := mem_settle he
    exact hi ▸ h.below old hold

end Watermark

end RuststreamKinesis
