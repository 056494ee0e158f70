import RuststreamKinesis.InProcess.Steps
import Mathlib.Order.Bounds.Defs

/-!
# Arrival stamps

An append reads the clock before it locks the log, so of two appends the one that read the clock
later may push first. The logs stay sorted by arrival exactly when no append does that, and on a
sorted log a timestamp resolves to the first record from that instant on.
-/

namespace RuststreamKinesis.InProcess

set_option autoImplicit false

open Partition Runs

/-- The arrival stamps do not decrease. -/
def Sorted (log : List Record) : Prop :=
  log.Pairwise fun earlier later => earlier.atMillis ≤ later.atMillis

/-- `n` is the first index from which on every record arrived at `millis` or later, and every
record before it arrived earlier. -/
structure FirstFrom (log : List Record) (millis n : Nat) : Prop where
  least : IsLeast {n | ∀ i record, n ≤ i → log[i]? = some record → millis ≤ record.atMillis} n
  before : ∀ i record, i < n → log[i]? = some record → record.atMillis < millis

/-- Every log is sorted, and every timestamp resolves to the first record from then on. -/
def Bus.Ordered (b : Bus) : Prop :=
  ∀ stream, Sorted (b.records stream) ∧ ∀ millis, ∃ plan,
    planOver (b.records stream) stream (.timestamp millis) = .ok plan ∧
      FirstFrom (b.records stream) millis plan.target

/-- An append pushes a record that did not arrive before the last one of the log. -/
def Bus.inOrder (b : Bus) : Act → Bool
  | .push k _ =>
    match b.appends[k]? with
    | some (.stamped stream record) =>
      (b.records stream).getLast?.all fun last => last.atMillis ≤ record.atMillis
    | _ => true
  | _ => true

variable {log : List Record} {millis n : Nat}

theorem Sorted.monotone (h : Sorted log) :
    Monotone (fun record => decide (record.atMillis < millis)) log := by
  intro i j hij hj
  obtain ⟨later, hlater, hlt⟩ := Option.any_eq_true _ _ |>.mp hj
  rcases Nat.lt_or_eq_of_le hij with hij | rfl
  · have hjlen := (List.getElem?_eq_some_iff.mp hlater).1
    have hlt' : log[i].atMillis ≤ log[j].atMillis := List.pairwise_iff_getElem.mp h i j _ hjlen hij
    simp only [List.getElem?_eq_getElem hjlen, Option.some.injEq] at hlater
    subst hlater
    simp only [holdsAt, List.getElem?_eq_getElem (by omega : i < log.length), Option.any_some,
      decide_eq_true_eq] at hlt ⊢
    omega
  · exact hj

theorem firstFrom_of_parts
    (h : Parts (fun record : Record => decide (record.atMillis < millis)) log n) :
    FirstFrom log millis n := by
  have hat : ∀ i record, log[i]? = some record →
      holdsAt (fun record : Record => decide (record.atMillis < millis)) log i =
        decide (record.atMillis < millis) := by
    intro i record hget
    simp only [holdsAt, hget, Option.any_some]
  refine ⟨⟨?_, ?_⟩, ?_⟩
  · intro i record hi hget
    have := h.since i hi
    rw [hat i record hget, decide_eq_false_iff_not] at this
    omega
  · intro m hm
    by_contra hlt
    have hlen : m < log.length := by
      have := h.le
      omega
    have hget : log[m]? = some log[m] := List.getElem?_eq_getElem hlen
    have hafter := hm m _ (Nat.le_refl m) hget
    have := h.before m (by omega)
    rw [hat m _ hget, decide_eq_true_eq] at this
    omega
  · intro i record hi hget
    have := h.before i hi
    rwa [hat i record hget, decide_eq_true_eq] at this

theorem Sorted.timestamp (h : Sorted log) (stream : String) (millis : Nat) :
    ∃ plan, planOver log stream (.timestamp millis) = .ok plan ∧
      FirstFrom log millis plan.target :=
  ⟨_, rfl, firstFrom_of_parts (partitionPoint_parts h.monotone)⟩

theorem sorted_push {record : Record} (h : Sorted log) :
    Sorted (log ++ [record]) ↔
      (log.getLast?.all fun last => decide (last.atMillis ≤ record.atMillis)) = true := by
  rw [Sorted, List.pairwise_append]
  cases hlast : log.getLast? with
  | none =>
    obtain rfl := List.getLast?_eq_none_iff.mp hlast
    simp
  | some last =>
    have hmem := List.mem_of_getLast? hlast
    simp only [Option.all_some, decide_eq_true_eq]
    constructor
    · rintro ⟨-, -, hall⟩
      exact hall last hmem record List.mem_cons_self
    · intro hle
      refine ⟨h, List.pairwise_singleton _ _, ?_⟩
      intro earlier hearlier later hlater
      obtain rfl := List.mem_singleton.mp hlater
      obtain ⟨front, rfl⟩ := List.getLast?_eq_some_iff.mp hlast
      rcases Cells.mem_push hearlier with hfront | rfl
      · have := (List.pairwise_append.mp h).2.2 earlier hfront last List.mem_cons_self
        omega
      · exact hle

theorem Bus.ordered_iff {b : Bus} : b.Ordered ↔ ∀ stream, Sorted (b.records stream) := by
  constructor
  · exact fun h stream => (h stream).1
  · exact fun h stream => ⟨h stream, (h stream).timestamp stream⟩

/-- A step keeps the logs in order exactly when it pushes no earlier record. -/
theorem Bus.ordered_step {b b' : Bus} {act : Act} (h : b.Ordered) (hstep : b.step act = some b') :
    b'.Ordered ↔ b.inOrder act = true := by
  rw [ordered_iff] at h ⊢
  have hsame : b'.records = b.records → b.inOrder act = true →
      ((∀ stream, Sorted (b'.records stream)) ↔ b.inOrder act = true) := by
    intro hrecords hok
    rw [hrecords]
    exact iff_of_true h hok
  cases step_moves hstep with
  | @push k order stream record hk _ _ =>
    simp only [inOrder, hk]
    rw [← sorted_push (h stream)]
    constructor
    · intro hall
      have := hall stream
      rwa [Function.update_self] at this
    · intro hpush other
      by_cases hother : other = stream
      · subst hother
        rwa [Function.update_self]
      · rw [Function.update_of_ne hother]
        exact h other
  | clear _ _ => exact iff_of_true (fun _ => List.Pairwise.nil) rfl
  | _ => exact hsame rfl rfl

/-- Along a run from empty logs the stamps are in order in every state, and every timestamp
resolves to the first record from then on, exactly when every append pushes a record that did not
arrive before the last one of its log. -/
theorem stamps_ordered_iff {start b : Bus} (hempty : ∀ stream, start.records stream = [])
    {acts : List Act} (hrun : exec Bus.step start acts = some b) :
    (∀ n m, exec Bus.step start (acts.take n) = some m → m.Ordered) ↔
      check Bus.step Bus.inOrder start acts = some b := by
  apply check_iff_states (fun s a t hs hstep => Bus.ordered_step hs hstep) ?_ hrun
  rw [Bus.ordered_iff]
  intro stream
  rw [hempty]
  exact List.Pairwise.nil

/-- One record pushed. -/
theorem stamps_ordered_iff_one : ∃ b, exec Bus.step {}
    [.append "s" "k" [1], .tick 1, .stamp 0, .push 0 []] = some b ∧ b.Ordered := by
  obtain ⟨b, hexec, hcheck⟩ : ∃ b,
      exec Bus.step {} [.append "s" "k" [1], .tick 1, .stamp 0, .push 0 []] = some b ∧
        check Bus.step Bus.inOrder {} [.append "s" "k" [1], .tick 1, .stamp 0, .push 0 []] =
          some b :=
    ⟨_, rfl, rfl⟩
  exact ⟨b, hexec, (stamps_ordered_iff (fun _ => rfl) hexec).mpr hcheck 4 b hexec⟩

/-- Two appends of which the second reads the clock later and pushes first. -/
def overtaking : List Act :=
  [.append "s" "k" [1], .append "s" "k" [2], .tick 1, .stamp 0, .tick 1, .stamp 1, .push 1 [],
    .fan, .push 0 []]

/-- The log they leave is not sorted, and no index is the first from the instant 2 on. -/
theorem overtaken_stamps : ∃ b, exec Bus.step {} overtaking = some b ∧
    ¬ Sorted (b.records "s") ∧ ∀ n, ¬ FirstFrom (b.records "s") 2 n := by
  obtain ⟨b, hexec, hlog⟩ : ∃ b, exec Bus.step {} overtaking = some b ∧
      b.records "s" = [⟨"k", [2], 2⟩, ⟨"k", [1], 1⟩] :=
    ⟨_, rfl, rfl⟩
  refine ⟨b, hexec, ?_, ?_⟩
  · rw [hlog, Sorted, List.pairwise_pair]
    decide
  · intro n hfirst
    rw [hlog] at hfirst
    have hpast : 1 < n := by
      by_contra hle
      have : 2 ≤ 1 := hfirst.least.1 1 _ (by omega) rfl
      omega
    have : 2 < 2 := hfirst.before 0 _ (by omega) rfl
    omega

end RuststreamKinesis.InProcess
