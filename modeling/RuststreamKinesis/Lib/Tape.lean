import RuststreamKinesis.Lib.Runs
import Mathlib.Data.List.Basic

/-!
# A cursor in an append-only log

A tape is a log that only grows, with a cursor in it. An entry is taken where the cursor stands,
which moves it on by one; nothing else moves it but putting it somewhere. So what is taken
between two such moves is the stretch of the log between them, entry by entry.
-/

set_option autoImplicit false

universe u v

structure Tape (α : Type u) where
  log : List α := []
  cursor : Nat := 0

namespace Tape

open Runs

variable {α : Type u}

inductive Event (α : Type u) where
  | append (a : α)
  | move (n : Nat)
  | take (n : Nat) (a : α)
deriving DecidableEq, Repr

/-- The entries an event takes, each at its place. -/
def Event.taken : Event α → List (Nat × α)
  | .take n a => [(n, a)]
  | _ => []

/-- The event leaves the cursor to the entries that are taken. -/
def Event.still : Event α → Bool
  | .move _ => false
  | _ => true

/-- The event of a tape whose entries are looked at through a function. -/
def Event.map {β : Type v} (f : α → β) : Event α → Event β
  | .append a => .append (f a)
  | .move n => .move n
  | .take n a => .take n (f a)

/-- The first thing done to the cursor, if anything is, is to put it at the tip of the log, which
has `n` entries. -/
def OpensAtTip (n : Nat) : List (Event α) → Prop
  | [] => True
  | .append _ :: events => OpensAtTip (n + 1) events
  | .move m :: _ => m = n
  | .take _ _ :: _ => False

def step [DecidableEq α] (t : Tape α) : Event α → Option (Tape α)
  | .append a => some { t with log := t.log ++ [a] }
  | .move n => if n ≤ t.log.length then some { t with cursor := n } else none
  | .take n a =>
    if n = t.cursor ∧ t.log[n]? = some a then some { t with cursor := n + 1 } else none

section Rules
variable [DecidableEq α] {t t' : Tape α} {event : Event α} {events : List (Event α)}
variable {n : Nat} {a : α}

theorem step_log (h : t.step event = some t') : t.log <+: t'.log := by
  cases event with
  | append a =>
    obtain rfl := Option.some.inj h
    exact List.prefix_append _ _
  | move n =>
    simp only [step, Option.ite_none_right_eq_some, Option.some.injEq] at h
    exact h.2 ▸ List.prefix_rfl
  | take n a =>
    simp only [step, Option.ite_none_right_eq_some, Option.some.injEq] at h
    exact h.2 ▸ List.prefix_rfl

theorem exec_log (h : exec step t events = some t') : t.log <+: t'.log := by
  induction events generalizing t with
  | nil =>
    obtain rfl := Option.some.inj h
    exact List.prefix_rfl
  | cons event events ih =>
    obtain ⟨m, hm, hrest⟩ := Option.bind_eq_some_iff.mp h
    exact (step_log hm).trans (ih hrest)

theorem step_take (hn : t.cursor = n) (ha : t.log[n]? = some a) :
    t.step (.take n a) = some { t with cursor := n + 1 } :=
  if_pos ⟨hn.symm, ha⟩

theorem step_move (hn : n ≤ t.log.length) : t.step (.move n) = some { t with cursor := n } :=
  if_pos hn

/-- The cursor stays in the log, or at its end. -/
theorem exec_le (h : exec step t events = some t') (hle : t.cursor ≤ t.log.length) :
    t'.cursor ≤ t'.log.length := by
  induction events generalizing t with
  | nil =>
    obtain rfl := Option.some.inj h
    exact hle
  | cons event events ih =>
    obtain ⟨m, hm, hrest⟩ := Option.bind_eq_some_iff.mp h
    apply ih hrest
    cases event with
    | append a =>
      obtain rfl := Option.some.inj hm
      simp only [List.length_append, List.length_singleton]
      omega
    | move n =>
      simp only [step, Option.ite_none_right_eq_some, Option.some.injEq] at hm
      obtain ⟨hn, rfl⟩ := hm
      exact hn
    | take n a =>
      simp only [step, Option.ite_none_right_eq_some, Option.some.injEq] at hm
      obtain ⟨⟨-, ha⟩, rfl⟩ := hm
      exact (List.getElem?_eq_some_iff.mp ha).1

/-- Whatever is taken stands in the log at its place. -/
theorem taken_in_log (h : exec step t events = some t')
    (hmem : (n, a) ∈ events.flatMap Event.taken) : t'.log[n]? = some a := by
  induction events generalizing t with
  | nil => cases hmem
  | cons event events ih =>
    obtain ⟨m, hm, hrest⟩ := Option.bind_eq_some_iff.mp h
    rw [List.flatMap_cons, List.mem_append] at hmem
    rcases hmem with hmem | hmem
    · cases event with
      | take k b =>
        obtain ⟨rfl, rfl⟩ := Prod.mk.inj (List.mem_singleton.mp hmem)
        simp only [step, Option.ite_none_right_eq_some, Option.some.injEq] at hm
        obtain ⟨⟨-, hb⟩, rfl⟩ := hm
        obtain ⟨more, hmore⟩ := exec_log hrest
        rw [← hmore, List.getElem?_append_left (List.getElem?_eq_some_iff.mp hb).1]
        exact hb
      | append | move => cases hmem
    · exact ih hrest hmem

/-- Between two moves of the cursor what is taken is the stretch of the log it goes over. -/
theorem exec_still (h : exec step t events = some t')
    (hstill : ∀ event ∈ events, event.still = true) :
    t.cursor ≤ t'.cursor ∧
      (events.flatMap Event.taken).map Prod.fst =
        List.range' t.cursor (t'.cursor - t.cursor) := by
  induction events generalizing t with
  | nil =>
    obtain rfl := Option.some.inj h
    simp
  | cons event events ih =>
    obtain ⟨m, hm, hrest⟩ := Option.bind_eq_some_iff.mp h
    obtain ⟨hle, hrange⟩ := ih hrest fun e he => hstill e (List.mem_cons_of_mem _ he)
    cases event with
    | append a =>
      obtain rfl := Option.some.inj hm
      exact ⟨hle, hrange⟩
    | move n => cases hstill _ List.mem_cons_self
    | take n a =>
      simp only [step, Option.ite_none_right_eq_some, Option.some.injEq] at hm
      obtain ⟨⟨rfl, -⟩, rfl⟩ := hm
      have hlen : t'.cursor - t.cursor = t'.cursor - (t.cursor + 1) + 1 := by
        simp only at hle
        omega
      refine ⟨by simp only at hle; omega, ?_⟩
      rw [List.flatMap_cons, List.map_append, hrange, hlen, List.range'_succ]
      rfl

end Rules

end Tape
