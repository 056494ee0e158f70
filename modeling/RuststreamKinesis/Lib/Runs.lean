/-!
# Runs of a partial step function

A machine is a function `step : σ → α → Option σ`. `Run step ok s t` is a finite run from `s`
to `t` each of whose actions satisfies `ok` in the state it is taken from; `ok` carries the
side conditions under which a run is considered.
-/

namespace Runs

set_option autoImplicit false

universe u v
variable {σ : Type u} {α : Type v}

/-- A finite run whose actions all satisfy `ok` in the state they are taken from. -/
inductive Run (step : σ → α → Option σ) (ok : σ → α → Prop) : σ → σ → Prop where
  | refl (s : σ) : Run step ok s s
  | tail {s t u : σ} {a : α} : Run step ok s t → ok t a → step t a = some u → Run step ok s u

/-- Executes a list of actions from a state. -/
def exec (step : σ → α → Option σ) : σ → List α → Option σ
  | s, [] => some s
  | s, a :: as => (step s a).bind fun t => exec step t as

/-- Executes a list of actions so long as each meets a side condition that can be computed. -/
def check (step : σ → α → Option σ) (ok : σ → α → Bool) : σ → List α → Option σ
  | s, [] => some s
  | s, a :: as => if ok s a then (step s a).bind fun t => check step ok t as else none

section Rules
variable {step : σ → α → Option σ} {ok ok' : σ → α → Prop} {s t u : σ}

theorem Run.single {a : α} (hok : ok s a) (h : step s a = some t) : Run step ok s t :=
  .tail (.refl s) hok h

theorem Run.trans (hst : Run step ok s t) (htu : Run step ok t u) : Run step ok s u := by
  induction htu with
  | refl => exact hst
  | tail _ hok h ih => exact .tail ih hok h

theorem Run.mono (himp : ∀ s a, ok s a → ok' s a) (h : Run step ok s t) : Run step ok' s t := by
  induction h with
  | refl => exact .refl _
  | tail _ hok h ih => exact .tail ih (himp _ _ hok) h

/-- What holds at the start and is kept by every admitted step holds at the end. -/
theorem Run.invariant {I : σ → Prop} (keep : ∀ s a t, I s → ok s a → step s a = some t → I t)
    (h : Run step ok s t) (hs : I s) : I t := by
  induction h with
  | refl => exact hs
  | tail _ hok h ih => exact keep _ _ _ ih hok h

/-- From a state of `I` a run reaches the goal if each state of `I` is a goal or has an admitted
step to a state of `I` that is smaller. -/
theorem Run.reaches {μ : Type u} {r : μ → μ → Prop} (wf : WellFounded r) {m : σ → μ}
    {I goal : σ → Prop} (progress : ∀ s, I s → goal s ∨
      ∃ a t, ok s a ∧ step s a = some t ∧ I t ∧ (goal t ∨ r (m t) (m s))) (hs : I s) :
    ∃ t, Run step ok s t ∧ goal t := by
  generalize hm : m s = x
  induction x using wf.induction generalizing s with
  | _ x ih =>
    rcases progress s hs with hgoal | ⟨a, t, hok, hstep, ht, hgoal | hlt⟩
    · exact ⟨s, .refl s, hgoal⟩
    · exact ⟨t, .single hok hstep, hgoal⟩
    · obtain ⟨t', hrun, hgoal⟩ := ih (m t) (hm ▸ hlt) ht rfl
      exact ⟨t', (Run.single hok hstep).trans hrun, hgoal⟩

theorem Run.of_exec {as : List α} (hok : ∀ s a, ok s a) (h : exec step s as = some t) :
    Run step ok s t := by
  induction as generalizing s with
  | nil =>
    obtain rfl : s = t := Option.some.inj h
    exact .refl s
  | cons a as ih =>
    obtain ⟨m, hm, hrest⟩ := Option.bind_eq_some_iff.mp h
    exact (Run.single (hok s a) hm).trans (ih hrest)

theorem exec_append {as bs : List α} (h : exec step s as = some t) :
    exec step s (as ++ bs) = exec step t bs := by
  induction as generalizing s with
  | nil =>
    obtain rfl : s = t := Option.some.inj h
    rfl
  | cons a as ih =>
    obtain ⟨m, hm, hrest⟩ := Option.bind_eq_some_iff.mp h
    simp only [List.cons_append, exec, hm, Option.bind_some]
    exact ih hrest

theorem exec_of_check {ok : σ → α → Bool} {as : List α} (h : check step ok s as = some t) :
    exec step s as = some t := by
  induction as generalizing s with
  | nil => exact h
  | cons a as ih =>
    simp only [check] at h
    split at h
    · obtain ⟨m, hm, hrest⟩ := Option.bind_eq_some_iff.mp h
      simp only [exec, hm, Option.bind_some]
      exact ih hrest
    · cases h

theorem Run.of_check {ok : σ → α → Bool} {as : List α} (h : check step ok s as = some t) :
    Run step (fun s a => ok s a = true) s t := by
  induction as generalizing s with
  | nil =>
    obtain rfl : s = t := Option.some.inj h
    exact .refl s
  | cons a as ih =>
    simp only [check] at h
    split at h
    · rename_i hok
      obtain ⟨m, hm, hrest⟩ := Option.bind_eq_some_iff.mp h
      have hone : Run step (fun s a => ok s a = true) s m := .single hok hm
      exact hone.trans (ih hrest)
    · cases h

theorem check_snoc {ok : σ → α → Bool} {as : List α} {a : α}
    (h : check step ok s (as ++ [a]) = some u) :
    ∃ t, check step ok s as = some t ∧ ok t a = true ∧ step t a = some u := by
  induction as generalizing s with
  | nil =>
    simp only [List.nil_append, check] at h
    split at h
    · rename_i hok
      obtain ⟨t, ht, hu⟩ := Option.bind_eq_some_iff.mp h
      obtain rfl := Option.some.inj hu
      exact ⟨s, rfl, hok, ht⟩
    · cases h
  | cons b as ih =>
    simp only [List.cons_append, check] at h ⊢
    split at h
    · rename_i hok
      obtain ⟨m, hm, hrest⟩ := Option.bind_eq_some_iff.mp h
      obtain ⟨t, ht, hta, hu⟩ := ih hrest
      refine ⟨t, ?_, hta, hu⟩
      rw [if_pos hok, hm]
      exact ht
    · cases h

theorem check_snoc_of {ok : σ → α → Bool} {as : List α} {a : α}
    (h : check step ok s as = some t) (hok : ok t a = true) (ha : step t a = some u) :
    check step ok s (as ++ [a]) = some u := by
  induction as generalizing s with
  | nil =>
    obtain rfl : s = t := Option.some.inj h
    simp [check, hok, ha]
  | cons b as ih =>
    simp only [List.cons_append, check] at h ⊢
    split at h
    · rename_i hb
      obtain ⟨m, hm, hrest⟩ := Option.bind_eq_some_iff.mp h
      rw [if_pos hb, hm]
      exact ih hrest
    · cases h

theorem check_keeps {ok : σ → α → Bool} {I : σ → Prop} {as : List α}
    (keep : ∀ s a t, a ∈ as → I s → step s a = some t → I t)
    (h : check step ok s as = some t) (hs : I s) : I t := by
  induction as generalizing s with
  | nil =>
    obtain rfl : s = t := Option.some.inj h
    exact hs
  | cons a as ih =>
    simp only [check] at h
    split at h
    · obtain ⟨m, hm, hrest⟩ := Option.bind_eq_some_iff.mp h
      exact ih (fun s b t hb => keep s b t (List.mem_cons_of_mem _ hb)) hrest
        (keep _ _ _ List.mem_cons_self hs hm)
    · cases h

/-- Along a run the steps meet `P` exactly when they are admitted, if each single one does where
the earlier ones are. -/
theorem check_iff {ok : σ → α → Bool} {I : σ → Prop} {P : σ → α → Prop} {as : List α}
    (keep : ∀ s a t, I s → ok s a = true → step s a = some t → I t)
    (same : ∀ s a t, I s → step s a = some t → (P s a ↔ ok s a = true))
    (hs : I s) (h : exec step s as = some t) :
    (∀ n m a, exec step s (as.take n) = some m → as[n]? = some a → P m a) ↔
      check step ok s as = some t := by
  induction as generalizing s with
  | nil => exact iff_of_true nofun h
  | cons a as ih =>
    obtain ⟨m, hm, hrest⟩ := Option.bind_eq_some_iff.mp h
    cases hok : ok s a with
    | false =>
      refine iff_of_false ?_ (by simp [check, hok])
      intro hall
      have hP := (same s a m hs hm).mp (hall 0 s a rfl rfl)
      cases hok.symm.trans hP
    | true =>
      have hcheck : check step ok s (a :: as) = check step ok m as := by simp [check, hok, hm]
      rw [hcheck, ← ih (keep s a m hs hok hm) hrest]
      constructor
      · intro hall n m' b hm' hb
        refine hall (n + 1) m' b ?_ (by simpa using hb)
        simp [exec, hm, hm']
      · intro hall n m' b hm' hb
        cases n with
        | zero =>
          obtain rfl : s = m' := Option.some.inj hm'
          obtain rfl : a = b := by simpa using hb
          exact (same s a m hs hm).mpr hok
        | succ n =>
          refine hall n m' b ?_ (by simpa using hb)
          simpa [exec, hm] using hm'

/-- Along a run all states satisfy `I` exactly when all steps are admitted, if each single step
keeps `I` exactly when it is. -/
theorem check_iff_states {ok : σ → α → Bool} {I : σ → Prop} {as : List α}
    (same : ∀ s a t, I s → step s a = some t → (I t ↔ ok s a = true))
    (hs : I s) (h : exec step s as = some t) :
    (∀ n m, exec step s (as.take n) = some m → I m) ↔ check step ok s as = some t := by
  induction as generalizing s with
  | nil =>
    refine iff_of_true ?_ h
    intro n m hm
    obtain rfl : s = m := by simpa [exec] using hm
    exact hs
  | cons a as ih =>
    obtain ⟨m, hm, hrest⟩ := Option.bind_eq_some_iff.mp h
    cases hok : ok s a with
    | false =>
      refine iff_of_false ?_ (by simp [check, hok])
      intro hall
      have hI : I m := hall 1 m (by simp [exec, hm])
      cases hok.symm.trans ((same s a m hs hm).mp hI)
    | true =>
      have hcheck : check step ok s (a :: as) = check step ok m as := by simp [check, hok, hm]
      rw [hcheck, ← ih ((same s a m hs hm).mpr hok) hrest]
      constructor
      · intro hall n m' hm'
        exact hall (n + 1) m' (by simpa [exec, hm] using hm')
      · intro hall n m' hm'
        cases n with
        | zero =>
          obtain rfl : s = m' := Option.some.inj hm'
          exact hs
        | succ n => exact hall n m' (by simpa [exec, hm] using hm')

theorem check_upto {ok : σ → α → Bool} {I : σ → Prop} {as : List α} {n : Nat} {m : σ}
    (keep : ∀ s a t, I s → ok s a = true → step s a = some t → I t)
    (h : check step ok s as = some t) (hs : I s) (hm : exec step s (as.take n) = some m) :
    I m := by
  induction as generalizing s n with
  | nil =>
    obtain rfl : s = m := by simpa [exec] using hm
    exact hs
  | cons a as ih =>
    cases n with
    | zero =>
      obtain rfl : s = m := Option.some.inj hm
      exact hs
    | succ n =>
      obtain ⟨m', hm', hrest⟩ := Option.bind_eq_some_iff.mp hm
      simp only [check] at h
      split at h
      · rename_i hok
        rw [hm'] at h
        exact ih h (keep s a m' hs hok hm') hrest
      · cases h

end Rules

end Runs
