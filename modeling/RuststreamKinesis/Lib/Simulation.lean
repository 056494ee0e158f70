import RuststreamKinesis.Lib.Runs

/-!
# Machines that simulate each other

`label s a` is what the step `a` from `s` shows of itself: a list of actions of another machine,
empty where the step is not to be seen. `labels` reads a whole run this way. A run of a machine
whose every step is matched by its labels is, read by its labels, a run of the other machine.
-/

namespace Runs

set_option autoImplicit false

universe u v w x y
variable {σ : Type u} {α : Type v} {τ : Type w} {β : Type x}

/-- What a run shows, step by step. -/
def labels (step : σ → α → Option σ) (label : σ → α → List β) : σ → List α → List β
  | _, [] => []
  | s, a :: as => label s a ++ (step s a).elim [] fun t => labels step label t as

section Rules
variable {step : σ → α → Option σ} {step' : τ → β → Option τ} {label : σ → α → List β}
variable {R : σ → τ → Prop} {I : σ → Prop} {s s' : σ} {t : τ} {a : α} {as bs : List α}

theorem labels_cons (h : step s a = some s') :
    labels step label s (a :: as) = label s a ++ labels step label s' as := by
  simp only [labels, h, Option.elim_some]

theorem labels_append (h : exec step s as = some s') :
    labels step label s (as ++ bs) = labels step label s as ++ labels step label s' bs := by
  induction as generalizing s with
  | nil =>
    obtain rfl : s = s' := Option.some.inj h
    rfl
  | cons a as ih =>
    obtain ⟨m, hm, hrest⟩ := Option.bind_eq_some_iff.mp h
    rw [List.cons_append, labels_cons hm, labels_cons hm, ih hrest, List.append_assoc]

/-- What is read off what a run shows is what is read off each step of it. -/
theorem labels_filterMap {γ : Type y} (f : β → Option γ) (h : exec step s as = some s') :
    (labels step label s as).filterMap f =
      labels step (fun s a => (label s a).filterMap f) s as := by
  induction as generalizing s with
  | nil => rfl
  | cons a as ih =>
    obtain ⟨m, hm, hrest⟩ := Option.bind_eq_some_iff.mp h
    rw [labels_cons hm, labels_cons hm, List.filterMap_append, ih hrest]

/-- A run is followed by the other machine along its labels. -/
theorem exec_simulates
    (sim : ∀ s a s' t, R s t → step s a = some s' →
      ∃ t', exec step' t (label s a) = some t' ∧ R s' t')
    (h : exec step s as = some s') (hR : R s t) :
    ∃ t', exec step' t (labels step label s as) = some t' ∧ R s' t' := by
  induction as generalizing s t with
  | nil =>
    obtain rfl : s = s' := Option.some.inj h
    exact ⟨t, rfl, hR⟩
  | cons a as ih =>
    obtain ⟨m, hm, hrest⟩ := Option.bind_eq_some_iff.mp h
    obtain ⟨t₁, ht₁, hR₁⟩ := sim s a m t hR hm
    obtain ⟨t₂, ht₂, hR₂⟩ := ih hrest hR₁
    refine ⟨t₂, ?_, hR₂⟩
    rw [labels_cons hm, exec_append ht₁, ht₂]

/-- Where each step takes out at the front what it does not keep and puts in at the back, so does a
run. The law may hold only as long as the states stay in `I`. -/
theorem exec_conserves {obs : σ → List β} {inn out : σ → α → List β}
    (back : ∀ s a s', step s a = some s' → I s' → I s)
    (one : ∀ s a s', step s a = some s' → I s' → obs s ++ inn s a = out s a ++ obs s')
    (h : exec step s as = some s') (hI : I s') :
    I s ∧ obs s ++ labels step inn s as = labels step out s as ++ obs s' := by
  induction as generalizing s with
  | nil =>
    obtain rfl : s = s' := Option.some.inj h
    exact ⟨hI, List.append_nil _⟩
  | cons a as ih =>
    obtain ⟨m, hm, hrest⟩ := Option.bind_eq_some_iff.mp h
    obtain ⟨hIm, hlater⟩ := ih hrest
    refine ⟨back s a m hm hIm, ?_⟩
    rw [labels_cons hm, labels_cons hm, ← List.append_assoc, one s a m hm hIm, List.append_assoc,
      hlater, List.append_assoc]

/-- The same where the order is left open. -/
theorem exec_conserves_perm {obs : σ → List β} {inn out : σ → α → List β}
    (back : ∀ s a s', step s a = some s' → I s' → I s)
    (one : ∀ s a s', step s a = some s' → I s' → (obs s ++ inn s a).Perm (out s a ++ obs s'))
    (h : exec step s as = some s') (hI : I s') :
    I s ∧ (obs s ++ labels step inn s as).Perm (labels step out s as ++ obs s') := by
  induction as generalizing s with
  | nil =>
    obtain rfl : s = s' := Option.some.inj h
    exact ⟨hI, .of_eq (List.append_nil _)⟩
  | cons a as ih =>
    obtain ⟨m, hm, hrest⟩ := Option.bind_eq_some_iff.mp h
    obtain ⟨hIm, hlater⟩ := ih hrest
    refine ⟨back s a m hm hIm, ?_⟩
    rw [labels_cons hm, labels_cons hm, ← List.append_assoc]
    refine ((one s a m hm hIm).append_right _).trans ?_
    rw [List.append_assoc, List.append_assoc]
    exact hlater.append_left _

/-- What holds at the start, of the state and of nothing shown yet, and is kept by every admitted
step together with what it shows, holds at the end of the state and of all that was shown. -/
theorem check_labels {ok : σ → α → Bool} {J : σ → List β → Prop} {out : List β}
    (keep : ∀ s out a t, J s out → ok s a = true → step s a = some t → J t (out ++ label s a))
    (h : check step ok s as = some s') (hJ : J s out) : J s' (out ++ labels step label s as) := by
  induction as generalizing s out with
  | nil =>
    obtain rfl : s = s' := Option.some.inj h
    rw [labels, List.append_nil]
    exact hJ
  | cons a as ih =>
    simp only [check] at h
    split at h
    · rename_i hok
      obtain ⟨m, hm, hrest⟩ := Option.bind_eq_some_iff.mp h
      rw [labels_cons hm, ← List.append_assoc]
      exact ih hrest (keep s out a m hJ hok hm)
    · cases h

/-- A run is one along some list of admitted actions. -/
theorem Run.exists_exec {ok : α → Prop} (h : Run step (fun _ a => ok a) s s') :
    ∃ as, (∀ a ∈ as, ok a) ∧ exec step s as = some s' := by
  induction h with
  | refl => exact ⟨[], by simp, rfl⟩
  | @tail t u a _ hok hstep ih =>
    obtain ⟨as, hall, has⟩ := ih
    refine ⟨as ++ [a], ?_, ?_⟩
    · intro b hb
      rcases List.mem_append.mp hb with hb | hb
      · exact hall b hb
      · obtain rfl := List.mem_singleton.mp hb
        exact hok
    · rw [exec_append has]
      simp only [exec, hstep, Option.bind_some]

theorem check_of_exec {ok : σ → α → Bool} (hok : ∀ s a, ok s a = true)
    (h : exec step s as = some s') : check step ok s as = some s' := by
  induction as generalizing s with
  | nil => exact h
  | cons a as ih =>
    obtain ⟨m, hm, hrest⟩ := Option.bind_eq_some_iff.mp h
    simp only [check, hok s a, hm, if_true, Option.bind_some]
    exact ih hrest

/-- The same where every step is admitted. -/
theorem exec_labels {J : σ → List β → Prop} {out : List β}
    (keep : ∀ s out a t, J s out → step s a = some t → J t (out ++ label s a))
    (h : exec step s as = some s') (hJ : J s out) : J s' (out ++ labels step label s as) := by
  have hcheck : check step (fun _ _ => true) s as = some s' := check_of_exec (fun _ _ => rfl) h
  exact check_labels (fun s out a t hJ _ hs => keep s out a t hJ hs) hcheck hJ

end Rules

end Runs
