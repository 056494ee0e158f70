import Mathlib.Data.List.Nodup
import Mathlib.Data.List.Perm.Basic

/-!
# Lists of named fields
-/

namespace Fields

set_option autoImplicit false

universe u v
variable {α : Type u} {β : Type v} [DecidableEq α]
variable {fields : List (α × β)} {names : List α} {name : α} {value : β}

theorem lookup_eq_some_iff_mem (h : (fields.map Prod.fst).Nodup) :
    fields.lookup name = some value ↔ (name, value) ∈ fields := by
  induction fields with
  | nil => simp
  | cons field fields ih =>
    obtain ⟨first, held⟩ := field
    obtain ⟨hnew, hrest⟩ := List.nodup_cons.mp h
    by_cases hname : name = first
    · subst hname
      have hother : (name, value) ∉ fields := fun hmem => hnew (List.mem_map.mpr ⟨_, hmem, rfl⟩)
      simp [hother, eq_comm]
    · have hne : (name == first) = false := beq_eq_false_iff_ne.mpr hname
      simp [List.lookup_cons, hne, hname, ih hrest]

/-- Fields of distinct names are, in some order, those found under each name. -/
theorem perm_filterMap (h : (fields.map Prod.fst).Nodup) (hnames : names.Nodup)
    (hsub : ∀ name ∈ fields.map Prod.fst, name ∈ names) :
    fields.Perm
      (names.filterMap fun name => (fields.lookup name).map fun value => (name, value)) := by
  have hnodup : (names.filterMap fun name =>
      (fields.lookup name).map fun value => (name, value)).Nodup := by
    apply hnames.filterMap
    intro name other field hfield hother
    obtain ⟨_, _, rfl⟩ := Option.map_eq_some_iff.mp hfield
    obtain ⟨_, _, heq⟩ := Option.map_eq_some_iff.mp hother
    exact (Prod.mk.inj heq).1.symm
  apply (List.perm_ext_iff_of_nodup h.of_map hnodup).mpr
  rintro ⟨name, value⟩
  rw [← lookup_eq_some_iff_mem h, List.mem_filterMap]
  constructor
  · intro hlookup
    have hmem := (lookup_eq_some_iff_mem h).mp hlookup
    exact ⟨name, hsub name (List.mem_map_of_mem hmem), by rw [hlookup]; rfl⟩
  · rintro ⟨other, _, hother⟩
    obtain ⟨held, hlookup, heq⟩ := Option.map_eq_some_iff.mp hother
    obtain ⟨rfl, rfl⟩ := Prod.mk.inj heq
    exact hlookup

theorem lookup_of_perm {other : List (α × β)} (hperm : fields.Perm other)
    (h : (other.map Prod.fst).Nodup) : fields.lookup name = other.lookup name := by
  have hfields : (fields.map Prod.fst).Nodup := (hperm.map Prod.fst).nodup_iff.mpr h
  apply Option.ext
  intro value
  rw [lookup_eq_some_iff_mem hfields, lookup_eq_some_iff_mem h, hperm.mem_iff]

omit [DecidableEq α] in
theorem map_fst_zip_sublist (names : List α) (values : List β) :
    ((names.zip values).map Prod.fst).Sublist names := by
  induction names generalizing values with
  | nil => simp
  | cons name names ih =>
    cases values with
    | nil => simp
    | cons value values => exact (ih values).cons_cons name

omit [DecidableEq α] in
theorem mapM_eq_some_iff {γ : Type v} {f : β → Option γ} {values : List β} {read : List γ} :
    values.mapM f = some read ↔ values.map f = read.map some := by
  induction values generalizing read with
  | nil => cases read <;> simp
  | cons value values ih =>
    rw [List.mapM_cons, List.map_cons]
    cases hvalue : f value with
    | none => cases read <;> simp
    | some first =>
      simp only [Option.bind_eq_bind, Option.bind_some, Option.pure_def]
      rw [Option.bind_eq_some_iff]
      cases read with
      | nil => simp
      | cons other read => simp [← ih, and_comm]

end Fields
