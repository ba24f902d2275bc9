import LambdaMachine.Proofs.Ty.Circles
import Mathlib.Logic.Function.Basic

namespace LambdaMachine.Ty

namespace Substitution

variable {s : Substitution} {t u : Ty} {i : Int}

theorem Acyclic.apply_apply (hs : s.Acyclic) (t : Ty) : s.apply (s.apply t) = s.apply t := by
  calc s.apply (s.apply t) = (s.apply t).mapVars s.solution := hs.apply_eq_mapVars _
    _ = t.mapVars s.solution := hs.solves_solution.mapVars_apply t
    _ = s.apply t := (hs.apply_eq_mapVars t).symm

theorem Acyclic.apply_resolve (hs : s.Acyclic) (t : Ty) : s.apply (s.resolve t) = s.apply t := by
  calc s.apply (s.resolve t) = (s.resolve t).mapVars s.solution := hs.apply_eq_mapVars _
    _ = t.mapVars s.solution := hs.solves_solution.mapVars_resolve t
    _ = s.apply t := (hs.apply_eq_mapVars t).symm

theorem Acyclic.unbound_of_mem_vars (hs : s.Acyclic) (h : i ∈ (s.apply t).vars) :
    s.find? i = none := by
  by_contra hbound
  obtain ⟨u, hu⟩ := Option.ne_none_iff_exists'.mp hbound
  have hoccurs := occurs_iff.mpr h
  rw [hs.occurs_of_bound hu] at hoccurs
  cases hoccurs

section Answers

theorem Acyclic.resolves_iff (hs : s.Acyclic) : s.Resolves t u ↔ u = s.resolve t := by
  constructor
  · intro h
    induction h with
    | bound hi _ ih => rw [hs.resolve_of_some hi, ih]
    | free hi => rw [hs.resolve_of_none hi]
    | rigid hrigid => rw [resolve_of_ne_var hrigid]
  · rintro rfl
    exact (hs.ends t).1

theorem Acyclic.apply_of_resolves (hs : s.Acyclic) (h : s.Resolves t u) :
    s.apply t = s.apply u := by
  rw [hs.resolves_iff.mp h, hs.apply_resolve]

theorem Acyclic.occurs_of_resolves (hs : s.Acyclic) (h : s.Resolves t u) (id : Int) :
    s.occurs id t = s.occurs id u := by
  rw [Bool.eq_iff_iff, occurs_iff, occurs_iff, hs.apply_of_resolves h]

theorem Acyclic.applies_iff (hs : s.Acyclic) : s.Applies t u ↔ u = s.apply t := by
  constructor
  · intro h
    induction h with
    | arrow h _ _ iha ihb => rw [hs.apply_of_resolves h, hs.apply_arrow, iha, ihb]
    | @leaf t u h hu =>
        rw [hs.apply_of_resolves h]
        by_cases hvar : ∃ i, u = .var i
        · obtain ⟨i, rfl⟩ := hvar
          exact (hs.solution_of_none h.unbound).symm
        · have hrigid : u.vars = [] := vars_of_rigid (not_exists.mp hvar) hu
          exact (hs.apply_of_vars hrigid).symm
  · rintro rfl
    exact (hs.ends t).2.1

theorem Acyclic.searches_iff (hs : s.Acyclic) {id : Int} {found : Bool} :
    s.Searches id t found ↔ found = s.occurs id t := by
  constructor
  · intro h
    induction h with
    | var h => rw [hs.occurs_of_resolves h, hs.occurs_of_none h.unbound]
    | domain h _ iha => rw [hs.occurs_of_resolves h, hs.occurs_arrow, ← iha, Bool.true_or]
    | codomain h _ _ iha ihb =>
        rw [hs.occurs_of_resolves h, hs.occurs_arrow, ← iha, Bool.false_or, ihb]
    | rigid h hvar harrow =>
        rw [hs.occurs_of_resolves h, hs.occurs_of_vars (vars_of_rigid hvar harrow)]
  · rintro rfl
    exact (hs.ends t).2.2 id

end Answers

end Substitution

section Binding

open Substitution (Acyclic Solves)

variable {s s' : Substitution} {i : Int} {t : Ty}

theorem mapVars_update_of_notMem {u : Ty} (h : i ∉ u.vars) (t : Ty) :
    u.mapVars (Function.update .var i t) = u := by
  conv_rhs => rw [← mapVars_var u]
  apply mapVars_congr
  intro j hj
  have hne : j ≠ i := by
    rintro rfl
    exact h hj
  exact Function.update_of_ne hne _ _

theorem Substitution.Acyclic.apply_insert (hs : s.Acyclic) (hi : s.find? i = none)
    (hoccurs : s.occurs i t = false) (u : Ty) :
    (s.insert i t).apply u = (s.apply u).mapVars (Function.update .var i (s.apply t)) := by
  have hacyclic := hs.insert hi hoccurs
  have hmem : i ∉ (s.apply t).vars := by
    rw [← occurs_iff, hoccurs]
    exact Bool.false_ne_true
  -- replacing the variable in the old solution solves the new bindings
  have hsolves : Solves
      (fun j => (s.solution j).mapVars (Function.update .var i (s.apply t))) (s.insert i t) := by
    refine (solves_insert_iff hi).mpr ⟨hs.solves_solution.comp _, ?_⟩
    rw [← mapVars_mapVars, ← hs.apply_eq_mapVars, hs.solution_of_none hi,
      mapVars_update_of_notMem hmem]
    exact Function.update_self i _ _
  have hfixed : ((s.insert i t).apply u).mapVars
      (fun j => (s.solution j).mapVars (Function.update .var i (s.apply t))) =
        (s.insert i t).apply u := by
    conv_rhs => rw [← mapVars_var ((s.insert i t).apply u)]
    apply mapVars_congr
    intro j hj
    have hunbound := hacyclic.unbound_of_mem_vars hj
    have hne : j ≠ i := by
      rintro rfl
      rw [find?_insert_self] at hunbound
      cases hunbound
    rw [find?_insert_of_ne s hne] at hunbound
    rw [hs.solution_of_none hunbound]
    exact Function.update_of_ne hne _ _
  rw [← hfixed, hsolves.mapVars_apply, ← mapVars_mapVars, ← hs.apply_eq_mapVars]

theorem bind_eq_ok_iff_insert : bind i t s = .ok () s' ↔
    i ∉ (s.apply t).vars ∧ s' = s.insert i t := by
  rw [bind_eq, ← Substitution.occurs_iff]
  cases hoccurs : s.occurs i t with
  | true => simp [answer]
  | false => simp [answer, eq_comm]

end Binding

open Substitution (Acyclic)

/-- Laws of following bindings that run in no circle. Following them without a bound ends, with one
answer, which is the one that is found within the bound. No bound variable is left, following the
answer or only the root first changes nothing, and the occurs check finds exactly the variables of
the answer. An unbound variable can be bound to every type that does not lead to it; then it is
replaced in every answer by what the old bindings make of the type. -/
theorem resolution_laws {s : Substitution} (hs : s.Acyclic) (t : Ty) (i : Int) :
    ((∀ u, s.Resolves t u ↔ u = s.resolve t) ∧ (∀ u, s.Applies t u ↔ u = s.apply t) ∧
      ∀ found, s.Searches i t found ↔ found = s.occurs i t) ∧
    (∀ j ∈ (s.apply t).vars, s.find? j = none) ∧
    s.apply (s.apply t) = s.apply t ∧
    s.apply (s.resolve t) = s.apply t ∧
    (s.occurs i t = true ↔ i ∈ (s.apply t).vars) ∧
    (s.find? i = none → ∀ u,
      ((∃ s', bind i u s = .ok () s') ↔ i ∉ (s.apply u).vars) ∧
      ∀ s', bind i u s = .ok () s' →
        s'.Acyclic ∧ s'.apply t = (s.apply t).mapVars (Function.update .var i (s.apply u))) := by
  refine ⟨⟨fun u => hs.resolves_iff, fun u => hs.applies_iff, fun found => hs.searches_iff⟩,
    fun j hj => hs.unbound_of_mem_vars hj, hs.apply_apply t, hs.apply_resolve t,
    Substitution.occurs_iff, fun hi u => ⟨?_, ?_⟩⟩
  · simp [bind_eq_ok_iff_insert]
  · intro s' hbind
    obtain ⟨hmem, rfl⟩ := bind_eq_ok_iff_insert.mp hbind
    have hoccurs : s.occurs i u = false := by
      rw [← Bool.not_eq_true, Substitution.occurs_iff]
      exact hmem
    exact ⟨hs.insert hi hoccurs, hs.apply_insert hi hoccurs t⟩

/-- Bindings that chain through an arrow, and one on the side. -/
def nested : Substitution := ⟨[(0, .var 1), (1, .arrow .int (.var 2)), (4, .bool)]⟩

/-- The variable at the end of a chain is bound to a type with a bound variable in it, which is
replaced by its own binding. -/
theorem resolution_laws_nested :
    nested.Acyclic ∧ nested.find? 2 = none ∧
      nested.Applies (.arrow (.var 0) (.var 3)) (.arrow (.arrow .int (.var 2)) (.var 3)) ∧
      nested.Searches 2 (.arrow (.var 0) (.var 3)) true ∧
      ∃ s', bind 2 (.arrow (.var 3) (.var 4)) nested = .ok () s' ∧ s'.Acyclic ∧
        s'.apply (.arrow (.var 0) (.var 3)) =
          .arrow (.arrow .int (.arrow (.var 3) .bool)) (.var 3) := by
  have hacyclic : nested.Acyclic :=
    ((Substitution.acyclic_empty.insert (i := 0) (t := .var 1) rfl rfl).insert (i := 1)
      (t := .arrow .int (.var 2)) rfl rfl).insert (i := 4) (t := .bool) rfl rfl
  obtain ⟨⟨-, happlies, hsearches⟩, -, -, -, -, hbinding⟩ :=
    resolution_laws hacyclic (.arrow (.var 0) (.var 3)) 2
  obtain ⟨hbound, hafter⟩ := hbinding rfl (.arrow (.var 3) (.var 4))
  obtain ⟨s', hs'⟩ := hbound.mpr (by decide)
  obtain ⟨hacyclic', happly⟩ := hafter s' hs'
  exact ⟨hacyclic, rfl, (happlies _).mpr rfl, (hsearches _).mpr rfl, s', hs', hacyclic', happly⟩

end LambdaMachine.Ty
