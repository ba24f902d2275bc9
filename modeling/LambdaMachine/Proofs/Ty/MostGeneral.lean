import LambdaMachine.Proofs.Ty.Unify

namespace LambdaMachine.Ty

open Substitution (Acyclic Extends Solves)

namespace Substitution

variable {s : Substitution} {t : Ty}

theorem Acyclic.resolveWithin_stable {n : Nat} (hs : s.Acyclic) (hn : ∀ i ∈ t.vars, s.rank i ≤ n) :
    s.resolveWithin (n + 1) t = s.resolveWithin n t := by
  induction n generalizing t with
  | zero =>
      rcases t with i | _ | _ | _ | _
      · simp [resolveWithin, find?_eq_none_of_rank (hn i (by simp [vars]))]
      all_goals rfl
  | succ n ih =>
      rcases t with i | _ | _ | _ | _
      · rw [resolveWithin, resolveWithin]
        cases hfound : s.find? i with
        | none => rfl
        | some u => exact ih (hs.rank_le_of_mem_vars hfound (hn i (by simp [vars])))
      all_goals rfl

/-- Following bindings ends by itself: to allow for more of them than there are changes nothing. -/
def Settles (s : Substitution) : Prop :=
  ∀ n, s.size ≤ n → ∀ t,
    s.resolveWithin n t = s.resolve t ∧ s.applyWithin n t = s.apply t ∧
      ∀ i, s.occursWithin i n t = s.occurs i t

theorem Acyclic.settles (hs : s.Acyclic) : s.Settles := by
  intro n hn t
  induction n, hn using Nat.le_induction with
  | base => exact ⟨rfl, rfl, fun _ => rfl⟩
  | succ n hn ih =>
      obtain ⟨hresolve, happly, hoccurs⟩ := ih
      have hrank : ∀ i ∈ t.vars, s.rank i ≤ n := fun i _ => (s.rank_le_size i).trans hn
      have hstable := hs.applyWithin_stable hrank
      refine ⟨(hs.resolveWithin_stable hrank).trans hresolve, hstable.trans happly, fun i => ?_⟩
      rw [← hoccurs i, Bool.eq_iff_iff, occursWithin_eq, occursWithin_eq, hstable]

end Substitution

/-- The errors that report a clash between types. -/
def UnifyError.Clash : UnifyError → Prop
  | .constants _ _ | .kinds _ _ | .occurs _ _ => True
  | .notTypes _ _ | .circular => False

variable {d : Nat} {l r : Ty} {s s' : Substitution} {o : Option UnifyError}

theorem Unifies.clash {e : UnifyError} (h : Unifies d l r s o s') (hs : s.Within Proper)
    (hl : l.Proper) (hr : r.Proper) (ho : o = some e) (he : e ≠ .circular) : e.Clash := by
  induction h with
  | circular l r s =>
      cases ho
      exact absurd rfl he
  | same h => cases ho
  | bind h hoccurs => cases ho
  | occurs h hne hoccurs =>
      cases ho
      trivial
  | arrows hl' hr' ha hb iha ihb =>
      have hleft : (arrow _ _).Proper := hs.of_resolve hl hl'
      have hright : (arrow _ _).Proper := hs.of_resolve hr hr'
      exact ihb (ha.within (fun _ _ => id) hs hleft.1 hright.1) hleft.2 hright.2 ho
  | domains hl' hr' ha iha =>
      have hleft : (arrow _ _).Proper := hs.of_resolve hl hl'
      have hright : (arrow _ _).Proper := hs.of_resolve hr hr'
      exact iha hs hleft.1 hright.1 ho
  | constants hl' hr' hne =>
      cases ho
      trivial
  | kinds h =>
      cases ho
      trivial
  | notTypes h =>
      rcases h with h | h
      · exact absurd (hs.resolve hl) h
      · exact absurd (hs.resolve hr) h

theorem unifyWithin_stable (h : unifyWithin d l r s = answer o s') (ho : o ≠ some .circular) :
    unifyWithin (d + 1) l r s = answer o s' := by
  induction d generalizing l r s o s' with
  | zero =>
      obtain ⟨hcircular, -⟩ := answer_inj (o := some .circular) h
      exact absurd hcircular.symm ho
  | succ d ih =>
      rw [unifyWithin_succ] at h ⊢
      -- only two arrows lead to calls at a smaller depth
      rcases hl : s.resolve l with i | c | ⟨a, b⟩ | _ | _ <;>
        rcases hr : s.resolve r with j | c' | ⟨a', b'⟩ | _ | _ <;>
        rw [hl, hr] at h <;> try exact h
      obtain ⟨o₁, s₁, ha, -⟩ := unifies_unifyWithin d a a' s
      rcases o₁ with _ | e
      · have hb : unifyWithin d b b' s₁ = answer o s' := (seq_of_ok ha).symm.trans h
        exact (seq_of_ok (ih ha nofun)).trans (ih hb ho)
      · obtain ⟨rfl, rfl⟩ := answer_inj ((seq_of_error ha).symm.trans h)
        exact seq_of_error (ih ha ho)

theorem unifyWithin_eq_unify (hs : s.Acyclic) (hd : depthBound s l r ≤ d) :
    unifyWithin d l r s = unify l r s := by
  obtain ⟨-, o, s', hanswer, -, hcircular⟩ := unifies_unify hs l r
  induction d, hd using Nat.le_induction with
  | base => rfl
  | succ d hd ih =>
      rw [hanswer] at ih ⊢
      exact unifyWithin_stable ih hcircular

theorem clash_of_unify {e : UnifyError} (hs : s.Acyclic) (hproper : s.Within Proper) (hl : l.Proper)
    (hr : r.Proper) (h : unify l r s = .error e s') :
    e.Clash ∧ s.Extends s' ∧ s'.Acyclic := by
  obtain ⟨d, o, s'', hanswer, hunify, hcircular⟩ := unifies_unify hs l r
  obtain ⟨rfl, rfl⟩ := answer_inj (o := some e) (h.symm.trans hanswer)
  refine ⟨hunify.clash hproper hl hr rfl ?_, hunify.extends hs⟩
  rintro rfl
  exact hcircular rfl

theorem extends_of_unify (hs : s.Acyclic) (h : unify l r s = .ok () s') : s.Extends s' := by
  obtain ⟨d, o, s'', hanswer, hunify, -⟩ := unifies_unify hs l r
  obtain ⟨-, rfl⟩ := answer_inj (o := none) (h.symm.trans hanswer)
  exact (hunify.extends hs).1

theorem apply_eq_of_unify (hs : s.Acyclic) (h : unify l r s = .ok () s') :
    s'.apply l = s'.apply r := by
  obtain ⟨hacyclic, hsolves⟩ := solves_of_unify hs h
  rw [hacyclic.apply_eq_mapVars, hacyclic.apply_eq_mapVars]
  exact ((hsolves _).mp hacyclic.solves_solution).2

theorem exists_solves_of_unify (hs : s.Acyclic) (hproper : s.Within Proper) (hl : l.Proper)
    (hr : r.Proper) (h : unify l r s = .ok () s') :
    ∃ f : Int → Ty, (∀ i, (f i).Proper) ∧ Solves f s ∧ l.mapVars f = r.mapVars f := by
  obtain ⟨hacyclic, hsolves⟩ := solves_of_unify hs h
  have hproper' : s'.Within Proper := within_of_unify (fun _ _ => id) h hproper hl hr
  refine ⟨s'.solution, fun i => ?_, (hsolves _).mp hacyclic.solves_solution⟩
  exact hproper'.apply_over (t := .var i) trivial

/-- Unification of types from acyclic bindings ends by itself and computes a most general unifier.
It succeeds exactly if some assignment solves the bindings and makes the types equal. After a success
the bindings make the types equal, and every such assignment solves them; a failure is a clash. No
binding is lost and no circle is closed in either case. -/
theorem most_general_unifier (hs : s.Acyclic) (hproper : s.Within Proper) (hl : l.Proper)
    (hr : r.Proper) :
    (s.Settles ∧ ∀ d, depthBound s l r ≤ d → unifyWithin d l r s = unify l r s) ∧
    ((∃ s', unify l r s = .ok () s') ↔
      ∃ f : Int → Ty, (∀ i, (f i).Proper) ∧ Solves f s ∧ l.mapVars f = r.mapVars f) ∧
    (∀ s', unify l r s = .ok () s' →
      s.Extends s' ∧ s'.Acyclic ∧ s'.apply l = s'.apply r ∧
        ∀ f, Solves f s → l.mapVars f = r.mapVars f → Solves f s') ∧
    ∀ e s', unify l r s = .error e s' → e.Clash ∧ s.Extends s' ∧ s'.Acyclic := by
  refine ⟨⟨hs.settles, fun d hd => unifyWithin_eq_unify hs hd⟩, ⟨?_, ?_⟩, ?_, ?_⟩
  · rintro ⟨s', h⟩
    exact exists_solves_of_unify hs hproper hl hr h
  · rintro ⟨f, -, hf, heq⟩
    obtain ⟨s', h, -⟩ := unify_of_solves hs hproper hl hr hf heq
    exact ⟨s', h⟩
  · intro s' h
    obtain ⟨hacyclic, hsolves⟩ := solves_of_unify hs h
    exact ⟨extends_of_unify hs h, hacyclic, apply_eq_of_unify hs h,
      fun f hf heq => (hsolves f).mpr ⟨hf, heq⟩⟩
  · intro e s' h
    exact clash_of_unify hs hproper hl hr h

/-- A variable bound to another one that is unbound. -/
def chained : Substitution := ⟨[(0, .var 1)]⟩

theorem most_general_unifier_chained :
    chained.Acyclic ∧ chained.Within Proper ∧
      (∃ s', unify (.arrow (.var 0) (.var 2)) (.arrow (.arrow (.var 3) .int) (.var 1)) chained =
          .ok () s' ∧
        s'.apply (.var 0) = .arrow (.var 3) .int ∧ s'.apply (.var 2) = .arrow (.var 3) .int ∧
        ∀ f, Solves f chained →
          (Ty.arrow (.var 0) (.var 2)).mapVars f =
            (Ty.arrow (.arrow (.var 3) .int) (.var 1)).mapVars f → Solves f s') ∧
      (∃ s', unify (.arrow (.var 1) (.var 2)) (.arrow .int (.arrow (.var 2) (.var 0))) chained =
          .error (.occurs 2 (.arrow (.var 2) .int)) s' ∧
        s'.find? 1 = some .int ∧ chained.Extends s' ∧ s'.Acyclic) ∧
      ¬ ∃ f : Int → Ty, (∀ i, (f i).Proper) ∧ Solves f chained ∧
        (Ty.arrow (.var 1) (.var 2)).mapVars f =
          (Ty.arrow .int (.arrow (.var 2) (.var 0))).mapVars f := by
  have hacyclic : chained.Acyclic :=
    Substitution.acyclic_empty.insert (i := 0) (t := .var 1) rfl rfl
  have hproper : chained.Within Proper := by
    have hempty : ({} : Substitution).Within Proper := fun _ _ hi => by cases hi
    exact hempty.insert (i := 0) (t := .var 1) trivial trivial
  have hunified : unify (.arrow (.var 0) (.var 2)) (.arrow (.arrow (.var 3) .int) (.var 1))
      chained = .ok () ⟨[(0, .var 1), (1, .arrow (.var 3) .int), (2, .arrow (.var 3) .int)]⟩ := by
    rfl
  have hfailed : unify (.arrow (.var 1) (.var 2)) (.arrow .int (.arrow (.var 2) (.var 0)))
      chained = .error (.occurs 2 (.arrow (.var 2) .int)) ⟨[(0, .var 1), (1, .int)]⟩ := by
    rfl
  have hsuccess := most_general_unifier (l := .arrow (.var 0) (.var 2))
    (r := .arrow (.arrow (.var 3) .int) (.var 1)) hacyclic hproper ⟨trivial, trivial⟩
    ⟨⟨trivial, trivial⟩, trivial⟩
  have hclash := most_general_unifier (l := .arrow (.var 1) (.var 2))
    (r := .arrow .int (.arrow (.var 2) (.var 0))) hacyclic hproper ⟨trivial, trivial⟩
    ⟨trivial, trivial, trivial⟩
  refine ⟨hacyclic, hproper, ⟨_, hunified, rfl, rfl, (hsuccess.2.2.1 _ hunified).2.2.2⟩,
    ⟨_, hfailed, rfl, (hclash.2.2.2 _ _ hfailed).2⟩, fun hsolved => ?_⟩
  obtain ⟨s', hs'⟩ := hclash.2.1.mpr hsolved
  rw [hfailed] at hs'
  cases hs'

end LambdaMachine.Ty
