import LambdaMachine.Proofs.Term.Fresh
import LambdaMachine.Term.Substitute

namespace LambdaMachine.Term

/-- A term, a label, a value, and the term with the value in the place of the label. -/
inductive Replaces : Term → Label → Term → Term → Prop where
  /-- Where the label is not free, nothing changes. -/
  | absent {e : Term} {x : Label} (value : Term) (h : x ∉ e.freeVars) : Replaces e x value e
  | var (x : Label) (value : Term) : Replaces (.var x) x value value
  | under {param : Label} (ann : Option Ty) {body result : Term} {x : Label} {value : Term}
      (hparam : param ≠ x) (hvalue : param ∉ value.freeVars)
      (hbody : Replaces body x value result) :
      Replaces (.lam param ann body) x value (.lam param ann result)
  /-- A binder that would capture a variable of the value is renamed first. -/
  | avoiding {param : Label} {fresh : String} (ann : Option Ty) {body renamed result : Term}
      {x : Label} {value : Term} (hparam : param ≠ x) (hvalue : some fresh ∉ value.freeVars)
      (hfresh : some fresh ∉ body.freeVars) (hx : some fresh ≠ x)
      (hrenamed : Replaces body param (.var (some fresh)) renamed)
      (hbody : Replaces renamed x value result) :
      Replaces (.lam param ann body) x value (.lam (some fresh) ann result)
  | app {func arg func' arg' : Term} {x : Label} {value : Term}
      (hf : Replaces func x value func') (ha : Replaces arg x value arg') :
      Replaces (.app func arg) x value (.app func' arg')
  | op (o : Op) {left right left' right' : Term} {x : Label} {value : Term}
      (hl : Replaces left x value left') (hr : Replaces right x value right') :
      Replaces (.op o left right) x value (.op o left' right')

theorem replaces_substitute (e : Term) (x : Label) (value : Term) :
    Replaces e x value (e.substitute x value) := by
  -- The renamed body is not a part of the abstraction, but has the size of its body.
  induction hsize : e.size using Nat.strong_induction_on generalizing e x value with
  | h size ih =>
      subst hsize
      cases e with
      | var label =>
          rw [substitute_var]
          split
          · rename_i heq
            exact heq ▸ .var label value
          · rename_i hne
            exact .absent value (by simpa [freeVars] using Ne.symm hne)
      | idx i label =>
          rw [substitute_idx]
          exact .absent value (by simp [freeVars])
      | const name type =>
          rw [substitute_const]
          exact .absent value (by simp [freeVars])
      | num n =>
          rw [substitute_num]
          exact .absent value (by simp [freeVars])
      | foreign text =>
          rw [substitute_foreign]
          exact .absent value (by simp [freeVars])
      | app func arg =>
          rw [substitute_app]
          exact .app (ih func.size (by simp only [size]; omega) func x value rfl)
            (ih arg.size (by simp only [size]; omega) arg x value rfl)
      | op o left right =>
          rw [substitute_op]
          exact .op o (ih left.size (by simp only [size]; omega) left x value rfl)
            (ih right.size (by simp only [size]; omega) right x value rfl)
      | lam param ann body =>
          have hlt : body.size < (Term.lam param ann body).size := by simp [size]
          rw [substitute_lam]
          split
          · rename_i hskip
            refine .absent value ?_
            rcases hskip with rfl | hx
            · simp [freeVars]
            · simp [freeVars, hx]
          · rename_i hgo
            obtain ⟨hparam, hx⟩ := not_or.mp hgo
            split
            · have hfresh := Name.fresh_notMem (param.getD "")
                (value.freeVars ++ body.freeVars ++ [x])
              simp only [List.mem_append, List.mem_singleton, not_or] at hfresh
              obtain ⟨⟨hvalue, hbody⟩, hne⟩ := hfresh
              exact .avoiding ann hparam hvalue hbody hne (ih _ hlt body param _ rfl)
                (ih _ (by rwa [size_substitute_of_size_eq_one _ _ rfl]) _ x value rfl)
            · rename_i hvalue
              exact .under ann hparam hvalue (ih _ hlt body x value rfl)

theorem Replaces.mem_freeVars_iff {e value result : Term} {x : Label}
    (h : Replaces e x value result) (y : Label) :
    y ∈ result.freeVars ↔
      (y ∈ e.freeVars ∧ y ≠ x) ∨ (x ∈ e.freeVars ∧ y ∈ value.freeVars) := by
  induction h generalizing y with
  | @absent e x value h =>
      constructor
      · intro hy
        exact .inl ⟨hy, fun heq => h (heq ▸ hy)⟩
      · rintro (⟨hy, -⟩ | ⟨hx, -⟩)
        · exact hy
        · exact absurd hx h
  | var x value => simp [freeVars]
  | under ann hparam hvalue hbody ih =>
      simp only [freeVars, List.mem_filter, decide_eq_true_eq, ih]
      grind
  | avoiding ann hparam hvalue hfresh hx hrenamed hbody ihr ihb =>
      simp only [freeVars, List.mem_filter, List.mem_singleton, decide_eq_true_eq, ihb, ihr]
      grind
  | app hf ha ihf iha =>
      simp only [freeVars, List.mem_append, ihf, iha]
      grind
  | op o hl hr ihl ihr =>
      simp only [freeVars, List.mem_append, ihl, ihr]
      grind

theorem mem_freeVars_substitute {e value : Term} {x y : Label} :
    y ∈ (e.substitute x value).freeVars ↔
      (y ∈ e.freeVars ∧ y ≠ x) ∨ (x ∈ e.freeVars ∧ y ∈ value.freeVars) :=
  (replaces_substitute e x value).mem_freeVars_iff y

theorem substitute_of_notMem {e : Term} {x : Label} (h : x ∉ e.freeVars) (value : Term) :
    e.substitute x value = e := by
  induction e with
  | var label =>
      rw [substitute_var, if_neg]
      rintro rfl
      simp [freeVars] at h
  | lam param ann body ih =>
      rw [substitute_lam, if_pos]
      by_contra hgo
      obtain ⟨hparam, hbody⟩ := not_or.mp hgo
      exact h (List.mem_filter.mpr ⟨not_not.mp hbody, by simpa using Ne.symm hparam⟩)
  | app func arg ihf iha =>
      rw [freeVars, List.mem_append, not_or] at h
      rw [substitute_app, ihf h.1, iha h.2]
  | op o left right ihl ihr =>
      rw [freeVars, List.mem_append, not_or] at h
      rw [substitute_op, ihl h.1, ihr h.2]
  | idx i label => exact substitute_idx i label x value
  | const name type => exact substitute_const name type x value
  | num n => exact substitute_num n x value
  | foreign text => exact substitute_foreign text x value

theorem Replaces.named {e value result : Term} {x : Label} (h : Replaces e x value result)
    (he : e.Named) (hv : value.Named) : result.Named := by
  induction h with
  | absent value h => exact he
  | var x value => exact hv
  | under ann hparam hvalue hbody ih =>
      cases he with
      | lam name _ hnamed => exact .lam name ann (ih hnamed hv)
  | avoiding ann hparam hvalue hfresh hx hrenamed hbody ihr ihb =>
      cases he with
      | lam name _ hnamed => exact .lam _ ann (ihb (ihr hnamed (.var _)) hv)
  | app hf ha ihf iha =>
      cases he with
      | app hfunc harg => exact .app (ihf hfunc hv) (iha harg hv)
  | op o hl hr ihl ihr =>
      cases he with
      | op _ hleft hright => exact .op o (ihl hleft hv) (ihr hright hv)

theorem Named.substitute {e value : Term} (he : e.Named) (hv : value.Named) (x : Label) :
    (e.substitute x value).Named :=
  (replaces_substitute e x value).named he hv

end LambdaMachine.Term
