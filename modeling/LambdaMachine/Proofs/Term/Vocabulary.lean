import LambdaMachine.Proofs.Reduction.Run

namespace LambdaMachine

/-- What may occur in a term. -/
structure Vocabulary where
  references : String → Prop
  binders : String → Prop
  annotations : Ty → Prop
  constants : String → Ty → Prop
  numbers : Int → Prop

/-- Room for what reduction makes: fresh names for binders, and results of operations. -/
structure Vocabulary.Closed (v : Vocabulary) : Prop where
  references_fresh : ∀ name used, v.binders name → v.references (Name.fresh name used)
  binders_fresh : ∀ name used, v.binders name → v.binders (Name.fresh name used)
  numbers_apply : ∀ (o : Op) m n, v.numbers m → v.numbers n → v.numbers (o.apply m n)

namespace Term

/-- The named terms that are made of a vocabulary. -/
inductive Within (v : Vocabulary) : Term → Prop where
  | var {name : String} (h : v.references name) : Within v (.var (some name))
  | const {name : String} {type : Ty} (h : v.constants name type) : Within v (.const name type)
  | num {n : Int} (h : v.numbers n) : Within v (.num n)
  | lam {name : String} {ann : Option Ty} {body : Term} (hname : v.binders name)
      (hann : ∀ a, ann = some a → v.annotations a) (hbody : Within v body) :
      Within v (.lam (some name) ann body)
  | app {func arg : Term} (hf : Within v func) (ha : Within v arg) : Within v (.app func arg)
  | op (o : Op) {left right : Term} (hl : Within v left) (hr : Within v right) :
      Within v (.op o left right)

variable {v : Vocabulary}

theorem Within.named {e : Term} (h : e.Within v) : e.Named := by
  induction h with
  | var => exact .var _
  | const => exact .const _ _
  | num => exact .num _
  | lam _ _ _ ih => exact .lam _ _ ih
  | app _ _ ihf iha => exact .app ihf iha
  | op o _ _ ihl ihr => exact .op o ihl ihr

theorem Within.substitute (hv : v.Closed) {e value : Term} (he : e.Within v)
    (hvalue : value.Within v) (x : Label) : (e.substitute x value).Within v := by
  -- on the size, since a binder that would capture is renamed in the body first
  induction hsize : e.size using Nat.strong_induction_on generalizing e x value with
  | h size ih =>
      subst hsize
      cases he with
      | var h =>
          rw [substitute_var]
          split
          · exact hvalue
          · exact .var h
      | const h =>
          rw [substitute_const]
          exact .const h
      | num h =>
          rw [substitute_num]
          exact .num h
      | @lam name ann body hname hann hbody =>
          have hlt : body.size < (Term.lam (some name) ann body).size := by simp [size]
          rw [substitute_lam]
          split
          · exact .lam hname hann hbody
          · split
            · have hfresh : (Term.var (some (Name.fresh name
                  (value.freeVars ++ body.freeVars ++ [x])))).Within v :=
                .var (hv.references_fresh name _ hname)
              have hrenamed := ih _ hlt hbody hfresh (some name) rfl
              refine .lam (hv.binders_fresh name _ hname) hann (ih _ ?_ hrenamed hvalue x rfl)
              rwa [size_substitute_of_size_eq_one _ _ rfl]
            · exact .lam hname hann (ih _ hlt hbody hvalue x rfl)
      | app hf ha =>
          rw [substitute_app]
          exact .app (ih _ (by simp only [size]; omega) hf hvalue x rfl)
            (ih _ (by simp only [size]; omega) ha hvalue x rfl)
      | op o hl hr =>
          rw [substitute_op]
          exact .op o (ih _ (by simp only [size]; omega) hl hvalue x rfl)
            (ih _ (by simp only [size]; omega) hr hvalue x rfl)

end Term

namespace Reduction

variable {v : Vocabulary} {e e' : Term}

theorem Contracts.within (h : Contracts e e') (hv : v.Closed) (he : e.Within v) :
    e'.Within v := by
  induction h with
  | beta param ann body arg =>
      rcases he with _ | _ | _ | _ | ⟨hf, ha⟩ | _
      rcases hf with _ | _ | _ | ⟨_, _, hbody⟩ | _ | _
      exact hbody.substitute hv ha _
  | delta o m n =>
      rcases he with _ | _ | _ | _ | _ | ⟨_, hl, hr⟩
      rcases hl with _ | _ | hm | _ | _ | _
      rcases hr with _ | _ | hn | _ | _ | _
      exact .num (hv.numbers_apply o m n hm hn)
  | lam param ann _ ih =>
      rcases he with _ | _ | _ | ⟨hname, hann, hbody⟩ | _ | _
      exact .lam hname hann (ih hbody)
  | appFunc arg _ ih =>
      rcases he with _ | _ | _ | _ | ⟨hf, ha⟩ | _
      exact .app (ih hf) ha
  | appArg func _ ih =>
      rcases he with _ | _ | _ | _ | ⟨hf, ha⟩ | _
      exact .app hf (ih ha)
  | opLeft o right _ ih =>
      rcases he with _ | _ | _ | _ | _ | ⟨_, hl, hr⟩
      exact .op o (ih hl) hr
  | opRight o left _ ih =>
      rcases he with _ | _ | _ | _ | _ | ⟨_, hl, hr⟩
      exact .op o hl (ih hr)

theorem Leads.within (h : Leads e e') (hv : v.Closed) (he : e.Within v) : e'.Within v := by
  induction h with
  | refl => exact he
  | tail _ hstep ih =>
      obtain ⟨rule, hstep⟩ := hstep
      exact (Contracts.of_step hstep).within hv ih

theorem Contracts.mem_freeVars (h : Contracts e e') {label : Label} (hl : label ∈ e'.freeVars) :
    label ∈ e.freeVars := by
  induction h generalizing label with
  | beta param ann body arg =>
      rcases Term.mem_freeVars_substitute.mp hl with ⟨hl, hne⟩ | ⟨-, hl⟩
      · simp [Term.freeVars, hl, hne]
      · simp [Term.freeVars, hl]
  | delta o m n => cases hl
  | lam param ann _ ih =>
      simp only [Term.freeVars, List.mem_filter] at hl ⊢
      exact hl.imp_left ih
  | appFunc arg _ ih =>
      simp only [Term.freeVars, List.mem_append] at hl ⊢
      exact hl.imp_left ih
  | appArg func _ ih =>
      simp only [Term.freeVars, List.mem_append] at hl ⊢
      exact hl.imp_right ih
  | opLeft o right _ ih =>
      simp only [Term.freeVars, List.mem_append] at hl ⊢
      exact hl.imp_left ih
  | opRight o left _ ih =>
      simp only [Term.freeVars, List.mem_append] at hl ⊢
      exact hl.imp_right ih

theorem Leads.mem_freeVars (h : Leads e e') {label : Label} (hl : label ∈ e'.freeVars) :
    label ∈ e.freeVars := by
  induction h with
  | refl => exact hl
  | tail _ hstep ih =>
      obtain ⟨rule, hstep⟩ := hstep
      exact ih ((Contracts.of_step hstep).mem_freeVars hl)

end Reduction

end LambdaMachine
