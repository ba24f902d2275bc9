import LambdaMachine.Proofs.Nameless.NormalOrder

namespace LambdaMachine.Reduction

open Nameless (Tree)
open Term (Numbering)

/-- One redex, anywhere in a term, is contracted. -/
inductive Contracts : Term → Term → Prop where
  | beta (param : Label) (ann : Option Ty) (body arg : Term) :
      Contracts (.app (.lam param ann body) arg) (body.substitute param arg)
  | delta (o : Op) (m n : Int) : Contracts (.op o (.num m) (.num n)) (.num (o.apply m n))
  | lam (param : Label) (ann : Option Ty) {body body' : Term} (h : Contracts body body') :
      Contracts (.lam param ann body) (.lam param ann body')
  | appFunc {func func' : Term} (arg : Term) (h : Contracts func func') :
      Contracts (.app func arg) (.app func' arg)
  | appArg (func : Term) {arg arg' : Term} (h : Contracts arg arg') :
      Contracts (.app func arg) (.app func arg')
  | opLeft (o : Op) {left left' : Term} (right : Term) (h : Contracts left left') :
      Contracts (.op o left right) (.op o left' right)
  | opRight (o : Op) (left : Term) {right right' : Term} (h : Contracts right right') :
      Contracts (.op o left right) (.op o left right')

def Irreducible (e : Term) : Prop :=
  ∀ e', ¬ Contracts e e'

theorem Contracts.named {e e' : Term} (h : Contracts e e') (he : e.Named) : e'.Named := by
  induction h with
  | beta param ann body arg =>
      rcases he with _ | _ | _ | _ | ⟨hf, ha⟩ | _
      rcases hf with _ | _ | _ | ⟨name, _, hbody⟩ | _ | _
      exact hbody.substitute ha _
  | delta o m n => exact .num _
  | lam param ann _ ih =>
      rcases he with _ | _ | _ | ⟨name, _, hbody⟩ | _ | _
      exact .lam name ann (ih hbody)
  | appFunc arg _ ih =>
      rcases he with _ | _ | _ | _ | ⟨hf, ha⟩ | _
      exact .app (ih hf) ha
  | appArg func _ ih =>
      rcases he with _ | _ | _ | _ | ⟨hf, ha⟩ | _
      exact .app hf (ih ha)
  | opLeft o right _ ih =>
      rcases he with _ | _ | _ | _ | _ | ⟨_, hl, hr⟩
      exact .op o (ih hl) hr
  | opRight o left _ ih =>
      rcases he with _ | _ | _ | _ | _ | ⟨_, hl, hr⟩
      exact .op o hl (ih hr)

theorem Contracts.tree {e e' : Term} (h : Contracts e e') (he : e.Named) (ν : Numbering) :
    Tree.Contracts (e.tree ν) (e'.tree ν) := by
  induction h generalizing ν with
  | beta param ann body arg =>
      rcases he with _ | _ | _ | _ | ⟨hf, ha⟩ | _
      rcases hf with _ | _ | _ | ⟨name, _, hbody⟩ | _ | _
      rw [hbody.tree_substitute ha]
      exact .beta ann _ _
  | delta o m n => exact .delta o m n
  | lam param ann _ ih =>
      rcases he with _ | _ | _ | ⟨name, _, hbody⟩ | _ | _
      exact .abs ann (ih hbody _)
  | appFunc arg _ ih =>
      rcases he with _ | _ | _ | _ | ⟨hf, ha⟩ | _
      exact .appFunc _ (ih hf ν)
  | appArg func _ ih =>
      rcases he with _ | _ | _ | _ | ⟨hf, ha⟩ | _
      exact .appArg _ (ih ha ν)
  | opLeft o right _ ih =>
      rcases he with _ | _ | _ | _ | _ | ⟨_, hl, hr⟩
      exact .opLeft o _ (ih hl ν)
  | opRight o left _ ih =>
      rcases he with _ | _ | _ | _ | _ | ⟨_, hl, hr⟩
      exact .opRight o _ (ih hr ν)

theorem Contracts.of_step {e e' : Term} {rule : Rule} (h : step e = some (rule, e')) :
    Contracts e e' := by
  fun_induction step e generalizing rule e' with
  | case1 param ann body ih =>
      obtain ⟨⟨rule, body'⟩, hbody, heq⟩ := Option.map_eq_some_iff.mp h
      cases heq
      exact .lam param ann (ih hbody)
  | case2 param ann body arg =>
      cases h
      exact .beta param ann body arg
  | case3 func arg hfunc rule func' hstep ih =>
      cases h
      exact .appFunc arg (ih hstep)
  | case4 func arg hfunc hstep ihf iha =>
      obtain ⟨⟨rule, arg'⟩, harg, heq⟩ := Option.map_eq_some_iff.mp h
      cases heq
      exact .appArg func (iha harg)
  | case5 o m n =>
      cases h
      exact .delta o m n
  | case6 o left right hnum rule left' hstep ih =>
      cases h
      exact .opLeft o right (ih hstep)
  | case7 o left right hnum hstep ihl ihr =>
      obtain ⟨⟨rule, right'⟩, hright, heq⟩ := Option.map_eq_some_iff.mp h
      cases heq
      exact .opRight o left (ihr hright)
  | case8 e => simp at h

theorem Irreducible.step_eq_none {e : Term} (h : Irreducible e) : step e = none := by
  by_contra hstep
  obtain ⟨⟨rule, e'⟩, he'⟩ := Option.ne_none_iff_exists'.mp hstep
  exact h e' (.of_step he')

end LambdaMachine.Reduction
