import LambdaMachine.Term.Substitute

namespace LambdaMachine.Reduction

/-- The rule by which a redex is contracted. -/
inductive Rule where
  | beta
  | delta
  deriving DecidableEq

def Rule.symbol : Rule → String
  | .beta => "β"
  | .delta => "δ"

/-- Contracts the leftmost outermost redex, if there is one. -/
def step : Term → Option (Rule × Term)
  | .lam param ann body => (step body).map fun (rule, e) => (rule, .lam param ann e)
  | .app (.lam param _ body) arg => some (.beta, body.substitute param arg)
  | .app func arg =>
      match step func with
      | some (rule, e) => some (rule, .app e arg)
      | none => (step arg).map fun (rule, e) => (rule, .app func e)
  | .op o (.num m) (.num n) => some (.delta, .num (o.apply m n))
  | .op o left right =>
      match step left with
      | some (rule, e) => some (rule, .op o e right)
      | none => (step right).map fun (rule, e) => (rule, .op o left e)
  | _ => none

/-- Contracts the leftmost outermost redex, unless a flaw is met in the search for it or in its
contraction. -/
def checkedStep : Term → Except Term.Flaw (Option (Rule × Term))
  | .lam param ann body => do
      return (← checkedStep body).map fun (rule, e) => (rule, .lam param ann e)
  | .app (.lam param _ body) arg => do
      return some (.beta, ← body.checkedSubstitute param arg)
  | .app func arg => do
      match ← checkedStep func with
      | some (rule, e) => return some (rule, .app e arg)
      | none => return (← checkedStep arg).map fun (rule, e) => (rule, .app func e)
  | .op o (.num m) (.num n) => return some (.delta, .num (o.apply m n))
  | .op o left right => do
      match ← checkedStep left with
      | some (rule, e) => return some (rule, .op o e right)
      | none => return (← checkedStep right).map fun (rule, e) => (rule, .op o left e)
  | .foreign text => throw (.foreign text)
  | _ => return none

theorem checkedStep_of_named {e : Term} (h : e.Named) : checkedStep e = .ok (step e) := by
  fun_induction step e with
  | case1 param ann body ih =>
      cases h with
      | lam name ann hbody =>
          rw [checkedStep, ih hbody]
          rfl
  | case2 param ann body arg =>
      cases h with
      | app hf ha =>
          cases hf with
          | lam name ann hbody =>
              rw [checkedStep, hbody.bindersNamed.checkedSubstitute_eq ha.bindersNamed]
              rfl
  | case3 func arg hfunc rule e hstep ih =>
      cases h with
      | app hf ha => rw [checkedStep, ih hf, hstep]; rfl; exact hfunc
  | case4 func arg hfunc hstep ihf iha =>
      cases h with
      | app hf ha => rw [checkedStep, ihf hf, hstep]; simp only [iha ha]; rfl; exact hfunc
  | case5 => simp [checkedStep, pure, Except.pure]
  | case6 o left right hnum rule e hstep ih =>
      cases h with
      | op o hl hr => rw [checkedStep, ih hl, hstep]; rfl; exact hnum
  | case7 o left right hnum hstep ihl ihr =>
      cases h with
      | op o hl hr => rw [checkedStep, ihl hl, hstep]; simp only [ihr hr]; rfl; exact hnum
  | case8 e =>
      cases h with
      | var | const | num => rfl
      | _ => simp_all

/-- The terms that at most `n` contractions lead through, each with its rule. -/
def reducts : Nat → Term → List (Rule × Term)
  | 0, _ => []
  | n + 1, e =>
      match step e with
      | some (rule, e') => (rule, e') :: reducts n e'
      | none => []

end LambdaMachine.Reduction
