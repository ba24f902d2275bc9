import LambdaMachine.Proofs.Typing.Shift
import LambdaMachine.Report.Causes

namespace LambdaMachine.Report

/-- What went wrong, without the types that are named. -/
def Problem.withoutTypes : Problem → Problem
  | .mismatch kind _ _ _ => .mismatch kind "" "" none
  | problem => problem

theorem problem_inApplication (d : Diagnostic) (func arg : String) :
    (d.inApplication func arg).problem.withoutTypes = d.problem.withoutTypes := by
  unfold Diagnostic.inApplication
  cases d.problem <;> rfl

theorem problem_ofUnifyError_rename (ρ : Int → Int) (error : Ty.UnifyError) :
    (ofUnifyError (error.rename ρ)).problem.withoutTypes =
      (ofUnifyError error).problem.withoutTypes := by
  cases error with
  | constants left right => rfl
  | circular => rfl
  | _ =>
      -- the messages differ, so the problems are compared by themselves
      simp only [Ty.UnifyError.rename, ofUnifyError, Diagnostic.kindMismatch,
        Diagnostic.infiniteType, Diagnostic.saying, Diagnostic.marked, Problem.withoutTypes]

theorem problem_ofInferError_shift (error : Typing.InferError) (n : Int) :
    (ofInferError (error.shift n)).map (·.problem.withoutTypes) =
      (ofInferError error).map (·.problem.withoutTypes) := by
  cases error with
  | mismatch error application =>
      have hrename := problem_ofUnifyError_rename (· + n) error
      cases application with
      | none => exact congrArg some hrename
      | some types =>
          simp only [Typing.InferError.shift, Option.map_some, ofInferError, problem_inApplication,
            hrename]
  | unbound name => rfl
  | anonymousVariable e => rfl
  | anonymousBinder e => rfl
  | foreign text => rfl

end LambdaMachine.Report
