import LambdaMachine.Proofs.Report.Causes
import LambdaMachine.Proofs.Session.Soundness
import LambdaMachine.Proofs.Session.Statement

namespace LambdaMachine

namespace Report

/-- Reports on the same problem, whatever types they name, or the same signal of another kind. -/
def Signal.SameClass : Signal → Signal → Prop
  | .problem d, .problem d' => d'.problem.withoutTypes = d.problem.withoutTypes
  | signal, signal' => signal' = signal

theorem Signal.SameClass.refl (signal : Signal) : signal.SameClass signal := by
  cases signal <;> rfl

end Report

namespace Session

open Report (Signal)
open Typing (InferError)

/-- The second signal is the first, or both report types that do not match, with type variables
moved on by `n` in the second. -/
inductive Renumbered (n : Int) : Signal → Signal → Prop where
  | same (signal : Signal) : Renumbered n signal signal
  | mismatch (error : Ty.UnifyError) (application : Option (Ty × Ty)) :
      Renumbered n (signalOf (Report.ofInferError (.mismatch error application)))
        (signalOf (Report.ofInferError ((InferError.mismatch error application).shift n)))

/-- The same outcome, with type variables moved on by `n` in the second: results that are the same
but for their equivalent types, or signals of the same class. -/
inductive Same (n : Int) : Except Signal Evaluation → Except Signal Evaluation → Prop where
  | result (result : Evaluation)
      (htype : result.type.equivalent (result.type.shift n) = true) :
      Same n (.ok result) (.ok { result with type := result.type.shift n })
  | signal {signal signal' : Signal} (h : Renumbered n signal signal')
      (hclass : signal.SameClass signal') : Same n (.error signal) (.error signal')

theorem Same.refl_error (n : Int) (signal : Signal) : Same n (.error signal) (.error signal) :=
  .signal (.same signal) (.refl signal)

theorem located_mismatch (source : String) (error : Ty.UnifyError)
    (application : Option (Ty × Ty)) :
    located source (signalOf (Report.ofInferError (.mismatch error application))) =
      signalOf (Report.ofInferError (.mismatch error application)) := by
  cases application <;> cases error <;> rfl

theorem Same.mismatch (n : Int) (source : String) (error : Ty.UnifyError)
    (application : Option (Ty × Ty)) :
    Same n (.error (located source (signalOf (Report.ofInferError (.mismatch error application)))))
      (.error (located source
        (signalOf (Report.ofInferError ((InferError.mismatch error application).shift n))))) := by
  rw [InferError.shift, located_mismatch, located_mismatch]
  have hproblem := Report.problem_ofInferError_shift (.mismatch error application) n
  refine .signal (.mismatch error application) ?_
  cases application with
  | none => exact Option.some.inj hproblem
  | some types => exact Option.some.inj hproblem

/-- What is found out about a term apart from its type. -/
def findings (settings : Settings) (source : String) (e : Term) :
    Except Signal (List Instr × Value × Option Term) := do
  let program ← programOf e
  let value ← valueOf settings.stepLimit program
  let normalForm ← comparand settings e
  crossCheck source value normalForm
  return (program, value, normalForm)

theorem verdict_eq (settings : Settings) (next : Int) (source : String) (e : Term) :
    verdict settings next source e = do
      let type ← typeOf settings.constants next e
      let found ← findings settings source e
      return ⟨source, e, type, found.1, found.2.1, found.2.2⟩ := by
  simp only [verdict, findings, bind_assoc, pure_bind]

variable {settings : Settings} (hconstants : ∀ b ∈ settings.constants, b.2.Ground)

include hconstants in
theorem equivalent_shift {source : String} {e : Term}
    (hread : Source.read settings.constants source = .ok e) {p q : Typing.Progress} {type : Ty}
    (htype : Typing.infer settings.constants e p = .ok type q) (n : Int) :
    type.equivalent (type.shift n) = true := by
  have hreadable := Source.readable_of_read hread
  have hdeclares : e.Declares Ty.Ground Ty.Ground := hreadable.declares hconstants
  have hself := Typing.hasType_of_infer_self hreadable.named hdeclares hconstants htype
  have hproper : type.Proper :=
    hself.proper hdeclares fun b hb => (hconstants b hb).over _
  exact Ty.equivalent_rename (add_left_injective n) hproper

include hconstants in
/-- A statement comes to the same wherever its type variables are counted from. -/
theorem same_outcome (source : String) (next n : Int) :
    Same n (outcome settings next source) (outcome settings (next + n) source) := by
  unfold outcome
  cases hread : Source.read settings.constants source with
  | error error => exact .refl_error n _
  | ok e =>
      have hdeclares : e.Declares Ty.Ground Ty.Ground :=
        (Source.readable_of_read hread).declares hconstants
      have hshift := Typing.infer_shift hconstants hdeclares next n
      simp only [verdict_eq, typeOf, hshift]
      cases hinfer : Typing.infer settings.constants e { next := next } with
      | ok type q =>
          have hequivalent := equivalent_shift hconstants hread hinfer n
          cases hfindings : findings settings source e with
          | ok found => exact .result ⟨source, e, type, _, _, _⟩ hequivalent
          | error signal => exact .refl_error n _
      | error error q =>
          cases error with
          | mismatch error application => exact .mismatch n source error application
          | _ => exact .refl_error n _

end Session

end LambdaMachine
