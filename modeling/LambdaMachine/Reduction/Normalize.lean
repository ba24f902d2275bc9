import LambdaMachine.Reduction.Step
import Std.Data.HashSet

namespace LambdaMachine.Reduction

/-- The number of contractions that are allowed unless another limit is given. -/
def defaultLimit : Int := 10000

inductive Stop where
  | exhausted
  | flawed (flaw : Term.Flaw)
  deriving DecidableEq

/-- The end of a reduction: the last term, the number of contractions, and why it is not a normal
form, if it is not. -/
structure Run where
  term : Term
  steps : Nat
  stop : Option Stop

/-- Reduces a term after `steps` contractions, of which `budget` more are allowed. The terms that
came up so far are in `seen`. -/
def runFrom (steps : Nat) (seen : Std.HashSet Term) : (budget : Nat) → Term → Run
  | budget, e =>
      match checkedStep e with
      | .error flaw => ⟨e, steps, some (.flawed flaw)⟩
      | .ok none => ⟨e, steps, none⟩
      | .ok (some (_, e')) =>
          match budget with
          | 0 => ⟨e, steps, some .exhausted⟩
          | budget + 1 =>
              -- a term that comes up a second time would come up forever
              if seen.contains e' then ⟨e', steps + 1, some .exhausted⟩
              else runFrom (steps + 1) (seen.insert e') budget e'

/-- Reduces a term with at most `limit` contractions. -/
def run (limit : Int) (e : Term) : Run :=
  runFrom 0 {e} limit.toNat e

end LambdaMachine.Reduction
