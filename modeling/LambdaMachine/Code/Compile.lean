import LambdaMachine.Code.Basic

/-!
Code of a nameless term. The code of a term pushes its value; an argument is evaluated before the
function. The code of an abstraction is entered with the argument on the stack, which it binds
first, so an index of the body counts the same binders as the environment.
-/

namespace LambdaMachine.Code

inductive CompileError where
  /-- A variable that does not refer by index. -/
  | named (label : Label)
  /-- An index that points past every binder. -/
  | outOfScope (i : Int) (depth : Nat)
  | foreign (text : String)
  deriving DecidableEq

def opInstr : Op → Instr
  | .add => .add
  | .mul => .mul

/-- The code of a term under `depth` binders. -/
def compileUnder (depth : Nat) : Term → Except CompileError (List Instr)
  | .var label => .error (.named label)
  | .idx i _ => if 0 ≤ i ∧ i < depth then .ok [.access i] else .error (.outOfScope i depth)
  | .const name type => .ok [.push (.const name type)]
  | .num n => .ok [.push (.int n)]
  | .lam _ _ body => do
      return [.cur (.grab :: (← compileUnder (depth + 1) body) ++ [.ret])]
  | .app func arg => do
      let a ← compileUnder depth arg
      let f ← compileUnder depth func
      return a ++ f ++ [.apply]
  | .op o left right => do
      let l ← compileUnder depth left
      let r ← compileUnder depth right
      return l ++ r ++ [opInstr o]
  | .foreign text => .error (.foreign text)

def compile (e : Term) : Except CompileError (List Instr) :=
  compileUnder 0 e

end LambdaMachine.Code
