import LambdaMachine.Term.Basic

namespace LambdaMachine.Nameless

/-- The depths of the binders in scope, innermost first. -/
abbrev Depths := List (Label × Int)

inductive ConvertError where
  | unbound (label : Label)
  /-- A variable that already refers by index. -/
  | indexed (i : Int)
  | foreign (text : String)
  deriving DecidableEq

/-- The nameless form of a term under `depth` binders. -/
def convertUnder (depths : Depths) (depth : Int) : Term → Except ConvertError Term
  | .var label =>
      match depths.lookup label with
      | some binder => .ok (.idx (depth - binder - 1) none)
      | none => .error (.unbound label)
  | .idx i _ => .error (.indexed i)
  | .const name type => .ok (.const name type)
  | .num n => .ok (.num n)
  | .lam param ann body => do
      return .lam none ann (← convertUnder ((param, depth) :: depths) (depth + 1) body)
  | .app func arg => do
      return .app (← convertUnder depths depth func) (← convertUnder depths depth arg)
  | .op o left right => do
      return .op o (← convertUnder depths depth left) (← convertUnder depths depth right)
  | .foreign text => .error (.foreign text)

def convert (e : Term) : Except ConvertError Term :=
  convertUnder [] 0 e

end LambdaMachine.Nameless
