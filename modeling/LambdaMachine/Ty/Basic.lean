import LambdaMachine.Text.Quoted

/-!
Types of the simply typed calculus, with the type variables that inference introduces. A place that
should hold a type may also be empty or hold a foreign text: such a thing is carried along, has a
text and can be compared, and only unification refuses it.
-/

namespace LambdaMachine

/-- A type, or one of the two things that can stand in its place. -/
inductive Ty where
  | var (id : Int)
  | const (name : String)
  | arrow (domain codomain : Ty)
  | absent
  | foreign (text : String)
  deriving DecidableEq, Hashable, Inhabited

namespace Ty

def int : Ty := .const "Int"

def bool : Ty := .const "Bool"

/-- The text of a type. Arrows are always parenthesised. -/
def text : Ty → String
  | .var id => "?" ++ toString id
  | .const name => name
  | .arrow domain codomain => "(" ++ domain.text ++ " -> " ++ codomain.text ++ ")"
  | .absent => "None"
  | .foreign text => text

/-- The text of a type that names its constructors, for reports on things that are no types. -/
def structureText : Ty → String
  | .var id => "TypeVar(id=" ++ toString id ++ ")"
  | .const name => "TypeConst(name=" ++ Text.quoted name ++ ")"
  | .arrow domain codomain =>
      "TypeArrow(domain=" ++ domain.structureText ++ ", codomain=" ++ codomain.structureText ++ ")"
  | .absent => "None"
  | .foreign text => Text.quoted text

/-- Whether a type is a constant or an arrow. -/
def isConstructed : Ty → Bool
  | .const _ | .arrow _ _ => true
  | _ => false

/-- Replaces every variable of a type by the type that `f` gives for it. -/
def mapVars (f : Int → Ty) : Ty → Ty
  | .var id => f id
  | .arrow domain codomain => .arrow (domain.mapVars f) (codomain.mapVars f)
  | t => t

/-- Whether some variable of a type satisfies `p`. -/
def anyVar (p : Int → Bool) : Ty → Bool
  | .var id => p id
  | .arrow domain codomain => domain.anyVar p || codomain.anyVar p
  | _ => false

def size : Ty → Nat
  | .arrow domain codomain => domain.size + codomain.size + 1
  | _ => 1

end Ty

end LambdaMachine
