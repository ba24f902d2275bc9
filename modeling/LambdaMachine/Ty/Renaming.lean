import LambdaMachine.Ty.Basic

namespace LambdaMachine.Ty

/-- A finite renaming of type variables, as pairs of a variable and its new name. -/
abbrev Renaming := List (Int × Int)

namespace Renaming

/-- The new name of a variable. -/
def target? (r : Renaming) (left : Int) : Option Int :=
  r.lookup left

/-- The variable that has the given new name. -/
def source? (r : Renaming) (right : Int) : Option Int :=
  (r.map Prod.swap).lookup right

/-- Renames `left` to `right`, if that keeps the renaming a bijection. -/
def extend? (r : Renaming) (left right : Int) : Option Renaming :=
  match r.target? left, r.source? right with
  | none, none => some ((left, right) :: r)
  | some target, some source => if target = right && source = left then some r else none
  | _, _ => none

end Renaming

/-- Extends a renaming so that it takes the first type to the second. -/
def rename? : Ty → Ty → Renaming → Option Renaming
  | .var i, .var j, r => r.extend? i j
  | .arrow a b, .arrow c d, r => (rename? a c r).bind (rename? b d)
  | .const a, .const b, r => if a = b then some r else none
  | _, _, _ => none

/-- Whether two types are equal up to a renaming of variables. -/
def equivalent (left right : Ty) : Bool :=
  (rename? left right []).isSome

end LambdaMachine.Ty
