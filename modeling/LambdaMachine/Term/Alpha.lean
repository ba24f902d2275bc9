import LambdaMachine.Term.Basic

namespace LambdaMachine.Term

/-- The binders around a place in a term, each with its depth, innermost first. -/
abbrev Scope := List (Label × Nat)

/-- Whether two labels refer to binders of the same depth, or are both free and equal. -/
def sameReference (left right : Label) (leftScope rightScope : Scope) : Bool :=
  match leftScope.lookup left, rightScope.lookup right with
  | none, none => left == right
  | l, r => l == r

/-- Equality up to bound names under the given binders. Annotations must be equal. -/
def alphaEqualUnder (depth : Nat) (leftScope rightScope : Scope) : Term → Term → Bool
  | .var l, .var r => sameReference l r leftScope rightScope
  | .idx i _, .idx j _ => i == j
  | .lam p s body, .lam q t body' =>
      s == t && alphaEqualUnder (depth + 1) ((p, depth) :: leftScope) ((q, depth) :: rightScope)
        body body'
  | .app f a, .app g b =>
      alphaEqualUnder depth leftScope rightScope f g &&
        alphaEqualUnder depth leftScope rightScope a b
  | .op o l r, .op p m s =>
      o == p && alphaEqualUnder depth leftScope rightScope l m &&
        alphaEqualUnder depth leftScope rightScope r s
  | e, e' => e == e'

def alphaEqual (e e' : Term) : Bool :=
  alphaEqualUnder 0 [] [] e e'

end LambdaMachine.Term
