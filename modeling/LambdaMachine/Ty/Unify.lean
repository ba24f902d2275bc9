import LambdaMachine.Ty.Substitution

namespace LambdaMachine.Ty

/-- Why two types cannot be made equal. -/
inductive UnifyError where
  /-- Two distinct constants. -/
  | constants (left right : String)
  /-- An arrow against a constant. -/
  | kinds (left right : Ty)
  /-- A variable that occurs in the type it should be bound to. -/
  | occurs (id : Int) (t : Ty)
  /-- One side is no type at all. -/
  | notTypes (left right : Ty)
  /-- The bindings run in a circle. -/
  | circular
  deriving DecidableEq

/-- A computation that adds bindings, and keeps those it made if it fails. -/
abbrev UnifyM := EStateM UnifyError Substitution

/-- Binds a variable, unless it occurs in the type. -/
def bind (id : Int) (t : Ty) : UnifyM Unit := do
  let s ← get
  if s.occurs id t then throw (.occurs id (s.apply t))
  set (s.insert id t)

/-- Unifies two types whose resolved forms are at most `depth` arrows deep. -/
def unifyWithin : (depth : Nat) → Ty → Ty → UnifyM Unit
  | 0, _, _ => throw .circular
  | depth + 1, left, right => do
      let s ← get
      match s.resolve left, s.resolve right with
      | .var i, .var j => if i = j then pure () else bind i (.var j)
      | .var i, t => bind i t
      | t, .var j => bind j t
      | .arrow a b, .arrow c d => do
          unifyWithin depth a c
          unifyWithin depth b d
      | .const a, .const b => if a = b then pure () else throw (.constants a b)
      | l, r =>
          if l.isConstructed && r.isConstructed then throw (.kinds (s.apply l) (s.apply r))
          else throw (.notTypes l r)

/-- A bound on the depth to which two types and the bindings made while unifying them can unfold:
every binding is a part of one of the given types, no more bindings can be made than these have
nodes, and a path passes each binding at most once. -/
def depthBound (s : Substitution) (left right : Ty) : Nat :=
  let nodes := s.bindings.foldr (fun b n => b.2.size + n) 0 + s.size + left.size + right.size
  (nodes + 1) * (nodes + 1)

/-- Extends the bindings so that two types become equal. -/
def unify (left right : Ty) : UnifyM Unit := do
  unifyWithin (depthBound (← get) left right) left right

end LambdaMachine.Ty
