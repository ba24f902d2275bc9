import LambdaMachine.Term.Basic
import LambdaMachine.Ty.Unify

/-!
Monomorphic type inference. A term is walked against a context; an unannotated parameter and the
result of an application get type variables that were not used before, and types are unified on the
way. The variables handed out and the bindings made survive a failure.
-/

namespace LambdaMachine.Typing

open Ty (Substitution UnifyError)

/-- The types of the names in scope, innermost first. -/
abbrev Context := List (String × Ty)

/-- What inference has used up and found out: the next unused type variable and the bindings. -/
structure Progress where
  next : Int := 0
  bindings : Substitution := {}

inductive InferError where
  /-- Two types that should be equal cannot be made so. If they met in an application, the types
  of its function and its argument are given. -/
  | mismatch (error : UnifyError) (application : Option (Ty × Ty))
  | unbound (name : String)
  /-- A variable without a spelling. -/
  | anonymousVariable (e : Term)
  /-- An abstraction over a parameter without a spelling. -/
  | anonymousBinder (e : Term)
  | foreign (text : String)

abbrev InferM := EStateM InferError Progress

/-- Hands out a type variable that was not used before. -/
def fresh : InferM Ty := do
  let p ← get
  set { p with next := p.next + 1 }
  return .var p.next

/-- Unifies two types, and gives the error if that fails. -/
def unify? (left right : Ty) : InferM (Option UnifyError) := fun p =>
  match Ty.unify left right p.bindings with
  | .ok _ bindings => .ok none { p with bindings := bindings }
  | .error e bindings => .ok (some e) { p with bindings := bindings }

/-- Unifies the type of an operand with the type of numbers. -/
def expectInt (t : Ty) : InferM Unit := do
  if let some e ← unify? t .int then throw (.mismatch e none)

/-- The operand types that the report on a failed application names. There are none if one of the
types was no type at all. -/
def operandTypes (p : Progress) (func arg : Ty) : UnifyError → Option (Ty × Ty)
  | .constants _ _ | .kinds _ _ | .occurs _ _ => some (p.bindings.apply func, p.bindings.apply arg)
  | .notTypes _ _ | .circular => none

/-- The type of a term, in which bindings are still to be followed. -/
def inferOpen (context : Context) : Term → InferM Ty
  | .const _ type => return type
  | .num _ => return .int
  | .var (some name) | .idx _ (some name) =>
      match context.lookup name with
      | some type => return type
      | none => throw (.unbound name)
  | .var none => throw (.anonymousVariable (.var none))
  | .idx i none => throw (.anonymousVariable (.idx i none))
  | .lam (some name) ann body => do
      let param ← match ann with
        | some type => pure type
        | none => fresh
      return .arrow param (← inferOpen ((name, param) :: context) body)
  | .lam none ann body => throw (.anonymousBinder (.lam none ann body))
  | .app func arg => do
      let f ← inferOpen context func
      let a ← inferOpen context arg
      let result ← fresh
      match ← unify? f (.arrow a result) with
      | none => return (← get).bindings.resolve result
      | some e => throw (.mismatch e (operandTypes (← get) f a e))
  | .op _ left right => do
      expectInt (← inferOpen context left)
      expectInt (← inferOpen context right)
      return .int
  | .foreign text => throw (.foreign text)

/-- The type of a term in a context. Inference starts without bindings, and goes on with the type
variables where the last one stopped. -/
def infer (context : Context) (e : Term) : InferM Ty := do
  modify fun p => { p with bindings := {} }
  let t ← inferOpen context e
  return (← get).bindings.apply t

/-- The type of a term, with type variables counted from zero. -/
def infer? (context : Context) (e : Term) : Except InferError Ty :=
  match infer context e {} with
  | .ok t _ => .ok t
  | .error e _ => .error e

end LambdaMachine.Typing
