import LambdaMachine.Ty.Basic

/-!
Bindings of type variables. Bindings may chain through each other, so a type is looked at through
`resolve`, which follows them at its root, or `apply`, which follows them everywhere. A chain that
does not come back to a variable uses every binding at most once, so following as many bindings as
there are reaches its end.
-/

namespace LambdaMachine.Ty

/-- Bindings of type variables, in the order in which the variables were first bound. -/
structure Substitution where
  bindings : List (Int × Ty) := []
  deriving DecidableEq, Inhabited

namespace Substitution

def find? (s : Substitution) (id : Int) : Option Ty :=
  s.bindings.lookup id

def size (s : Substitution) : Nat :=
  s.bindings.length

def ids (s : Substitution) : List Int :=
  s.bindings.map Prod.fst

/-- Puts a binding in the place of the one its variable has, or else at the end. -/
def insertInto (id : Int) (t : Ty) : List (Int × Ty) → List (Int × Ty)
  | [] => [(id, t)]
  | (i, u) :: rest => if i = id then (id, t) :: rest else (i, u) :: insertInto id t rest

/-- Binds a variable without any check. -/
def insert (s : Substitution) (id : Int) (t : Ty) : Substitution :=
  ⟨insertInto id t s.bindings⟩

/-- Binds variables one after the other. -/
def ofList (bindings : List (Int × Ty)) : Substitution :=
  bindings.foldl (fun s b => s.insert b.1 b.2) {}

/-- Follows at most `n` bindings at the root of a type. -/
def resolveWithin (s : Substitution) : Nat → Ty → Ty
  | n + 1, .var id =>
      match s.find? id with
      | some t => s.resolveWithin n t
      | none => .var id
  | _, t => t

/-- Follows bindings at the root of a type, up to an unbound variable or a type of another form. -/
def resolve (s : Substitution) (t : Ty) : Ty :=
  s.resolveWithin s.size t

/-- Follows at most `n` bindings on every path into a type. -/
def applyWithin (s : Substitution) : Nat → Ty → Ty
  | 0, t => t
  | n + 1, t => t.mapVars fun id =>
      match s.find? id with
      | some u => s.applyWithin n u
      | none => .var id

/-- Follows bindings everywhere in a type. -/
def apply (s : Substitution) (t : Ty) : Ty :=
  s.applyWithin s.size t

/-- Whether a variable is met within `n` bindings on some path into a type. -/
def occursWithin (s : Substitution) (id : Int) : Nat → Ty → Bool
  | 0, t => t.anyVar fun j => j == id
  | n + 1, t => t.anyVar fun j =>
      match s.find? j with
      | some u => s.occursWithin id n u
      | none => j == id

/-- Whether an unbound variable occurs in a type once bindings are followed. -/
def occurs (s : Substitution) (id : Int) (t : Ty) : Bool :=
  s.occursWithin id s.size t

def text (s : Substitution) : String :=
  "Substitution(" ++
    ", ".intercalate (s.bindings.map fun b => "?" ++ toString b.1 ++ " := " ++ b.2.text) ++ ")"

end Substitution

end LambdaMachine.Ty
