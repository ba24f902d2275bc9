import LambdaMachine.Proofs.Code.Emit

namespace LambdaMachine.BigStep

/-- A value. A closure is the body of an abstraction with the environment the abstraction was met
in; the annotation is only remembered. -/
inductive Meaning where
  | int (n : Int)
  | const (name : String) (type : Ty)
  | closure (ann : Option Ty) (body : Term) (env : List Meaning)

inductive Failure where
  /-- An operand of the wrong form, with the instruction it is an operand of. -/
  | wrongOperand (i : Instr) (value : Meaning)
  /-- An index outside the environment. -/
  | outOfRange (i : Int) (size : Nat)
  /-- Something that is no part of a nameless term. -/
  | foreign (text : String)

/-- An evaluation has a result, fails, or does not finish within the calls allowed. -/
inductive Answer (α : Type) where
  | value (a : α)
  | failure (f : Failure)
  | unfinished

instance : Monad Answer where
  pure := .value
  bind x k :=
    match x with
    | .value a => k a
    | .failure f => .failure f
    | .unfinished => .unfinished

def lookup? (env : List Meaning) (i : Int) : Option Meaning :=
  if i < 0 then none else env[i.toNat]?

/-- Applies an operation to two values, of which the left one is looked at first. -/
def operate (o : Op) : Meaning → Meaning → Answer Meaning
  | .int m, .int n => .value (.int (o.apply m n))
  | .int _, right => .failure (.wrongOperand (Code.opInstr o) right)
  | left, _ => .failure (.wrongOperand (Code.opInstr o) left)

/-- Evaluates a term, with the evaluation of bodies that are called left to `call`. -/
def evaluateWith (call : List Meaning → Term → Answer Meaning) (env : List Meaning) :
    Term → Answer Meaning
  | .idx i _ =>
      match lookup? env i with
      | some value => .value value
      | none => .failure (.outOfRange i env.length)
  | .const name type => .value (.const name type)
  | .num n => .value (.int n)
  | .lam _ ann body => .value (.closure ann body env)
  | .app func arg => do
      let a ← evaluateWith call env arg
      match ← evaluateWith call env func with
      | .closure _ body captured => call (a :: captured) body
      | f => .failure (.wrongOperand .apply f)
  | .op o left right => do
      let l ← evaluateWith call env left
      let r ← evaluateWith call env right
      operate o l r
  | .var label => .failure (.foreign (label.getD ""))
  | .foreign text => .failure (.foreign text)

/-- Evaluates a term with calls nested at most `depth` deep. -/
def evaluateWithin : (depth : Nat) → List Meaning → Term → Answer Meaning
  | 0 => evaluateWith fun _ _ => .unfinished
  | depth + 1 => evaluateWith (evaluateWithin depth)

namespace Answer

@[simp] theorem value_bind (v : Meaning) (k : Meaning → Answer Meaning) :
    Answer.value v >>= k = k v := rfl

@[simp] theorem failure_bind (f : Failure) (k : Meaning → Answer Meaning) :
    Answer.failure f >>= k = .failure f := rfl

@[simp] theorem unfinished_bind (k : Meaning → Answer Meaning) :
    Answer.unfinished >>= k = .unfinished := rfl

/-- The second answer is the first one, unless the first one did not finish. -/
def Refines (x y : Answer Meaning) : Prop :=
  x = .unfinished ∨ x = y

theorem Refines.bind {x y : Answer Meaning} {k q : Meaning → Answer Meaning}
    (hx : Refines x y) (hk : ∀ v, Refines (k v) (q v)) : Refines (x >>= k) (y >>= q) := by
  rcases hx with rfl | rfl
  · exact .inl rfl
  · cases x with
    | value v => exact hk v
    | failure f => exact .inr rfl
    | unfinished => exact .inl rfl

theorem Refines.eq {x y : Answer Meaning} (h : Refines x y) (hx : x ≠ .unfinished) : y = x := by
  rcases h with hun | heq
  · exact absurd hun hx
  · exact heq.symm

end Answer

/-- The evaluator finishes on a closed term with the given answer. -/
def Evaluates (e : Term) (answer : Answer Meaning) : Prop :=
  answer ≠ .unfinished ∧ ∃ depth, evaluateWithin depth [] e = answer

theorem refines_evaluateWith {call call' : List Meaning → Term → Answer Meaning}
    (hcall : ∀ env e, (call env e).Refines (call' env e)) (env : List Meaning) (e : Term) :
    (evaluateWith call env e).Refines (evaluateWith call' env e) := by
  induction e with
  | app func arg ihf iha =>
      apply iha.bind
      intro a
      apply ihf.bind
      intro f
      cases f with
      | closure ann body captured => exact hcall (a :: captured) body
      | int n => exact .inr rfl
      | const name type => exact .inr rfl
  | op o left right ihl ihr => exact ihl.bind fun l => ihr.bind fun r => .inr rfl
  | var label => exact .inr rfl
  | idx i label => exact .inr rfl
  | const name type => exact .inr rfl
  | num n => exact .inr rfl
  | lam param ann body => exact .inr rfl
  | foreign text => exact .inr rfl

theorem refines_succ (depth : Nat) (env : List Meaning) (e : Term) :
    (evaluateWithin depth env e).Refines (evaluateWithin (depth + 1) env e) := by
  induction depth generalizing env e with
  | zero => exact refines_evaluateWith (fun _ _ => .inl rfl) env e
  | succ depth ih => exact refines_evaluateWith ih env e

theorem evaluateWithin_of_le {depth depth' : Nat} (hle : depth ≤ depth') {env : List Meaning}
    {e : Term} {answer : Answer Meaning} (h : evaluateWithin depth env e = answer)
    (hfinished : answer ≠ .unfinished) : evaluateWithin depth' env e = answer := by
  induction hle with
  | refl => exact h
  | step _ ih =>
      rw [← ih]
      exact (refines_succ _ env e).eq (ih ▸ hfinished)

theorem Evaluates.unique {e : Term} {answer answer' : Answer Meaning} (h : Evaluates e answer)
    (h' : Evaluates e answer') : answer = answer' := by
  obtain ⟨hfinished, depth, h⟩ := h
  obtain ⟨hfinished', depth', h'⟩ := h'
  rw [← evaluateWithin_of_le (Nat.le_max_left depth depth') h hfinished,
    ← evaluateWithin_of_le (Nat.le_max_right depth depth') h' hfinished']

end LambdaMachine.BigStep
