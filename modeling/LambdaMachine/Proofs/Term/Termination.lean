import LambdaMachine.Proofs.Term.Substitute

/-!
Substitution ends. One level of it is written down with its recursive calls left open, so that a call
can be refused and the depth of the calls can be bounded. The body of an abstraction may be handed on
with its binder renamed, but renaming keeps the number of nodes; so whoever answers the calls on
smaller terms alone answers all of them.
-/

namespace LambdaMachine.Term

/-- One level of the substitution of a term for a label. What is to be done below is asked of
`recurse`, and nothing comes of the substitution if `recurse` has no answer. -/
def substituteWith (recurse : Term → Label → Term → Option Term) (e : Term) (x : Label)
    (value : Term) : Option Term :=
  match e with
  | .var label => some (if label = x then value else .var label)
  | .lam param ann body =>
      if param = x ∨ body.freeVars.contains x = false then some (.lam param ann body)
      else if value.freeVars.contains param then
        let fresh := freshLabel param (value.freeVars ++ body.freeVars ++ [x])
        (recurse body param (.var fresh)).bind fun renamed =>
          (recurse renamed x value).map (.lam fresh ann)
      else (recurse body x value).map (.lam param ann)
  | .app func arg => (recurse func x value).bind fun f => (recurse arg x value).map (.app f)
  | .op o left right => (recurse left x value).bind fun l => (recurse right x value).map (.op o l)
  | e => some e

/-- Substitution with calls up to a depth only. -/
def substituteWithin : Nat → Term → Label → Term → Option Term
  | 0 => fun _ _ _ => none
  | depth + 1 => substituteWith (substituteWithin depth)

/-- A substitution that is asked for. -/
structure Request where
  term : Term
  label : Label
  value : Term
  deriving DecidableEq

/-- The results of all substitutions but one. -/
def refusing (refused : Request) (e : Term) (x : Label) (value : Term) : Option Term :=
  if ⟨e, x, value⟩ = refused then none else some (e.substitute x value)

/-- One substitution calls for another if nothing comes of it where the other is refused. -/
def Calls (callee caller : Request) : Prop :=
  substituteWith (refusing callee) caller.term caller.label caller.value = none

instance (callee caller : Request) : Decidable (Calls callee caller) :=
  inferInstanceAs (Decidable (substituteWith _ _ _ _ = none))

theorem substituteWith_of_smaller {recurse : Term → Label → Term → Option Term} {e : Term}
    (h : ∀ m y v, m.size < e.size → recurse m y v = some (m.substitute y v)) (x : Label)
    (value : Term) : substituteWith recurse e x value = some (e.substitute x value) := by
  cases e with
  | var label => rw [substitute_var, substituteWith]
  | idx i label => exact congrArg some (substitute_idx i label x value).symm
  | const name type => exact congrArg some (substitute_const name type x value).symm
  | num n => exact congrArg some (substitute_num n x value).symm
  | foreign text => exact congrArg some (substitute_foreign text x value).symm
  | app func arg =>
      have hfunc := h func x value (by simp only [size]; omega)
      have harg := h arg x value (by simp only [size]; omega)
      rw [substitute_app, substituteWith, hfunc, harg]
      rfl
  | op o left right =>
      have hleft := h left x value (by simp only [size]; omega)
      have hright := h right x value (by simp only [size]; omega)
      rw [substitute_op, substituteWith, hleft, hright]
      rfl
  | lam param ann body =>
      have hlt : body.size < (Term.lam param ann body).size := by simp [size]
      simp only [substitute_lam, substituteWith, List.contains_iff_mem, ← Bool.not_eq_true]
      split_ifs with hskip hcapture
      · rfl
      · -- the second call is on the result of the first one, which has the size of the body
        rw [h body param _ hlt, Option.bind_some, h _ x value, Option.map_some]
        rwa [size_substitute_of_size_eq_one body param rfl]
      · rw [h body x value hlt, Option.map_some]

theorem Calls.size_lt {callee caller : Request} (h : Calls callee caller) :
    callee.term.size < caller.term.size := by
  by_contra hle
  have hanswers : ∀ m y v, m.size < caller.term.size →
      refusing callee m y v = some (m.substitute y v) := by
    intro m y v hlt
    refine if_neg ?_
    rintro rfl
    exact hle hlt
  have hsome := substituteWith_of_smaller hanswers caller.label caller.value
  rw [h] at hsome
  cases hsome

theorem wellFounded_calls : WellFounded Calls :=
  Subrelation.wf Calls.size_lt (measure fun request : Request => request.term.size).wf

theorem substituteWithin_of_size_le {depth : Nat} {e : Term} (h : e.size ≤ depth) (x : Label)
    (value : Term) : substituteWithin depth e x value = some (e.substitute x value) := by
  induction depth generalizing e x value with
  | zero => cases e <;> simp [size] at h
  | succ depth ih => exact substituteWith_of_smaller (fun m y v hlt => ih (by omega) y v) x value

/-- Substitution ends, although an abstraction may hand on its body renamed. Substituting a variable
keeps the number of nodes, so that every call is on a term with fewer nodes, and calls as deep as
the term has nodes are enough. The result has the free variables of the term but the substituted one,
and those of the value if the substituted one was free. -/
theorem substitution_terminates {e value : Term} (he : e.BindersNamed) (hv : value.BindersNamed)
    (x : String) :
    (∀ (m : Term) (y : Label) (name : String),
      (m.substitute y (.var (some name))).size = m.size) ∧
    (∀ callee caller, Calls callee caller → callee.term.size < caller.term.size) ∧
    WellFounded Calls ∧
    ∃ result, e.checkedSubstitute (some x) value = .ok result ∧
      (∀ depth, e.size ≤ depth → substituteWithin depth e (some x) value = some result) ∧
      ∀ y, y ∈ result.freeVars ↔
        (y ∈ e.freeVars ∧ y ≠ some x) ∨ (some x ∈ e.freeVars ∧ y ∈ value.freeVars) := by
  refine ⟨fun m y name => size_substitute_of_size_eq_one m y rfl, fun _ _ h => h.size_lt,
    wellFounded_calls, e.substitute (some x) value, he.checkedSubstitute_eq hv _, ?_, ?_⟩
  · intro depth hdepth
    exact substituteWithin_of_size_le hdepth _ value
  · intro y
    exact mem_freeVars_substitute

/-- The binder is renamed, and the substitution calls for one in the renamed body. -/
theorem substitution_terminates_renamed :
    let body : Term := .app (.var (some "x")) (.var (some "y"))
    let e : Term := .lam (some "y") none body
    let renamed := body.substitute (some "y") (.var (some "y₀"))
    Calls ⟨renamed, some "x", .var (some "y")⟩ ⟨e, some "x", .var (some "y")⟩ ∧
      renamed.size < e.size ∧
      ∃ result, e.checkedSubstitute (some "x") (.var (some "y")) = .ok result ∧
        some "y" ∈ result.freeVars := by
  intro body e renamed
  have hcalls : Calls ⟨renamed, some "x", .var (some "y")⟩ ⟨e, some "x", .var (some "y")⟩ := by
    decide +kernel
  obtain ⟨-, hsize, -, result, hresult, -, hfree⟩ :=
    @substitution_terminates e (.var (some "y")) ⟨rfl, trivial, trivial⟩ trivial "x"
  refine ⟨hcalls, hsize _ _ hcalls, result, hresult, (hfree _).mpr (.inr ⟨?_, ?_⟩)⟩
  · decide
  · decide

end LambdaMachine.Term
