import LambdaMachine.Term.Name

/-!
Capture-avoiding substitution. A binder that would capture a free variable of the substituted term
is renamed to a fresh name first. Renaming is itself a substitution of a variable, which keeps the
number of nodes of a term; this is what the recursion on the renamed body rests on.
-/

namespace LambdaMachine.Term

/-- The label that a binder is renamed to. A binder without a spelling takes a bare subscript. -/
def freshLabel (param : Label) (used : List Label) : Label :=
  some (Name.fresh (param.getD "") used)

/-- Substitution, with the fact that substituting a term of one node keeps the number of nodes. -/
def substituteSized (x : Label) (value : Term) :
    (e : Term) → { r : Term // value.size = 1 → r.size = e.size }
  | .var label => if label = x then ⟨value, fun h => h⟩ else ⟨.var label, fun _ => rfl⟩
  | .lam param ann body =>
      if param = x ∨ x ∉ body.freeVars then ⟨.lam param ann body, fun _ => rfl⟩
      else if param ∈ value.freeVars then
        let fresh := freshLabel param (value.freeVars ++ body.freeVars ++ [x])
        match substituteSized param (.var fresh) body with
        | ⟨renamed, keeps⟩ =>
            have : renamed.size = body.size := keeps rfl
            let result := substituteSized x value renamed
            ⟨.lam fresh ann result.1, fun h => by simp [size, result.2 h, this]⟩
      else
        let result := substituteSized x value body
        ⟨.lam param ann result.1, fun h => by simp [size, result.2 h]⟩
  | .app func arg =>
      let f := substituteSized x value func
      let a := substituteSized x value arg
      ⟨.app f.1 a.1, fun h => by simp [size, f.2 h, a.2 h]⟩
  | .op o left right =>
      let l := substituteSized x value left
      let r := substituteSized x value right
      ⟨.op o l.1 r.1, fun h => by simp [size, l.2 h, r.2 h]⟩
  | .idx i label => ⟨.idx i label, fun _ => rfl⟩
  | .const name type => ⟨.const name type, fun _ => rfl⟩
  | .num n => ⟨.num n, fun _ => rfl⟩
  | .foreign text => ⟨.foreign text, fun _ => rfl⟩
termination_by e => e.size
decreasing_by all_goals simp only [size]; omega

/-- Substitutes a term for the free occurrences of a label. -/
def substitute (e : Term) (x : Label) (value : Term) : Term :=
  (substituteSized x value e).1

theorem size_substitute_of_size_eq_one (e : Term) (x : Label) {value : Term}
    (h : value.size = 1) : (e.substitute x value).size = e.size :=
  (substituteSized x value e).2 h

theorem substitute_var (label x : Label) (value : Term) :
    (Term.var label).substitute x value = if label = x then value else .var label := by
  unfold substitute
  rw [substituteSized]
  split <;> rfl

theorem substitute_idx (i : Int) (label x : Label) (value : Term) :
    (Term.idx i label).substitute x value = .idx i label := by
  simp [substitute, substituteSized]

theorem substitute_const (name : String) (type : Ty) (x : Label) (value : Term) :
    (Term.const name type).substitute x value = .const name type := by
  simp [substitute, substituteSized]

theorem substitute_num (n : Int) (x : Label) (value : Term) :
    (Term.num n).substitute x value = .num n := by
  simp [substitute, substituteSized]

theorem substitute_foreign (text : String) (x : Label) (value : Term) :
    (Term.foreign text).substitute x value = .foreign text := by
  simp [substitute, substituteSized]

theorem substitute_app (func arg : Term) (x : Label) (value : Term) :
    (Term.app func arg).substitute x value =
      .app (func.substitute x value) (arg.substitute x value) := by
  simp [substitute, substituteSized]

theorem substitute_op (o : Op) (left right : Term) (x : Label) (value : Term) :
    (Term.op o left right).substitute x value =
      .op o (left.substitute x value) (right.substitute x value) := by
  simp [substitute, substituteSized]

/-- An abstraction is left alone if it shadows the label or does not have it free. Otherwise its
binder is renamed where it would capture, and the substitution goes on in the body. -/
theorem substitute_lam (param : Label) (ann : Option Ty) (body : Term) (x : Label)
    (value : Term) :
    (Term.lam param ann body).substitute x value =
      if param = x ∨ x ∉ body.freeVars then .lam param ann body
      else if param ∈ value.freeVars then
        let fresh := freshLabel param (value.freeVars ++ body.freeVars ++ [x])
        .lam fresh ann ((body.substitute param (.var fresh)).substitute x value)
      else .lam param ann (body.substitute x value) := by
  unfold substitute
  rw [substituteSized]
  split
  · rfl
  · split <;> rfl

/-- Why an operation on terms cannot be carried out. -/
inductive Flaw where
  /-- It met a text in the place of a term. -/
  | foreign (text : String)
  /-- It would have to rename a binder that has no spelling. -/
  | anonymousCapture
  deriving DecidableEq

/-- What stops the substitution of a term for a label, in the order in which its parts are
visited. The substitution itself goes around the flaw. -/
def substituteFlaw? (e : Term) (x : Label) (value : Term) : Option Flaw :=
  match e with
  | .lam param _ body =>
      if param = x then none
      else match body.foreign? with
        | some text => some (.foreign text)
        | none =>
            if x ∉ body.freeVars then none
            else match value.foreign? with
              | some text => some (.foreign text)
              | none =>
                  if param = none ∧ none ∈ value.freeVars then some .anonymousCapture
                  else body.substituteFlaw? x value
  | .app func arg => (func.substituteFlaw? x value).or (arg.substituteFlaw? x value)
  | .op _ left right => (left.substituteFlaw? x value).or (right.substituteFlaw? x value)
  | .foreign text => some (.foreign text)
  | _ => none

/-- The free labels of a term, unless it has foreign parts. -/
def checkedFreeVars (e : Term) : Except Flaw (List Label) :=
  match e.foreign? with
  | some text => .error (.foreign text)
  | none => .ok e.freeVars

/-- Substitution, unless a flaw stops it. -/
def checkedSubstitute (e : Term) (x : Label) (value : Term) : Except Flaw Term :=
  match e.substituteFlaw? x value with
  | some flaw => .error flaw
  | none => .ok (e.substitute x value)

theorem BindersNamed.checkedSubstitute_eq {e value : Term} (he : e.BindersNamed)
    (hv : value.BindersNamed) (x : Label) :
    e.checkedSubstitute x value = .ok (e.substitute x value) := by
  have hflaw : e.substituteFlaw? x value = none := by
    induction e with
    | lam param ann body ih =>
        obtain ⟨name, rfl⟩ := Option.isSome_iff_exists.mp he.1
        simp [substituteFlaw?, he.2.foreign?_eq_none, hv.foreign?_eq_none, ih he.2]
    | app func arg ihf iha => simp [substituteFlaw?, ihf he.1, iha he.2]
    | op o left right ihl ihr => simp [substituteFlaw?, ihl he.1, ihr he.2]
    | foreign text => exact he.elim
    | _ => rfl
  rw [checkedSubstitute, hflaw]

end LambdaMachine.Term
