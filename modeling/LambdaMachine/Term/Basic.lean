import LambdaMachine.Ty.Basic

/-!
Terms of the calculus. One type holds terms with names, terms with indices and mixtures of the two:
a variable refers to its binder by a label or by an index, and a label may be missing. A place that
should hold a term may also hold a foreign text, which the operations on terms carry along and
which `foreign?` finds.
-/

namespace LambdaMachine

/-- The spelling of a variable or of a binder; `none` if it has none. -/
abbrev Label := Option String

inductive Op where
  | add
  | mul
  deriving DecidableEq, Hashable, Inhabited

namespace Op

def symbol : Op → String
  | .add => "+"
  | .mul => "*"

def ofSymbol? (symbol : String) : Option Op :=
  if symbol = "+" then some .add else if symbol = "*" then some .mul else none

def apply : Op → Int → Int → Int
  | .add, m, n => m + n
  | .mul, m, n => m * n

end Op

inductive Term where
  /-- A variable that refers to its binder by its spelling. -/
  | var (label : Label)
  /-- A variable that refers to its binder by the number of binders in between; the label is only
  remembered. -/
  | idx (i : Int) (label : Label)
  /-- A constant with its declared type. -/
  | const (name : String) (type : Ty)
  | num (value : Int)
  /-- An abstraction over a parameter, with the annotated type of the parameter if there is one. -/
  | lam (param : Label) (ann : Option Ty) (body : Term)
  | app (func arg : Term)
  | op (o : Op) (left right : Term)
  /-- A text in the place of a term. -/
  | foreign (text : String)
  deriving DecidableEq, Hashable, Inhabited

namespace Term

def size : Term → Nat
  | .lam _ _ body => body.size + 1
  | .app func arg => func.size + arg.size + 1
  | .op _ left right => left.size + right.size + 1
  | _ => 1

/-- The text of an annotation behind its parameter. -/
def annText : Option Ty → String
  | some type => ":" ++ type.text
  | none => ""

/-- The text of a term. Every compound term is parenthesised. -/
def text : Term → String
  | .var label => label.getD ""
  | .idx i _ => "#" ++ toString i
  | .const name _ => name
  | .num value => toString value
  | .lam param ann body =>
      "(λ" ++ param.getD "" ++ annText ann ++ ". " ++ body.text ++ ")"
  | .app func arg => "(" ++ func.text ++ " " ++ arg.text ++ ")"
  | .op o left right => "(" ++ left.text ++ " " ++ o.symbol ++ " " ++ right.text ++ ")"
  | .foreign text => text

/-- Whether a term has a variable with neither label nor index. Such a term has no text. -/
def hasBlank : Term → Bool
  | .var label => label.isNone
  | .lam _ _ body => body.hasBlank
  | .app func arg => func.hasBlank || arg.hasBlank
  | .op _ left right => left.hasBlank || right.hasBlank
  | _ => false

/-- The text of a term, if it has one. -/
def text? (e : Term) : Option String :=
  if e.hasBlank then none else some e.text

/-- The labels that occur free in a term, in the order of their occurrences. -/
def freeVars : Term → List Label
  | .var label => [label]
  | .lam param _ body => body.freeVars.filter (· ≠ param)
  | .app func arg => func.freeVars ++ arg.freeVars
  | .op _ left right => left.freeVars ++ right.freeVars
  | _ => []

/-- The first foreign text in a term, from left to right. -/
def foreign? : Term → Option String
  | .lam _ _ body => body.foreign?
  | .app func arg => func.foreign?.or arg.foreign?
  | .op _ left right => left.foreign?.or right.foreign?
  | .foreign text => some text
  | _ => none

end Term

/-- A term is named when it has no indices and no foreign parts, and every variable and every binder
has a spelling. -/
inductive Term.Named : Term → Prop where
  | var (name : String) : Named (.var (some name))
  | const (name : String) (type : Ty) : Named (.const name type)
  | num (value : Int) : Named (.num value)
  | lam (name : String) (ann : Option Ty) {body : Term} (h : Named body) :
      Named (.lam (some name) ann body)
  | app {func arg : Term} (hf : Named func) (ha : Named arg) : Named (.app func arg)
  | op (o : Op) {left right : Term} (hl : Named left) (hr : Named right) :
      Named (.op o left right)

/-- Every binder of a term has a name, and the term has no foreign parts. Its variables may be
indices. -/
def Term.BindersNamed : Term → Prop
  | .lam param _ body => param.isSome = true ∧ body.BindersNamed
  | .app func arg => func.BindersNamed ∧ arg.BindersNamed
  | .op _ left right => left.BindersNamed ∧ right.BindersNamed
  | .foreign _ => False
  | _ => True

theorem Term.Named.bindersNamed {e : Term} (h : e.Named) : e.BindersNamed := by
  induction h with
  | var | const | num => trivial
  | lam name ann hbody ih => exact ⟨rfl, ih⟩
  | app hf ha ihf iha => exact ⟨ihf, iha⟩
  | op o hl hr ihl ihr => exact ⟨ihl, ihr⟩

theorem Term.BindersNamed.foreign?_eq_none {e : Term} (h : e.BindersNamed) :
    e.foreign? = none := by
  induction e with
  | lam param ann body ih => exact ih h.2
  | app func arg ihf iha => simp [foreign?, ihf h.1, iha h.2]
  | op o left right ihl ihr => simp [foreign?, ihl h.1, ihr h.2]
  | foreign text => exact h.elim
  | _ => rfl

end LambdaMachine
