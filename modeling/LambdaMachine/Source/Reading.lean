import LambdaMachine.Source.Token

/-!
Terms and types read from tokens. Every compound term is parenthesised, so the next token always
decides how to go on. Each reader returns what is left behind what it read, which is shorter.
-/

namespace LambdaMachine.Source

inductive Part where
  | term
  | type
  deriving DecidableEq

def Part.text : Part → String
  | .term => "term"
  | .type => "type"

inductive ReadError where
  | illegal (found : Illegal)
  | empty (part : Part)
  /-- The text ended where something was expected. -/
  | endedEarly (expected : String)
  /-- A token that starts neither a term nor a type. -/
  | badStart (part : Part) (found : Token)
  | unexpected (expected : String) (found : Token)
  | notParameter (found : Token)
  | trailing (part : Part) (found : Token)
  deriving DecidableEq

/-- The constants in scope, with their declared types. -/
abbrev Constants := List (String × Ty)

/-- What is left of some tokens after at least one of them was read. -/
abbrev Rest (ts : List Token) := { rest : List Token // rest.length < ts.length }

/-- Reads a token with the given text. -/
def expect (text : String) : (ts : List Token) → Except ReadError (Rest ts)
  | [] => .error (.endedEarly ("'" ++ text ++ "'"))
  | t :: ts => if t.text = text then .ok ⟨ts, by simp⟩ else .error (.unexpected text t)

def readParameter : (ts : List Token) → Except ReadError (String × Rest ts)
  | [] => .error (.endedEarly "identifier")
  | t :: ts =>
      if t.kind = .identifier then .ok (t.text, ⟨ts, by simp⟩) else .error (.notParameter t)

/-- Whether some tokens start with one that satisfies `p`. -/
def nextIs (p : Token → Bool) : List Token → Bool
  | [] => false
  | t :: _ => p t

/-- Reads a type. Arrows associate to the right. -/
def readTypeFrom : (ts : List Token) → Except ReadError (Ty × Rest ts)
  | [] => .error (.endedEarly "type")
  | t :: ts => do
      let (domain, ⟨rest, _⟩) ← show Except ReadError (Ty × Rest (t :: ts)) from
        if t.kind = .identifier then .ok (.const t.text, ⟨ts, by simp⟩)
        else if t.text = "(" then do
          let (inner, ⟨rest, _⟩) ← readTypeFrom ts
          let ⟨rest, _⟩ ← expect ")" rest
          return (inner, ⟨rest, by simp only [List.length_cons]; omega⟩)
        else .error (.badStart .type t)
      if nextIs (·.kind == .arrow) rest then do
        let (codomain, ⟨left, _⟩) ← readTypeFrom rest.tail
        return (.arrow domain codomain, ⟨left, by simp only [List.length_tail] at *; omega⟩)
      else return (domain, ⟨rest, by assumption⟩)
termination_by ts => ts.length
decreasing_by all_goals simp only [List.length_cons, List.length_tail] at *; omega

/-- Reads the type behind a parameter, if there is one. -/
def readAnnotation (ts : List Token) :
    Except ReadError (Option Ty × { rest : List Token // rest.length ≤ ts.length }) :=
  if nextIs (·.text == ":") ts then do
    let (type, ⟨rest, _⟩) ← readTypeFrom ts.tail
    return (some type, ⟨rest, by simp only [List.length_tail] at *; omega⟩)
  else .ok (none, ⟨ts, by simp⟩)

/-- A leaf with the given name: a constant, unless a binder has the name. -/
def leaf (constants : Constants) (bound : List String) (name : String) : Term :=
  match constants.lookup name with
  | some type => if name ∈ bound then .var (some name) else .const name type
  | none => .var (some name)

def nextOp? : List Token → Option Op
  | [] => none
  | t :: _ => Op.ofSymbol? t.text

/-- Reads a term under binders of the given names. -/
def readTermFrom (constants : Constants) (bound : List String) :
    (ts : List Token) → Except ReadError (Term × Rest ts)
  | [] => .error (.endedEarly "term")
  | t :: ts => do
      if t.kind = .number then
        return (.num (Text.natOfDigits t.text.toList), ⟨ts, by simp⟩)
      else if t.kind = .identifier then
        return (leaf constants bound t.text, ⟨ts, by simp⟩)
      else if t.text ≠ "(" then
        throw (.badStart .term t)
      else if nextIs Token.isLambda ts then do
        let (name, ⟨rest, _⟩) ← readParameter ts.tail
        let (ann, ⟨rest, _⟩) ← readAnnotation rest
        let ⟨rest, _⟩ ← expect "." rest
        let (body, ⟨rest, _⟩) ← readTermFrom constants (name :: bound) rest
        let ⟨rest, _⟩ ← expect ")" rest
        return (.lam (some name) ann body,
          ⟨rest, by simp only [List.length_cons, List.length_tail] at *; omega⟩)
      else do
        let (left, ⟨rest, _⟩) ← readTermFrom constants bound ts
        match nextOp? rest with
        | some o => do
            let (right, ⟨rest, _⟩) ← readTermFrom constants bound rest.tail
            let ⟨rest, _⟩ ← expect ")" rest
            return (.op o left right,
              ⟨rest, by simp only [List.length_cons, List.length_tail] at *; omega⟩)
        | none => do
            let (right, ⟨rest, _⟩) ← readTermFrom constants bound rest
            let ⟨rest, _⟩ ← expect ")" rest
            return (.app left right, ⟨rest, by simp only [List.length_cons]; omega⟩)
termination_by ts => ts.length
decreasing_by all_goals simp only [List.length_cons, List.length_tail] at *; omega

/-- Reads tokens to their end. -/
def readAll {α : Type} (part : Part) (reader : (ts : List Token) → Except ReadError (α × Rest ts))
    (ts : List Token) : Except ReadError α := do
  if ts.isEmpty then throw (.empty part)
  let (result, ⟨rest, _⟩) ← reader ts
  match rest with
  | [] => return result
  | t :: _ => throw (.trailing part t)

/-- The tokens of a text, as a step of reading it. -/
def lex (text : String) : Except ReadError (List Token) :=
  match tokenize text with
  | .ok ts => .ok ts
  | .error found => .error (.illegal found)

def read (constants : Constants) (text : String) : Except ReadError Term := do
  readAll .term (readTermFrom constants []) (← lex text)

def readType (text : String) : Except ReadError Ty := do
  readAll .type readTypeFrom (← lex text)

end LambdaMachine.Source
