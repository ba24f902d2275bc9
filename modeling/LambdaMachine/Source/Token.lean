import LambdaMachine.Term.Name
import LambdaMachine.Text.Decimal

namespace LambdaMachine.Source

inductive Kind where
  | number
  | identifier
  | arrow
  | symbol
  deriving DecidableEq

def Kind.text : Kind → String
  | .number => "number"
  | .identifier => "identifier"
  | .arrow => "arrow"
  | .symbol => "symbol"

/-- A token with the position of its first character. -/
structure Token where
  kind : Kind
  text : String
  start : Nat
  deriving DecidableEq

namespace Token

/-- The position behind a token. -/
def stop (t : Token) : Nat :=
  t.start + t.text.length

def describe (t : Token) : String :=
  "Token(" ++ t.kind.text ++ ", '" ++ t.text ++ "', " ++ toString t.start ++ ")"

def isLambda (t : Token) : Bool :=
  t.text == "lambda" || t.text == "λ"

end Token

def isNameStart (c : Char) : Bool :=
  c.isAlpha || c == '_'

/-- Whether a character may go on an identifier: a letter, a digit, an underscore, a prime or a
subscript. -/
def isNamePart (c : Char) : Bool :=
  c.isAlphanum || c == '_' || c == '\x27' || Name.isSubscript c

def isSymbol (c : Char) : Bool :=
  ['(', ')', 'λ', '.', ':', '+', '*'].contains c

/-- The kind of an identifier, which is a symbol if it spells an abstraction. -/
def wordKind (word : List Char) : Kind :=
  if word = "lambda".toList then .symbol else .identifier

/-- The first token of a text that starts with the given character, and the text behind it. -/
def lexeme? (c : Char) (cs : List Char) : Option (Kind × List Char × List Char) :=
  if Text.isDigit c then
    some (.number, c :: cs.takeWhile Text.isDigit, cs.dropWhile Text.isDigit)
  else if isNameStart c then
    let word := c :: cs.takeWhile isNamePart
    some (wordKind word, word, cs.dropWhile isNamePart)
  else match c, cs with
    | '-', '>' :: rest => some (.arrow, ['-', '>'], rest)
    | c, cs => if isSymbol c then some (.symbol, [c], cs) else none

theorem length_dropWhile_le {α : Type} (p : α → Bool) (l : List α) :
    (l.dropWhile p).length ≤ l.length :=
  (List.dropWhile_sublist p).length_le

theorem length_lexeme?_le {c : Char} {cs word rest : List Char} {kind : Kind}
    (h : lexeme? c cs = some (kind, word, rest)) : rest.length ≤ cs.length := by
  unfold lexeme? at h
  split at h
  · cases h
    exact length_dropWhile_le _ _
  · split at h
    · cases h
      exact length_dropWhile_le _ _
    · split at h
      · cases h
        simp
      · split at h
        · cases h
          simp
        · simp at h

/-- A character that starts no token, with its position. -/
structure Illegal where
  char : Char
  place : Nat
  deriving DecidableEq

/-- The tokens of a text whose first character has the given position. -/
def tokensFrom (place : Nat) : List Char → Except Illegal (List Token)
  | [] => .ok []
  | c :: cs =>
      if Text.isBlank c then tokensFrom (place + 1) cs
      else match h : lexeme? c cs with
        | none => .error ⟨c, place⟩
        | some (kind, word, rest) => do
            have := length_lexeme?_le h
            return ⟨kind, String.ofList word, place⟩ :: (← tokensFrom (place + word.length) rest)
termination_by cs => cs.length

def tokenize (text : String) : Except Illegal (List Token) :=
  tokensFrom 0 text.toList

end LambdaMachine.Source
