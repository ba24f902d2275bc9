import LambdaMachine.Term.Basic

/-!
Names with subscripts. A name is a base followed by subscript digits, which may be missing; a fresh
name is the base with the next subscript that no other name in sight has. Subscripts are read and
spelled whatever the number of their digits: that a host may refuse to convert numerals with more
than 4300 digits is left out.
-/

namespace LambdaMachine.Name

/-- The value of a subscript digit. -/
def subscriptValue? (c : Char) : Option Nat :=
  if 0x2080 ≤ c.toNat && c.toNat ≤ 0x2089 then some (c.toNat - 0x2080) else none

def isSubscript (c : Char) : Bool :=
  (subscriptValue? c).isSome

/-- The subscript digit of a value below ten. -/
def subscriptDigit (value : Nat) : Char :=
  Char.ofNat (0x2080 + value)

def subscriptDigits (name : String) : List Char :=
  (name.toList.reverse.takeWhile isSubscript).reverse

/-- A name without the subscript digits at its end. -/
def base (name : String) : String :=
  String.ofList (name.toList.reverse.dropWhile isSubscript).reverse

/-- The number that the subscript digits at the end of a name spell, if there are any. -/
def subscript? (name : String) : Option Nat :=
  match subscriptDigits name with
  | [] => none
  | digits => some (digits.foldl (fun n c => 10 * n + (subscriptValue? c).getD 0) 0)

def subscripted (base : String) (n : Nat) : String :=
  base ++ String.ofList ((Nat.toDigits 10 n).map fun c => subscriptDigit (c.toNat - '0'.toNat))

inductive SubscriptError where
  /-- It has a sign, which no subscript digit stands for. -/
  | signed

def SubscriptError.wording : SubscriptError → String × String
  | .signed => ("ValueError", "invalid literal for int() with base 10: '-'")

/-- A base with an integer as its subscript. -/
def withSubscript (base : String) : Int → Except SubscriptError String
  | .ofNat n => .ok (subscripted base n)
  | .negSucc _ => .error .signed

/-- The least subscript above those of the names in a list that have the given base. -/
def nextSubscript (stem : String) : List Label → Nat
  | [] => 0
  | some name :: used =>
      let rest := nextSubscript stem used
      match subscript? name with
      | some n => if base name = stem then max (n + 1) rest else rest
      | none => rest
  | none :: used => nextSubscript stem used

/-- A name with the base of the given one that is not in a list. -/
def fresh (name : String) (used : List Label) : String :=
  subscripted (base name) (nextSubscript (base name) used)

end LambdaMachine.Name
