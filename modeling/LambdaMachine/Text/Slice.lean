namespace LambdaMachine.Text

/-- The position that an integer bound names in a text of the given length. A negative bound counts
from the end, and a bound outside the text is moved to its nearer end. -/
def position (length : Nat) (bound : Int) : Nat :=
  if bound < 0 then (bound + length).toNat else min bound.toNat length

/-- The part of a text before a bound. -/
def before (s : String) (stop : Int) : String :=
  String.ofList (s.toList.take (position s.length stop))

/-- The part of a text from a bound on. -/
def after (s : String) (start : Int) : String :=
  String.ofList (s.toList.drop (position s.length start))

/-- The part of a text between two bounds, empty if they are out of order. -/
def between (s : String) (start stop : Int) : String :=
  String.ofList ((s.toList.take (position s.length stop)).drop (position s.length start))

/-- A character repeated an integer number of times; none at all if that is not positive. -/
def times (c : Char) (count : Int) : String :=
  String.ofList (List.replicate count.toNat c)

/-- Where a text first occurs in another. The empty text occurs at the start. -/
def indexOf? (part : List Char) : List Char → Option Nat
  | [] => if part.isEmpty then some 0 else none
  | c :: cs => if part.isPrefixOf (c :: cs) then some 0 else (indexOf? part cs).map (· + 1)

end LambdaMachine.Text
