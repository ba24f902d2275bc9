namespace LambdaMachine.Text

/-- Splits a text into lines, given the characters already read of the current line, last first. -/
def linesFrom (current : List Char) : List Char → List (List Char)
  | [] => if current.isEmpty then [] else [current.reverse]
  | '\r' :: '\n' :: cs => current.reverse :: linesFrom [] cs
  | '\r' :: cs => current.reverse :: linesFrom [] cs
  | '\n' :: cs => current.reverse :: linesFrom [] cs
  | c :: cs => linesFrom (c :: current) cs

/-- The lines of a text, without what ends them. -/
def lines (cs : List Char) : List String :=
  (linesFrom [] cs).map String.ofList

end LambdaMachine.Text
