import LambdaMachine.Text.Blank
import LambdaMachine.Text.Slice

namespace LambdaMachine.Source

/-- The part of a line before a comment. -/
def uncommented (line : List Char) : List Char :=
  match Text.indexOf? [';', ';'] line with
  | some n => line.take n
  | none => line

/-- A line without its comment and the blanks around it. -/
def content (line : String) : String :=
  String.ofList (Text.trim (uncommented line.toList))

/-- Whether a statement has more parentheses opened than closed. -/
def isOpen (statement : String) : Bool :=
  statement.toList.count ')' < statement.toList.count '('

/-- The statements of some lines, each with the number of the line on which it starts, last first,
and whether the last one goes on. -/
structure Layout where
  statements : List (String × Nat) := []
  continued : Bool := false

def Layout.addLine (layout : Layout) (line : String) (number : Nat) : Layout :=
  let text := content line
  -- a line without content neither ends a statement nor goes on with it
  if text.isEmpty then layout
  else match layout.continued, layout.statements with
    | true, (statement, start) :: before =>
        let joined := statement ++ " " ++ text
        ⟨(joined, start) :: before, isOpen joined⟩
    | _, statements => ⟨(text, number) :: statements, isOpen text⟩

/-- The layout of lines that are numbered from one. -/
def Layout.ofLines (lines : List String) : Layout :=
  (lines.zipIdx 1).foldl (fun layout (line, number) => layout.addLine line number) {}

/-- The statements of some lines in order, each with the number of the line on which it starts. -/
def statements (lines : List String) : List (String × Nat) :=
  (Layout.ofLines lines).statements.reverse

end LambdaMachine.Source
