namespace LambdaMachine.Report

/-- A text between the control sequences of the given codes and the one that resets them. -/
def paint (colour : Bool) (codes : List String) (s : String) : String :=
  if colour then
    String.join (codes.map fun code => "\x1b[" ++ code ++ "m") ++ s ++ "\x1b[0m"
  else s

def bold (colour : Bool) (s : String) : String :=
  paint colour ["1"] s

def dark (colour : Bool) (s : String) : String :=
  paint colour ["2"] s

inductive Severity where
  | error
  | warning
  deriving DecidableEq

/-- A text in the colour of a severity, in bold. -/
def Severity.paint (severity : Severity) (colour : Bool) (s : String) : String :=
  match severity with
  | .error => Report.paint colour ["1", "31"] s
  | .warning => Report.paint colour ["1", "35"] s

inductive Fragment where
  | wording (s : String)
  | inserted (s : String)
  deriving DecidableEq

abbrev Message := List Fragment

namespace Message

/-- The text of a message without colours. -/
def text (m : Message) : String :=
  String.join (m.map fun
    | .wording s => s
    | .inserted s => s)

/-- The text of a message with the inserted texts in bold if colours are shown. -/
def styled (colour : Bool) (m : Message) : String :=
  String.join (m.map fun
    | .wording s => s
    | .inserted s => bold colour s)

end Message

end LambdaMachine.Report
