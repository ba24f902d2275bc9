import LambdaMachine.Machine.Basic

namespace LambdaMachine.Machine

/-- The end of a run: the last state, and the result or what went wrong. -/
structure Run where
  state : State
  outcome : Except Fault Value

/-- The end of a run that has stopped properly. One value, the result, must be left. -/
def finish (s : State) : Run :=
  match s.stack.items with
  | [value] => ⟨s, .ok value⟩
  | values => ⟨s, .error (.finalStack values.reverse)⟩

/-- Runs the machine from a state in which `budget` more instructions may be executed. -/
def runFrom (l : Limits) (budget : Nat) (s : State) : Run :=
  if s.halted then finish s
  else match s.code with
    | [] =>
        if s.dump.items.isEmpty then finish s else ⟨s, .error (.unreturned s.dump.count)⟩
    | i :: rest =>
        match budget with
        | 0 => ⟨s, .error (.exhausted .instructions l.instructions)⟩
        | budget + 1 =>
            match (s.advance rest).execute l i with
            | .next s => runFrom l budget s
            | .fault f s => ⟨s, .error f⟩

def run (l : Limits) (program : List Instr) : Run :=
  runFrom l l.instructions.toNat (.load program)

/-- The instructions that a run carries out, each with the state after it. -/
def historyFrom (l : Limits) (budget : Nat) (s : State) : List (Instr × State) :=
  if s.halted then []
  else match s.code with
    | [] => []
    | i :: rest =>
        match budget with
        | 0 => []
        | budget + 1 =>
            match (s.advance rest).execute l i with
            | .next s => (i, s) :: historyFrom l budget s
            | .fault _ _ => []

/-- The instructions that the run of a program carries out, each with the state after it. -/
def history (l : Limits) (program : List Instr) : List (Instr × State) :=
  historyFrom l l.instructions.toNat (.load program)

end LambdaMachine.Machine
