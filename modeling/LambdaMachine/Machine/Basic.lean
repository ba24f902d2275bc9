import LambdaMachine.Code.Basic
import LambdaMachine.Machine.Counted

/-!
States of the abstract machine and the effect of one instruction. A state has the code that is left,
the environment, the operand stack with its top first, and the dump, which saves code and
environment of every closure call that has not returned. An instruction that fails leaves the
state as far as it had changed it.
-/

namespace LambdaMachine.Machine

/-- What the machine may use up. -/
inductive Resource where
  | instructions
  | dump
  | stack
  deriving DecidableEq

def Resource.text : Resource → String
  | .instructions => "instruction"
  | .dump => "dump depth"
  | .stack => "operand stack"

/-- Limits on the number of executed instructions, saved frames and operands. -/
structure Limits where
  instructions : Int := 100000
  dump : Int := 10000
  stack : Int := 10000

/-- Code and environment to return to, with the number of instructions already executed of it. -/
structure Frame where
  code : List Instr
  pc : Nat
  env : List Value

structure State where
  /-- The instructions that are left. -/
  code : List Instr := []
  /-- The number of instructions of the current code that are done. -/
  pc : Nat := 0
  env : List Value := []
  stack : Counted Value := {}
  dump : Counted Frame := {}
  /-- The number of instructions executed so far. -/
  steps : Nat := 0
  halted : Bool := false

inductive Fault where
  /-- An operand was needed and there was none. -/
  | underflow (i : Instr)
  /-- An index outside the environment. -/
  | outOfRange (i : Int) (size : Nat)
  /-- An operand of the wrong form. -/
  | wrongOperand (i : Instr) (value : Value)
  | exhausted (resource : Resource) (limit : Int)
  /-- A text in the place of an instruction. -/
  | foreign (text : String)
  /-- No instruction is left. -/
  | codeEnd
  /-- The code of a closure ended without a return. -/
  | unreturned (frames : Nat)
  /-- The final stack, bottom first, does not hold exactly one value. -/
  | finalStack (stack : List Value)

/-- The effect of an instruction: a new state, or a fault with the state it leaves behind. -/
inductive Transition where
  | next (s : State)
  | fault (f : Fault) (s : State)

namespace State

/-- The state at the start of a program. -/
def load (program : List Instr) : State :=
  { code := program }

/-- Pushes a value, unless the stack is full. -/
def push (l : Limits) (value : Value) (s : State) : Transition :=
  if l.stack ≤ s.stack.count then .fault (.exhausted .stack l.stack) s
  else .next { s with stack := s.stack.push value }

/-- Pops the top of the stack for an instruction, and goes on with it. -/
def pop (i : Instr) (s : State) (k : Value → State → Transition) : Transition :=
  match s.stack.pop? with
  | none => .fault (.underflow i) s
  | some (value, stack) => k value { s with stack := stack }

/-- Pops two numbers, of which the right one is on top, and pushes the result of an operation. -/
def arithmetic (l : Limits) (i : Instr) (o : Op) (s : State) : Transition :=
  s.pop i fun right s => s.pop i fun left s =>
    match left, right with
    | .int m, .int n => s.push l (.int (o.apply m n))
    | .int _, right => .fault (.wrongOperand i right) s
    | left, _ => .fault (.wrongOperand i left) s

/-- Enters a closure whose argument is on the stack, saving code and environment. -/
def enter (l : Limits) (code : List Instr) (env : List Value) (s : State) : Transition :=
  if s.stack.items.isEmpty then .fault (.underflow .apply) s
  else if l.dump ≤ s.dump.count then .fault (.exhausted .dump l.dump) s
  else .next { s with code := code, pc := 0, env := env, dump := s.dump.push ⟨s.code, s.pc, s.env⟩ }

/-- Goes back to the frame saved last and pushes the result. Without such a frame the machine
halts. -/
def leave (l : Limits) (result : Value) (s : State) : Transition :=
  match s.dump.pop? with
  | some (frame, dump) =>
      { s with code := frame.code, pc := frame.pc, env := frame.env, dump := dump }.push l result
  | none =>
      match s.push l result with
      | .next s => .next { s with halted := true }
      | .fault f s => .fault f s

/-- The value at an index of the environment, innermost first. -/
def lookup? (s : State) (i : Int) : Option Value :=
  if i < 0 then none else s.env[i.toNat]?

/-- Carries out an instruction that has already been taken from the code. -/
def execute (l : Limits) (i : Instr) (s : State) : Transition :=
  match i with
  | .push value => s.push l value
  | .access n =>
      match s.lookup? n with
      | some value => s.push l value
      | none => .fault (.outOfRange n s.env.length) s
  | .cur code => s.push l (.closure code s.env)
  | .grab => s.pop i fun value s => .next { s with env := value :: s.env }
  | .apply => s.pop i fun value s =>
      match value with
      | .closure code env => s.enter l code env
      | value => .fault (.wrongOperand i value) s
  | .ret => s.pop i fun value s => s.leave l value
  | .add => s.arithmetic l i .add
  | .mul => s.arithmetic l i .mul
  | .foreign text => .fault (.foreign text) s

/-- A state in which one more instruction has been taken, after which `rest` is left. -/
def advance (rest : List Instr) (s : State) : State :=
  { s with code := rest, pc := s.pc + 1, steps := s.steps + 1 }

def step (l : Limits) (s : State) : Transition :=
  if l.instructions ≤ s.steps then .fault (.exhausted .instructions l.instructions) s
  else match s.code with
    | [] => .fault .codeEnd s
    | i :: rest => (s.advance rest).execute l i

/-- One line on a state: the environment, the stack with its top first, and the depth of the
dump. -/
def text (s : State) : String :=
  "env=[" ++ ", ".intercalate (s.env.map Value.brief) ++ "] stack=[" ++
    ", ".intercalate (s.stack.items.map Value.brief) ++ "] dump=" ++ toString s.dump.count

end State

/-- The name of an executed instruction in a trace. The code of a closure is left out. -/
def traceName : Instr → String
  | .cur _ => "CUR"
  | i => i.text

end LambdaMachine.Machine
