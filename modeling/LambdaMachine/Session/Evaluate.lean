import LambdaMachine.Machine.Run
import LambdaMachine.Session.Basic
import LambdaMachine.Source.Layout
import LambdaMachine.Source.Occurrence
import LambdaMachine.Text.Lines

namespace LambdaMachine.Session

open Report (Signal Console Diagnostic)

/-- The signal of a diagnostic that may itself have failed to be put in words. -/
def signalOf : Option Diagnostic → Signal
  | some d => .problem d
  | none => .unrenderable

/-- The type of a term under the constants of the session. -/
def infer (e : Term) : SessionM Ty := fun s =>
  match Typing.infer s.settings.constants e { next := s.next } with
  | .ok type p => .ok type { s with next := p.next }
  | .error error p => .error (signalOf (Report.ofInferError error)) { s with next := p.next }

def programOf (e : Term) : Except Signal (List Instr) :=
  match Nameless.convert e with
  | .error error => .error (.problem (Report.ofConvertError error))
  | .ok nameless =>
      match Code.compile nameless with
      | .error error => .error (signalOf (Report.ofCompileError error))
      | .ok program => .ok program

/-- The program of a closed term, as a step of a session. -/
def compile (e : Term) : SessionM (List Instr) :=
  match programOf e with
  | .ok program => pure program
  | .error signal => throw signal

/-- The limits of the machine, unless the one on instructions has no value. -/
def limits? : StepLimit → Option Machine.Limits
  | .usual => some {}
  | .count n => some { instructions := n }
  | .empty => none

/-- Records evaluation steps if the console traces them. -/
def traceSteps (steps : Unit → List (String × String)) : SessionM Unit := do
  if (← get).console.trace then
    (steps ()).forM fun (kind, text) => onConsole (·.registerStep kind text)

def execute (program : List Instr) : SessionM Value := do
  let some l := limits? (← get).settings.stepLimit | throw .emptyLimit
  traceSteps fun _ => (Machine.history l program).map fun (i, s) => (Machine.traceName i, s.text)
  match (Machine.run l program).outcome with
  | .ok value => return value
  | .error fault => throw (signalOf (Report.ofFault fault))

/-- Whether a value of the machine and a normal form describe the same value. A closure cannot be
compared, and agrees with everything that is not a number or a constant. -/
def agree : Value → Term → Bool
  | .closure _ _, .num _ | .closure _ _, .const _ _ => false
  | .closure _ _, _ => true
  | .const name type, e => e == .const name type
  | .int n, .num m => m == n
  | .bool b, .num m => m == if b then 1 else 0
  | _, _ => false

/-- The normal form of a term, or `none` with a warning if the reduction runs out of steps. -/
def normalForm? (source : String) (e : Term) : SessionM (Option Term) := do
  let limit := (← get).settings.reductionLimit
  let run := Reduction.run limit e
  traceSteps fun _ => (Reduction.reducts run.steps e).map fun (rule, e) => (rule.symbol, e.text)
  match run.stop with
  | none => return some run.term
  | some (.flawed flaw) => throw (signalOf (Report.ofFlaw flaw))
  | some .exhausted =>
      onConsole (·.warn (.saying .general "'{}' was not cross-checked: {}" source
        [(Diagnostic.exhausted "reduction step" limit).message.text] { pointed := false }))
      return none

/-- Types, compiles, runs and cross-checks a term. -/
def evaluate (source : String) (e : Term) : SessionM Evaluation := do
  let type ← infer e
  let program ← compile e
  let value ← execute program
  let normalForm ← if (← get).settings.check then normalForm? source e else pure none
  if let some n := normalForm then
    unless agree value n do
      throw (.problem (.disagreement source value.brief n.text))
  return ⟨source, e, type, program, value, normalForm⟩

/-- Points the report on an unbound variable at its first free occurrence in the source. -/
def located (source : String) : Signal → Signal
  | .problem d =>
      match d.problem with
      | .unbound (some name) =>
          match Source.freeOccurrence source name with
          | .ok (some t) => .problem (d.locate source t.start t.stop)
          | _ => .problem d
      | _ => .problem d
  | signal => signal

/-- Removes the statement with a line number from the queue. -/
def dequeue (number : Int) : SessionM Unit :=
  modify fun s => { s with queue := s.queue.eraseP (·.1 == number) }

/-- Runs a queued statement, which leaves the queue in any case. -/
def runStatement (number : Int) (statement : Statement) : SessionM Unit := do
  let path := (← get).path
  onConsole (·.registerLine path statement.source number)
  onConsole (·.clearSteps)
  try
    let result ← evaluate statement.source statement.term
    modify fun s => { s with results := s.results ++ [result] }
  catch signal =>
    dequeue number
    throw (located statement.source signal)
  dequeue number
  onConsole (·.registerFile path)

/-- Runs the queued statements in order, up to the first that fails. -/
def run : SessionM Unit := do
  (← get).queue.forM fun (number, statement) => runStatement number statement

/-- Loads the statements of a file, given its bytes, or `none` if it cannot be opened. A path with a
null character can name no file. There is nothing to load for the user. -/
def load (file : Option (List UInt8)) : SessionM Unit := do
  let s ← get
  if s.path ≠ userPath then
    if s.path.toList.contains '\x00' then throw .nullInPath
    match file with
    | none =>
        throw (.problem
          (.saying .general "'{}' could not be opened" s.path [] { pointed := false }))
    | some bytes =>
        match Text.Utf8.decode bytes with
        | .error e => throw (.undecodable e)
        | .ok chars =>
            (Source.statements (Text.lines chars)).forM fun (source, number) => add source number
  else unless s.interactive do
    throw (.problem (.saying .general "'<in>' is a reserved filename" ""))

end LambdaMachine.Session
