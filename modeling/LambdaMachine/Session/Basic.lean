import LambdaMachine.Reduction.Normalize
import LambdaMachine.Report.Causes
import LambdaMachine.Report.Console
import LambdaMachine.Source.Reading

namespace LambdaMachine

open Report (Signal Console ConsoleM)

/-- A statement: a term with the text that it was read from. -/
structure Statement where
  source : String
  term : Term

/-- What was found out about a statement. -/
structure Evaluation where
  source : String
  term : Term
  type : Ty
  program : List Instr
  value : Value
  /-- The normal form, if the statement was cross-checked. -/
  normalForm : Option Term

def Evaluation.text (e : Evaluation) : String :=
  e.value.brief ++ " : " ++ e.type.text

/-- A limit on instructions as it was asked for. -/
inductive StepLimit where
  /-- The limit that the machine has by itself. -/
  | usual
  | count (n : Int)
  /-- A limit without a value, under which nothing can be executed. -/
  | empty
  deriving DecidableEq

/-- What stays the same during a session. -/
structure Settings where
  constants : Source.Constants := [("true", .bool), ("false", .bool)]
  /-- Whether results of the machine are compared with normal forms. -/
  check : Bool := true
  stepLimit : StepLimit := .usual
  reductionLimit : Int := Reduction.defaultLimit

structure Session where
  settings : Settings
  console : Console
  /-- The file that reports name. -/
  path : String
  /-- Whether statements come from a user rather than a file. -/
  interactive : Bool
  /-- The next unused type variable. -/
  next : Int := 0
  /-- The waiting statements with their line numbers, in order. -/
  queue : List (Int × Statement) := []
  /-- The waiting results, oldest first. -/
  results : List Evaluation := []

abbrev SessionM := EStateM Signal Session

namespace Session

/-- The path that stands for the user. -/
def userPath : String := "<in>"

/-- A session before anything is loaded. An interactive session goes on after errors. -/
def start (settings : Settings) (console : Console) (path : String) (interactive : Bool) :
    Session :=
  let console := console.registerFile path
  { settings := settings
    console := if interactive then { console with fatal := false } else console
    path := path
    interactive := interactive }

def onConsole (f : Console → Console) : SessionM Unit :=
  modify fun s => { s with console := f s.console }

/-- Runs a computation up to a signal, which is settled on the console. -/
def guarded {α : Type} (work : SessionM α) : SessionM (Option α) := fun s =>
  match work s with
  | .ok a s => .ok (some a) s
  | .error signal s =>
      match Console.settle signal s.console with
      | .ok _ console => .ok none { s with console := console }
      | .error signal console => .error signal { s with console := console }

/-- Puts a statement in the place of the one with the same line number, or else at the end. -/
def enqueueInto (number : Int) (statement : Statement) :
    List (Int × Statement) → List (Int × Statement)
  | [] => [(number, statement)]
  | (n, st) :: rest =>
      if n = number then (number, statement) :: rest
      else (n, st) :: enqueueInto number statement rest

/-- Reads a statement and puts it in the queue. -/
def add (source : String) (number : Int) : SessionM Unit := do
  let s ← get
  onConsole (·.registerLine s.path source number)
  match Source.read s.settings.constants source with
  | .error e => throw (.problem (Report.ofReadError source e))
  | .ok term =>
      modify fun s => { s with queue := enqueueInto number ⟨source, term⟩ s.queue }
      onConsole (·.registerFile s.path)

def pop : SessionM Evaluation := do
  match (← get).results with
  | [] => throw .noResult
  | result :: rest =>
      modify fun s => { s with results := rest }
      return result

end Session

end LambdaMachine
