import LambdaMachine.CommandLine.Help
import LambdaMachine.CommandLine.Options
import LambdaMachine.Shell

namespace LambdaMachine.CommandLine

open Report (Console Signal)

/-- What a run of the program leaves: the printed text, the complaint about the command line if
there is one, and the signal that ended the run early. -/
structure Outcome where
  out : String := ""
  complaint : Option String := none
  signal : Option Signal := none

structure Environment where
  colour : Bool := false
  reductionLimit : Int := Reduction.defaultLimit
  /-- The bytes of the file at a path, unless it cannot be opened. -/
  file : String → Option (List UInt8) := fun _ => none
  /-- The lines that the user types. -/
  input : List String := []

def settings (env : Environment) (options : Options) : Settings :=
  { check := options.check, stepLimit := options.stepLimit, reductionLimit := env.reductionLimit }

def console (env : Environment) (options : Options) : Console :=
  { colour := env.colour, trace := options.trace }

/-- Runs the statements of a file and prints their results. -/
def runFile (file : Option (List UInt8)) : SessionM Unit := do
  Session.load file
  Session.run
  (← get).results.forM fun result => Session.onConsole (·.print result.text)

/-- Greets the user and takes lines. -/
def runShell (input : List String) : SessionM Unit := fun session =>
  match (greet >>= fun _ => Shell.feedAll input) { session := session } with
  | .ok _ shell => .ok () shell.session
  | .error signal shell => .error signal shell.session
where
  greet : ShellM Unit := Shell.inSession (Session.onConsole (·.write Shell.intro))

def outcomeOf {α : Type} : EStateM.Result Signal Session α → Outcome
  | .ok _ s => { out := s.console.out }
  | .error signal s => { out := s.console.out, signal := some signal }

def runWith (env : Environment) (options : Options) : Outcome :=
  match options.file with
  | some path =>
      let session := Session.start (settings env options) (console env options) path false
      outcomeOf (Session.guarded (runFile (env.file path)) session)
  | none =>
      let session :=
        Session.start (settings env options) (console env options) Session.userPath true
      outcomeOf (Session.guarded (runShell env.input) session)

def run (env : Environment) (words : List String) : Outcome :=
  match parse words with
  | .ok (.run options) => runWith env options
  | .ok .help => { out := help env.reductionLimit, signal := some (.exit (some 0)) }
  | .error e =>
      { complaint := some ("lcam: error: " ++ e.text), signal := some (.exit (some 2)) }

end LambdaMachine.CommandLine
