import LambdaMachine.CommandLine.Program

namespace LambdaMachine

open Report (Signal)

/-- The bytes of a file, unless it cannot be opened. -/
def readFile? (path : String) : IO (Option (List UInt8)) := do
  try
    return some (← IO.FS.readBinFile path).toList
  catch _ =>
    return none

/-- The exit code of a signal that ended the program. -/
def exitCode : Signal → UInt32
  | .exit (some code) => code.toNat.toUInt32
  | .exit none => 0
  | _ => 1

/-- Prints the new text of a shell, and gives the shell without it. -/
def flush (shell : Shell) : IO Shell := do
  IO.print shell.session.console.out
  (← IO.getStdout).flush
  let console := { shell.session.console with out := "" }
  return { shell with session := { shell.session with console := console } }

/-- The next line of the user, given those that have been read but not taken. The end of the input
counts as a line. -/
def nextLine : List String → IO (String × List String)
  | line :: waiting => return (line, waiting)
  | [] => do
      match Text.lines (← (← IO.getStdin).getLine).toList with
      | line :: waiting => return (line, waiting)
      | [] => return ("EOF", [])

/-- Takes the user's lines until the shell ends. -/
partial def converse (shell : Shell) (waiting : List String) : IO UInt32 := do
  IO.print shell.prompt
  (← IO.getStdout).flush
  let (line, waiting) ← nextLine waiting
  match Shell.feed line shell with
  | .ok done shell =>
      let shell ← flush shell
      if done then return 0 else converse shell waiting
  | .error signal shell =>
      let _ ← flush shell
      return exitCode signal

end LambdaMachine

open LambdaMachine

def main (words : List String) : IO UInt32 := do
  let colour ← (← IO.getStdout).isTty
  match CommandLine.parse words with
  | .ok (.run { file := none, trace, check, stepLimit }) =>
      let settings : Settings := { check := check, stepLimit := stepLimit }
      let console : Report.Console := { colour := colour, trace := trace }
      IO.print Shell.intro
      converse { session := Session.start settings console Session.userPath true } []
  | .ok (.run { file := some path, .. }) =>
      let bytes ← readFile? path
      finish (CommandLine.run { colour := colour, file := fun _ => bytes } words)
  | _ => finish (CommandLine.run { colour := colour } words)
where
  finish (outcome : CommandLine.Outcome) : IO UInt32 := do
    IO.print outcome.out
    if let some complaint := outcome.complaint then
      IO.eprint (CommandLine.usage ++ complaint ++ "\n")
    return (outcome.signal.map exitCode).getD 0
