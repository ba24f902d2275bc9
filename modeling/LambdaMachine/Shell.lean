import LambdaMachine.Session.Evaluate

namespace LambdaMachine

open Report (Signal)

/-- A shell over an interactive session. -/
structure Shell where
  session : Session
  /-- The statement that is not complete yet. -/
  pending : String := ""
  /-- Whether the user is asked to go on with a statement. -/
  continued : Bool := false
  /-- The number of lines taken so far. -/
  line : Nat := 0

abbrev ShellM := EStateM Signal Shell

namespace Shell

def intro : String :=
  "Typed lambda calculus :: CAM backend\nType '?' or 'help' for more information.\n"

def prompt (s : Shell) : String :=
  if s.continued then ". " else "> "

def help : String :=
  "Welcome to the lcam interpreter!\n\n" ++
  "Every line is a term of the simply typed lambda calculus with numbers: \n" ++
  "'((lambda x. (x + 1)) 41)' or '((λf:(Int -> Int). (f 1)) (λx. (x * 2)))'. \n" ++
  "A term is type checked, compiled for a Categorical Abstract Machine and run, \n" ++
  "and the result is cross-checked against plain beta reduction.\n\n" ++
  "'type TERM' prints a term's type and 'code TERM' its compiled program."

/-- A part of the work of the session. -/
def inSession {α : Type} (work : SessionM α) : ShellM α := fun s =>
  match work s.session with
  | .ok a session => .ok a { s with session := session }
  | .error signal session => .error signal { s with session := session }

def print (text : String) : ShellM Unit :=
  inSession (Session.onConsole (·.print text))

/-- Counts a line, and gives its number. -/
def countLine : ShellM Nat := do
  modify fun s => { s with line := s.line + 1 }
  return (← get).line

/-- Runs a complete statement and prints its result. -/
def runLine (source : String) (number : Nat) : SessionM Unit := do
  Session.add source number
  Session.run
  unless (← get).results.isEmpty do
    let result ← Session.pop
    Session.onConsole (·.print result.text)

/-- Takes a line as a part of a statement. -/
def takeStatement (line : String) : ShellM Unit := do
  let number ← countLine
  let text := Source.content ((← get).pending ++ " " ++ line)
  let isOpen := Source.isOpen text
  modify fun s => { s with pending := if isOpen then text else "", continued := isOpen }
  unless isOpen || text.isEmpty do
    discard <| inSession (Session.guarded (runLine text number))

/-- Prints what is found out about a term without running it. -/
def inspect (source : String) (look : Term → SessionM String) : ShellM Unit := do
  let number ← countLine
  discard <| inSession <| Session.guarded do
    let s ← get
    Session.onConsole (·.registerLine s.path source number)
    match Source.read s.settings.constants source with
    | .error e => throw (.problem (Report.ofReadError source e))
    | .ok e =>
        let text ← look e
        Session.onConsole (·.print text)
        Session.onConsole (·.registerFile s.path)

inductive Command where
  | type
  | code
  | help
  | exit
  /-- The end of the input. -/
  | endOfInput

def Command.ofName? (name : String) : Option Command :=
  if name = "type" then some .type
  else if name = "code" then some .code
  else if name = "help" then some .help
  else if name = "exit" then some .exit
  else if name = "EOF" then some .endOfInput
  else none

/-- Carries out a command with its argument, and says whether the shell ends. -/
def Command.run (argument : String) : Command → ShellM Bool
  | .type => do
      inspect argument fun e => return (← Session.infer e).text
      return false
  | .code => do
      inspect argument fun e => return codeText (← Session.compile e)
      return false
  | .help => do
      print Shell.help
      return false
  | .exit => return true
  | .endOfInput => do
      print ""
      return true

/-- Whether a character can be part of the name of a command. -/
def isCommandChar (c : Char) : Bool :=
  c.isAlphanum || c == '_'

/-- The command that a line without blanks around it starts with, and its argument. A question mark
asks for help. -/
def command? (line : List Char) : Option (Command × String) :=
  let line := match line with
    | '?' :: rest => "help ".toList ++ rest
    | line => line
  (Command.ofName? (String.ofList (line.takeWhile isCommandChar))).map fun command =>
    (command, String.ofList (Text.trim (line.dropWhile isCommandChar)))

/-- Takes a line from the user, and says whether the shell ends. -/
def feed (line : String) : ShellM Bool := do
  let line := Text.trim line.toList
  if line.isEmpty then return false
  match command? line with
  | some (command, argument) => command.run argument
  | none =>
      takeStatement (String.ofList line)
      return false

/-- Prints the prompt and takes lines until the shell or the input ends. -/
def feedAll : List String → ShellM Unit
  | [] => do
      askForLine
      discard <| feed "EOF"
  | line :: rest => do
      askForLine
      unless ← feed line do
        feedAll rest
where
  askForLine : ShellM Unit := do
    let s ← get
    inSession (Session.onConsole (·.write s.prompt))

end Shell

end LambdaMachine
