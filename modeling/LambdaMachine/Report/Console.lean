import LambdaMachine.Report.Diagnostic
import LambdaMachine.Text.Utf8

namespace LambdaMachine.Report

/-- What can interrupt the work. -/
inductive Signal where
  | problem (d : Diagnostic)
  | exit (code : Option Int)
  | interrupted
  /-- A term is nested too deeply for the host. The depth of recursion is not limited here, so no
  function of this library raises the signal; a console settles it when its host does. -/
  | tooDeep
  /-- A path with a null character in it. -/
  | nullInPath
  /-- A file is not UTF-8. -/
  | undecodable (e : Text.Utf8.Invalid)
  /-- An instruction was to be executed under a limit without a value. -/
  | emptyLimit
  /-- A term that a message quotes has no text. -/
  | unrenderable
  /-- There is no result to take. -/
  | noResult
  /-- Any other failure, by its kind and text. -/
  | other (kind text : String)

/-- Kind and text of a signal that nothing in the program accounts for. -/
def Signal.unforeseen? : Signal → Option (String × String)
  | .nullInPath => some ("ValueError", "embedded null byte")
  | .undecodable e => some ("UnicodeDecodeError", e.text)
  | .emptyLimit => some ("TypeError", "'>=' not supported between instances of 'int' and 'list'")
  | .unrenderable => some ("TypeError", "__str__ returned non-string (type NoneType)")
  | .noResult => some ("IndexError", "pop from empty list")
  | .other kind text => some (kind, text)
  | .problem _ | .exit _ | .interrupted | .tooDeep => none

/-- The line of a file that is being worked on, with its number. -/
structure Entry where
  line : Option String := none
  number : Option Int := none

structure Console where
  colour : Bool := false
  /-- Whether an error ends the program. -/
  fatal : Bool := true
  /-- Whether evaluation steps are printed. -/
  trace : Bool := false
  /-- The registered files in order, each with its current line. -/
  traceback : List (String × Entry) := []
  /-- The recorded evaluation steps, last first. -/
  steps : List (String × String) := []
  /-- Everything printed so far. -/
  out : String := ""

abbrev ConsoleM := EStateM Signal Console

namespace Console

def write (s : String) (c : Console) : Console :=
  { c with out := c.out ++ s }

def print (s : String) (c : Console) : Console :=
  c.write (s ++ "\n")

/-- Puts an entry in the place of the one its file has, or else at the end. -/
def enterInto (path : String) (entry : Entry) : List (String × Entry) → List (String × Entry)
  | [] => [(path, entry)]
  | (p, e) :: rest =>
      if p = path then (path, entry) :: rest else (p, e) :: enterInto path entry rest

def registerLine (path line : String) (number : Int) (c : Console) : Console :=
  { c with traceback := enterInto path ⟨some line, some number⟩ c.traceback }

/-- Registers a file without a current line. -/
def registerFile (path : String) (c : Console) : Console :=
  { c with traceback := enterInto path {} c.traceback }

def forgetLines (c : Console) : Console :=
  { c with traceback := c.traceback.map fun (path, _) => (path, {}) }

/-- A text with blanks behind it up to a width. -/
def padded (width : Nat) (s : String) : String :=
  s ++ Text.times ' ' (width - s.length : Int)

/-- Records an evaluation step, and prints it if steps are traced. -/
def registerStep (kind text : String) (c : Console) : Console :=
  let c := { c with steps := (kind, text) :: c.steps }
  if c.trace then c.print (dark c.colour ("  " ++ padded 8 kind ++ " " ++ text)) else c

def clearSteps (c : Console) : Console :=
  { c with steps := [] }

/-- The files that have a current line, with the line and the text of its number. -/
def currentLines (c : Console) : List (String × String × String) :=
  c.traceback.filterMap fun (path, entry) =>
    match entry.line with
    | some line =>
        if line.isEmpty then none
        else some (path, line, (entry.number.map toString).getD "None")
    | none => none

/-- Prints the lines that are being worked on, the message, and what it points at. -/
def reportError (d : Diagnostic) (c : Console) : Console :=
  let lines := c.currentLines.map fun (path, line, number) =>
    "  File '" ++ path ++ "', line " ++ number ++ ":\n    " ++ line ++ "\n"
  let heading := if 1 < lines.length then "Traceback:\n" else ""
  let mark := if d.internal then Severity.error.paint c.colour "[internal] " else ""
  let c := c.print (heading ++ String.join lines ++ mark ++
    Severity.error.paint c.colour "error: " ++ d.message.styled c.colour)
  if d.showsPointer then c.print (d.pointer c.colour .error) else c

/-- Prints a warning with the place of its subject in the first line that is being worked on. -/
def warn (d : Diagnostic) (c : Console) : Console :=
  let location := match c.currentLines with
    | [] => ""
    | (path, line, number) :: _ =>
        let column := ((Text.indexOf? d.subject.toList line.toList).getD 0 : Int) + d.start
        bold c.colour (path ++ ":" ++ number ++ ":" ++ toString column ++ ": ")
  let c := c.print (location ++ Severity.warning.paint c.colour "warning: " ++
    d.message.styled c.colour)
  if d.showsPointer then c.print (d.pointer c.colour .warning) else c

/-- Reports an error. A fatal console ends the program, any other forgets the current lines. -/
def fail (d : Diagnostic) : ConsoleM Unit := do
  modify (reportError d)
  if (← get).fatal then throw (.exit (some 1))
  modify forgetLines

/-- The diagnostic of a failure that nothing in the program accounts for. -/
def unknownError (kind text : String) : Diagnostic :=
  .saying .general "unknown error: '{}: {}'" kind [text] { internal := true }

/-- The last stop of a signal. Problems are reported and end here; an exit goes on, and so does a
failure that nothing accounts for, once it is reported. -/
def settle (signal : Signal) : ConsoleM Unit := do
  match signal with
  | .problem d => fail d
  | .interrupted => fail (.saying .general "keyboard interrupt" "")
  | .tooDeep =>
      fail (.saying .general "term is nested too deeply: maximum recursion depth exceeded" "")
  | signal =>
      if let some (kind, text) := signal.unforeseen? then fail (unknownError kind text)
      throw signal

end Console

end LambdaMachine.Report
