import LambdaMachine.Code.Basic
import LambdaMachine.Report.Template
import LambdaMachine.Text.Slice

namespace LambdaMachine.Report

/-- How two types fail to match. -/
inductive Mismatch where
  | general
  | constants
  | kinds
  | infinite
  deriving DecidableEq

/-- What went wrong. -/
inductive Problem where
  | general
  | unreadable
  | unbound (name : Option String)
  | mismatch (kind : Mismatch) (left right : String) (application : Option (String × String))
  | runtime
  | underflow (instr : String)
  | outOfRange (i size : Int)
  | wrongOperand (instr value : String)
  | exhausted (resource : String) (limit : Int)
  | malformed
  | finalStack (stack : List Value)
  | disagreement

/-- How a diagnostic is shown. The part of its subject from `start` to `stop` is pointed at if
`pointed` is set; the end `-1` stands for the end of the subject. An internal diagnostic is about
something that the program itself should have ruled out. -/
structure Marking where
  start : Int := 0
  stop : Int := -1
  pointed : Bool := true
  internal : Bool := false

/-- How the diagnostics of a problem are shown unless they say otherwise. -/
def Problem.marking : Problem → Marking
  | .general | .unreadable => {}
  | .malformed | .finalStack _ | .disagreement => { pointed := false, internal := true }
  | _ => { pointed := false }

structure Diagnostic where
  problem : Problem
  message : Message
  subject : String
  start : Int
  stop : Int
  pointed : Bool
  internal : Bool

namespace Diagnostic

/-- A diagnostic that is shown as it is marked. -/
def marked (problem : Problem) (subject : String) (message : Message) (marking : Marking) :
    Diagnostic where
  problem := problem
  message := message
  subject := subject
  start := marking.start
  stop := if marking.stop = -1 then subject.length else marking.stop
  pointed := marking.pointed
  internal := marking.internal

/-- The diagnostic with the message of a template, about the first of the texts that are inserted.
Without texts it is about the empty one. -/
def ofTemplate (problem : Problem) (template : String) (parts : Option (List String))
    (marking : Marking := problem.marking) : Except Template.Flaw Diagnostic := do
  let parts := parts.getD [""]
  let message ← Template.fill template parts
  match parts with
  | subject :: _ => return marked problem subject message marking
  | [] => throw .noSubject

/-- The diagnostic on a subject with the message of a template that fits the number of texts to
insert, of which the subject is the first. -/
def saying (problem : Problem) (template subject : String) (others : List String := [])
    (marking : Marking := problem.marking)
    (h : Template.Fits template (others.length + 1) := by exact of_decide_eq_true rfl) :
    Diagnostic :=
  marked problem subject (Template.message template (subject :: others) h) marking

theorem ofTemplate_of_fits (problem : Problem) {template : String} (subject : String)
    (others : List String) (marking : Marking) (h : Template.Fits template (others.length + 1)) :
    ofTemplate problem template (some (subject :: others)) marking =
      .ok (saying problem template subject others marking h) := by
  have hfill : Template.fill template (subject :: others) =
      .ok (Template.message template (subject :: others) h) := Template.fill_eq_message h
  simp only [ofTemplate, Option.getD_some, hfill]
  rfl

/-- A diagnostic that points at a part of a line. -/
def locate (d : Diagnostic) (line : String) (start stop : Int) : Diagnostic :=
  { d with subject := line, start := start, stop := stop, pointed := true }

def unbound (name : Option String) : Diagnostic :=
  saying (.unbound name) "unbound variable '{}'" (name.getD "")

def constantMismatch (left right : String) : Diagnostic :=
  saying (.mismatch .constants left right none) "type '{}' does not match type '{}'" left [right]

/-- An arrow and a type constant. -/
def kindMismatch (left right : String) : Diagnostic :=
  saying (.mismatch .kinds left right none) "'{}' and '{}' are not the same kind of type" left
    [right]

/-- A type variable that occurs in the type it should be equal to. -/
def infiniteType (var other : String) : Diagnostic :=
  saying (.mismatch .infinite var other none) "'{}' occurs in '{}' (infinite type)" var [other]

/-- Adds the application in which two types failed to match. -/
def inApplication (d : Diagnostic) (func arg : String) : Diagnostic :=
  { d with
    problem := match d.problem with
      | .mismatch kind left right _ => .mismatch kind left right (some (func, arg))
      | problem => problem
    message := d.message ++ Template.message " in application of '{}' to '{}'" [func, arg] }

def underflow (instr : String) : Diagnostic :=
  saying (.underflow instr) "'{}' popped an empty operand stack" instr

def outOfRange (i size : Int) : Diagnostic :=
  saying (.outOfRange i size) "access to index {} in an environment of size {}" (toString i)
    [toString size]

def wrongOperand (instr value : String) : Diagnostic :=
  saying (.wrongOperand instr value) "'{}' cannot operate on '{}'" instr [value]

def exhausted (resource : String) (limit : Int) : Diagnostic :=
  saying (.exhausted resource limit) "{} limit of {} exceeded" resource [toString limit]

def finalStack (stack : List Value) : Diagnostic :=
  saying (.finalStack stack) "machine halted with {} values on the operand stack"
    (toString stack.length)

def disagreement (term value normalForm : String) : Diagnostic :=
  saying .disagreement "'{}' evaluates to '{}' on the machine but reduces to '{}'" term
    [value, normalForm]

/-- The subject with the part that is pointed at in the colour of the severity, and a marker under
that part. -/
def pointer (colour : Bool) (severity : Severity) (d : Diagnostic) : String :=
  let stop := max d.stop 1
  "  " ++ Text.before d.subject d.start ++
    severity.paint colour (Text.between d.subject d.start stop) ++ Text.after d.subject stop ++
    "\n  " ++ Text.times ' ' d.start ++
    severity.paint colour ("^" ++ Text.times '~' (stop - d.start - 1))

/-- Whether the report on a diagnostic shows what it points at. -/
def showsPointer (d : Diagnostic) : Bool :=
  !d.internal && !d.subject.isEmpty && d.pointed

end Diagnostic

end LambdaMachine.Report
