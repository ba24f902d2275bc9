import LambdaMachine.Code.Compile
import LambdaMachine.Machine.Basic
import LambdaMachine.Nameless.Convert
import LambdaMachine.Reduction.Normalize
import LambdaMachine.Report.Diagnostic
import LambdaMachine.Source.Reading
import LambdaMachine.Typing.Infer

namespace LambdaMachine.Report

/-- The diagnostic of a text in the place of a term. -/
def notATerm (text : String) : Diagnostic :=
  .saying .malformed "'{}' is not a term" (Text.quoted text)

def ofReadError (text : String) : Source.ReadError → Diagnostic
  | .illegal found =>
      .saying .unreadable "'{}' contains illegal character '{}'"
        text [String.ofList [found.char]] { start := found.place, stop := found.place + 1 }
  | .empty part =>
      .saying .unreadable (part.text ++ " cannot be empty") text [] {}
        (by cases part <;> exact of_decide_eq_true rfl)
  | .endedEarly expected =>
      .saying .unreadable "'{}' ended early, expected {}" text [expected]
        { start := text.length - 1, stop := text.length }
  | .badStart part found =>
      .saying .unreadable ("'{}' has unexpected '{}' where a " ++ part.text ++ " should start")
        text [found.text] (token found)
        (by cases part <;> exact of_decide_eq_true rfl)
  | .unexpected expected found =>
      .saying .unreadable "'{}' expected '{}' but found '{}'" text [expected, found.text]
        (token found)
  | .notParameter found =>
      .saying .unreadable "'{}' expected a parameter name but found '{}'" text [found.text]
        (token found)
  | .trailing part found =>
      .saying .unreadable ("'{}' has trailing input after a complete " ++ part.text) text []
        (token found) (by cases part <;> exact of_decide_eq_true rfl)
where
  token (found : Source.Token) : Marking := { start := found.start, stop := found.stop }

def ofUnifyError : Ty.UnifyError → Diagnostic
  | .constants left right => .constantMismatch left right
  | .kinds left right => .kindMismatch left.text right.text
  | .occurs id t => .infiniteType (Ty.var id).text t.text
  | .notTypes left right =>
      .saying .malformed "cannot unify non-types '{}' and '{}'" left.structureText
        [right.structureText]
  | .circular => .saying .malformed "type bindings are circular" ""

def ofInferError : Typing.InferError → Option Diagnostic
  | .mismatch e none => some (ofUnifyError e)
  | .mismatch e (some (func, arg)) => some ((ofUnifyError e).inApplication func.text arg.text)
  | .unbound name => some (.unbound (some name))
  | .anonymousVariable e => e.text?.map fun text =>
      .saying .malformed "cannot infer the type of index-addressed variable '{}'" text
  | .anonymousBinder e => e.text?.map fun text =>
      .saying .malformed "cannot infer the type of index-addressed abstraction '{}'" text
  | .foreign text => some (notATerm text)

def ofConvertError : Nameless.ConvertError → Diagnostic
  | .unbound label => .unbound label
  | .indexed i => .saying .malformed "'{}' has already been converted" (Term.idx i none).text
  | .foreign text => notATerm text

def ofCompileError : Code.CompileError → Option Diagnostic
  | .named label => label.map fun name =>
      .saying .malformed "variable '{}' has not been converted to a de Bruijn index" name
  | .outOfScope i depth =>
      some (.saying .malformed "index {} is out of scope under {} binders" (toString i)
        [toString depth])
  | .foreign text => some (notATerm text)

/-- The diagnostic of a fault of the machine. There is none for a step behind the end of the
code. -/
def ofFault : Machine.Fault → Option Diagnostic
  | .underflow i => some (.underflow i.text)
  | .outOfRange i size => some (.outOfRange i size)
  | .wrongOperand i value => some (.wrongOperand i.text value.text)
  | .exhausted resource limit => some (.exhausted resource.text limit)
  | .foreign text => some (.saying .malformed "'{}' is not an instruction" (Text.quoted text))
  | .codeEnd => none
  | .unreturned frames =>
      some (.saying .malformed "code ran out inside a closure call ({} frames on the dump)"
        (toString frames))
  | .finalStack stack => some (.finalStack stack)

/-- The diagnostic of an operation on terms that a flaw stopped. There is none for a binder without
a spelling. -/
def ofFlaw : Term.Flaw → Option Diagnostic
  | .foreign text => some (notATerm text)
  | .anonymousCapture => none

/-- The diagnostic of a reduction that did not reach a normal form. -/
def ofStop (limit : Int) : Reduction.Stop → Option Diagnostic
  | .exhausted => some (.exhausted "reduction step" limit)
  | .flawed flaw => ofFlaw flaw

end LambdaMachine.Report
