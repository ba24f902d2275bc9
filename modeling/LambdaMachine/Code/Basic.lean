import LambdaMachine.Term.Basic

namespace LambdaMachine

mutual

inductive Value where
  | int (n : Int)
  | bool (b : Bool)
  | const (name : String) (type : Ty)
  | closure (code : List Instr) (env : List Value)

inductive Instr where
  /-- Push the value at an index of the environment. -/
  | access (i : Int)
  /-- Push a value. -/
  | push (value : Value)
  /-- Push a closure of the code over the current environment. -/
  | cur (code : List Instr)
  /-- Pop a value and bind it as the innermost one. -/
  | grab
  /-- Go back to the code and environment saved last. -/
  | ret
  /-- Enter the closure on top of the stack. -/
  | apply
  | add
  | mul
  /-- A text in the place of an instruction. -/
  | foreign (text : String)

end

instance : Inhabited Value := ⟨.int 0⟩

instance : Inhabited Instr := ⟨.grab⟩

mutual

/-- The full text of a value. -/
def Value.text : Value → String
  | .int n => toString n
  | .bool b => if b then "True" else "False"
  | .const name _ => name
  | .closure code env =>
      "<closure [" ++ "; ".intercalate (codeTexts code) ++ "] over " ++ toString env.length ++
        " bindings>"

def Instr.text : Instr → String
  | .access i => "ACCESS(" ++ toString i ++ ")"
  | .push value => "PUSH(" ++ value.text ++ ")"
  | .cur code => "CUR[" ++ "; ".intercalate (codeTexts code) ++ "]"
  | .grab => "GRAB"
  | .ret => "RETURN"
  | .apply => "APPLY"
  | .add => "ADD"
  | .mul => "MUL"
  | .foreign text => text

def codeTexts : List Instr → List String
  | [] => []
  | i :: code => i.text :: codeTexts code

end

def codeText (code : List Instr) : String :=
  "; ".intercalate (codeTexts code)

/-- The short text of a value, in which a closure shows only the size of its environment. -/
def Value.brief : Value → String
  | .closure _ env => "<closure/" ++ toString env.length ++ ">"
  | value => value.text

end LambdaMachine
