import LambdaMachine.Session.Basic

namespace LambdaMachine.CommandLine

/-- What the command line asks for. -/
structure Options where
  file : Option String := none
  trace : Bool := false
  check : Bool := true
  stepLimit : StepLimit := .usual
  deriving DecidableEq

/-- The options of the command line. -/
inductive Switch where
  | help
  | trace
  | noCheck
  | stepLimit
  deriving DecidableEq

namespace Switch

/-- The long spellings of the options, in the order of the help text. -/
def spellings : List (String × Switch) :=
  [("--help", .help), ("--trace", .trace), ("--no-check", .noCheck), ("--step-limit", .stepLimit)]

def name : Switch → String
  | .help => "-h/--help"
  | .trace => "--trace"
  | .noCheck => "--no-check"
  | .stepLimit => "--step-limit"

end Switch

inductive UsageError where
  | ambiguous (word : String) (candidates : List String)
  | unrecognized (words : List String)
  | missingValue (switch : Switch)
  | invalidInteger (switch : Switch) (value : String)
  /-- A value for an option that takes none. -/
  | unusedValue (switch : Switch) (value : String)
  deriving DecidableEq

def UsageError.text : UsageError → String
  | .ambiguous word candidates =>
      "ambiguous option: " ++ word ++ " could match " ++ ", ".intercalate candidates
  | .unrecognized words => "unrecognized arguments: " ++ " ".intercalate words
  | .missingValue switch => "argument " ++ switch.name ++ ": expected one argument"
  | .invalidInteger switch value =>
      "argument " ++ switch.name ++ ": invalid int value: " ++ Text.quoted value
  | .unusedValue switch value =>
      "argument " ++ switch.name ++ ": ignored explicit argument " ++ Text.quoted value

inductive Word where
  | plain (s : String)
  | separator
  /-- A long option, with the value written in the same word. -/
  | switch (switch : Switch) (value : Option String)
  /-- The short option for help, with what is written behind it in the same word. -/
  | helpLetter (behind : Option (List Char))
  | unknown (s : String)

/-- Whether a word is a negative number, possibly with a decimal point. A line feed may end it. -/
def isNegativeNumber (cs : List Char) : Bool :=
  let cs := if cs.getLast? = some '\n' then cs.dropLast else cs
  match cs with
  | '-' :: cs =>
      match cs.dropWhile Text.isDigit with
      | [] => !cs.isEmpty
      | '.' :: fraction => !fraction.isEmpty && fraction.all Text.isDigit
      | _ => false
  | _ => false

/-- Splits a word at its first equals sign, if it has one. -/
def splitValue (cs : List Char) : List Char × Option String :=
  match cs.dropWhile (· ≠ '=') with
  | _ :: value => (cs.takeWhile (· ≠ '='), some (String.ofList value))
  | [] => (cs, none)

/-- The long options that a word abbreviates. -/
def candidates (stem : List Char) : List (String × Switch) :=
  Switch.spellings.filter fun (spelling, _) => stem.isPrefixOf spelling.toList

/-- Tells what a word in front of the separator is. A word with a dash that is no option may still
be a plain word: a dash alone, a negative number, or a word with a space in it. -/
def classify (s : String) : Except UsageError Word :=
  match s.toList with
  | '-' :: '-' :: cs =>
      let (stem, value) := splitValue ('-' :: '-' :: cs)
      match candidates stem with
      | [] => .ok (if s.toList.contains ' ' then .plain s else .unknown s)
      | [(_, switch)] => .ok (.switch switch value)
      | several => .error (.ambiguous s (several.map Prod.fst))
  | ['-', 'h'] => .ok (.helpLetter none)
  | '-' :: 'h' :: '=' :: value => .ok (.helpLetter (some value))
  | '-' :: 'h' :: letters => .ok (.helpLetter (some letters))
  | '-' :: c :: cs =>
      .ok (if isNegativeNumber ('-' :: c :: cs) || (c :: cs).contains ' ' then .plain s
        else .unknown s)
  | _ => .ok (.plain s)

/-- Tells what the words of a command line are. -/
def classifyAll : List String → Except UsageError (List Word)
  | [] => .ok []
  | s :: rest =>
      if s = "--" then .ok (.separator :: rest.map .plain)
      else do
        let word ← classify s
        return word :: (← classifyAll rest)

/-- How the options end: they are complete, or help was asked for. -/
inductive Request where
  | run (options : Options)
  | help

/-- Carries out the short option for help. What is written behind it may only repeat its letter. -/
def helpLetters : Option (List Char) → Except UsageError Request
  | none | some ['h'] => .ok .help
  | some ('h' :: letters) => helpLetters (some letters)
  | some refused => .error (.unusedValue .help (String.ofList refused))

/-- Sets the limit on instructions from the text of its value. The separator is dropped wherever it
stands, and leaves the limit without a value. -/
def setLimit (options : Options) (value : String) : Except UsageError Options :=
  if value = "--" then .ok { options with stepLimit := .empty }
  else match Text.integer? value with
    | some n => .ok { options with stepLimit := .count n }
    | none => .error (.invalidInteger .stepLimit value)

/-- Carries out words from left to right. The first plain word is the file; what fits nowhere is
collected, last first. -/
def carryOut (options : Options) (extras : List String) : List Word → Except UsageError Request
  | [] =>
      if extras.isEmpty then .ok (.run options) else .error (.unrecognized extras.reverse)
  | .switch .help none :: _ => .ok .help
  | .switch .help (some value) :: _ => .error (.unusedValue .help value)
  | .helpLetter behind :: _ => helpLetters behind
  | .switch .trace none :: rest => carryOut { options with trace := true } extras rest
  | .switch .trace (some value) :: _ => .error (.unusedValue .trace value)
  | .switch .noCheck none :: rest => carryOut { options with check := false } extras rest
  | .switch .noCheck (some value) :: _ => .error (.unusedValue .noCheck value)
  | .switch .stepLimit (some value) :: rest => do
      carryOut (← setLimit options value) extras rest
  | .switch .stepLimit none :: .plain value :: rest => do
      carryOut (← setLimit options value) extras rest
  | .switch .stepLimit none :: _ => .error (.missingValue .stepLimit)
  | .unknown s :: rest => carryOut options (s :: extras) rest
  | .plain s :: .separator :: rest =>
      if options.file.isNone then carryOut { options with file := some s } extras rest
      else carryOut options ("--" :: s :: extras) rest
  | .plain s :: rest =>
      if options.file.isNone then carryOut { options with file := some s } extras rest
      else carryOut options (s :: extras) rest
  | .separator :: rest =>
      carryOut options (if options.file.isNone then extras else "--" :: extras) rest

def parse (words : List String) : Except UsageError Request := do
  carryOut {} [] (← classifyAll words)

end LambdaMachine.CommandLine
