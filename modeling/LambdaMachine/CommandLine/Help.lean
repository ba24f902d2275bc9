namespace LambdaMachine.CommandLine

/-- The line on how the program is called. -/
def usage : String :=
  "usage: lcam [-h] [--trace] [--no-check] [--step-limit N] [file]\n"

/-- A piece of text that is not broken, and whether a blank stands before it. -/
structure Chunk where
  spaced : Bool
  text : List Char

/-- Splits a word behind the hyphens in it. -/
def hyphenated (spaced : Bool) (current : List Char) : List Char → List Chunk
  | [] => [⟨spaced, current.reverse⟩]
  | [c] => [⟨spaced, (c :: current).reverse⟩]
  | c :: d :: rest =>
      if c = '-' && !current.isEmpty then
        ⟨spaced, (c :: current).reverse⟩ :: hyphenated false [] (d :: rest)
      else hyphenated spaced (c :: current) (d :: rest)

def chunks (text : String) : List Chunk :=
  (text.splitOn " ").flatMap fun word => hyphenated true [] word.toList

/-- Cuts a text into full lines of a width and what is left for a last line. -/
def cut (width : Nat) (cs : List Char) : List (List Char) × List Char :=
  if 0 < width ∧ width < cs.length then
    let (full, last) := cut width (cs.drop width)
    (cs.take width :: full, last)
  else ([], cs)
termination_by cs.length

/-- Fills lines of a width with chunks, given the line that is begun. A chunk that is longer than a
line starts on the line that is begun, even if there is only room for the blank before it. -/
def fillFrom (width : Nat) (line : List Char) : List Chunk → List (List Char)
  | [] => [line]
  | chunk :: rest =>
      let gap := if chunk.spaced && !line.isEmpty && line.length < width then [' '] else []
      let begun := line ++ gap
      if begun.length + chunk.text.length ≤ width then fillFrom width (begun ++ chunk.text) rest
      else if chunk.text.length ≤ width then line :: fillFrom width chunk.text rest
      else
        let room := width - begun.length
        let (full, last) := cut width (chunk.text.drop room)
        (begun ++ chunk.text.take room) :: full ++ fillFrom width last rest

/-- The lines of a text in a column of the given width. -/
def fill (width : Nat) (text : String) : List String :=
  (fillFrom width [] (chunks text)).map String.ofList

/-- An entry of the help text: a heading of at most sixteen characters and an explanation beside
it. -/
def entry (heading explanation : String) : String :=
  let indent := String.ofList (List.replicate 18 ' ')
  let gap := String.ofList (List.replicate (18 - heading.length) ' ')
  heading ++ gap ++ ("\n" ++ indent).intercalate (fill 60 explanation) ++ "\n"

/-- The help text, which names the limit on reductions. -/
def help (reductionLimit : Int) : String :=
  usage ++ "\ntyped lambda calculus on a Categorical Abstract Machine\n" ++
  "\npositional arguments:\n" ++
  entry "  file" "file to interpret and run (if empty, goes to command-line mode)" ++
  "\noptions:\n" ++
  entry "  -h, --help" "show this help message and exit" ++
  entry "  --trace" "print every reduction and machine step" ++
  entry "  --no-check" "don't cross-check machine results against beta reduction" ++
  entry "  --step-limit N" ("maximum number of machine instructions per term (the cross-check " ++
    "against beta reduction keeps its own limit of " ++ toString reductionLimit ++
    " reductions and is skipped with a warning past it)")

end LambdaMachine.CommandLine
