import LambdaMachine.Report.Message
import LambdaMachine.Text.Decimal
import LambdaMachine.Text.Quoted

/-!
Templates of messages. A pair of braces in a template is a place for a text to insert, a doubled
brace stands for a brace. Places are filled in order, or by the numbers written in them.
-/

namespace LambdaMachine.Report.Template

/-- Why there is no message for a template. -/
inductive Flaw where
  /-- An opening brace at the end of the template. -/
  | loneOpening
  /-- A closing brace that is neither doubled nor ends a place. -/
  | loneClosing
  /-- A place that does not end. -/
  | unclosed
  /-- An opening brace within a place. -/
  | nested
  /-- A place without a text to insert. -/
  | missing (place : Nat)
  /-- A place with a name instead of a number. -/
  | named (name : String)
  /-- A place without a number after one with a number. -/
  | numberDropped
  /-- A place with a number after one without. -/
  | numberAdded
  /-- There is no text at all that the message could be about. -/
  | noSubject
  deriving DecidableEq

/-- Kind and text of a flaw. -/
def Flaw.wording : Flaw → String × String
  | .loneOpening => ("ValueError", "Single '\x7b' encountered in format string")
  | .loneClosing => ("ValueError", "Single '\x7d' encountered in format string")
  | .unclosed => ("ValueError", "expected '\x7d' before end of string")
  | .nested => ("ValueError", "unexpected '\x7b' in field name")
  | .missing place =>
      ("IndexError",
        "Replacement index " ++ toString place ++ " out of range for positional args tuple")
  | .named name => ("KeyError", Text.quoted name)
  | .numberDropped =>
      ("ValueError", "cannot switch from manual field specification to automatic field numbering")
  | .numberAdded =>
      ("ValueError", "cannot switch from automatic field numbering to manual field specification")
  | .noSubject => ("IndexError", "list index out of range")

/-- How the places of a template are numbered, as far as it is read. -/
inductive Numbering where
  | undecided
  /-- Places are counted. -/
  | counted (next : Nat)
  /-- Every place has its number written in it. -/
  | written

/-- The number of a place, given what is written in it. -/
def place : Numbering → List Char → Except Flaw (Nat × Numbering)
  | .undecided, [] => .ok (0, .counted 1)
  | .counted n, [] => .ok (n, .counted (n + 1))
  | .written, [] => .error .numberDropped
  | numbering, label =>
      if label.all Text.isDigit then
        match numbering with
        | .counted _ => .error .numberAdded
        | _ => .ok (Text.natOfDigits label, .written)
      else .error (.named (String.ofList label))

/-- A piece of a template. A flaw is the last piece. -/
inductive Piece where
  | wording (cs : List Char)
  | place (i : Nat)
  | flaw (f : Flaw)
  deriving DecidableEq

/-- Puts a character of the wording before other pieces. -/
def addChar (c : Char) : List Piece → List Piece
  | .wording cs :: pieces => .wording (c :: cs) :: pieces
  | pieces => .wording [c] :: pieces

/-- The pieces of what is left of a template, given what has been read of the place that it starts
in, if it starts in one. -/
def piecesFrom (numbering : Numbering) : Option (List Char) → List Char → List Piece
  | none, [] => []
  | none, '\x7b' :: '\x7b' :: cs => addChar '\x7b' (piecesFrom numbering none cs)
  | none, '\x7d' :: '\x7d' :: cs => addChar '\x7d' (piecesFrom numbering none cs)
  | none, ['\x7b'] => [.flaw .loneOpening]
  | none, '\x7b' :: cs => piecesFrom numbering (some []) cs
  | none, '\x7d' :: _ => [.flaw .loneClosing]
  | none, c :: cs => addChar c (piecesFrom numbering none cs)
  | some _, [] => [.flaw .unclosed]
  | some _, '\x7b' :: _ => [.flaw .nested]
  | some label, '\x7d' :: cs =>
      match place numbering label with
      | .ok (i, numbering) => .place i :: piecesFrom numbering none cs
      | .error f => [.flaw f]
  | some label, c :: cs => piecesFrom numbering (some (label ++ [c])) cs

def pieces (template : String) : List Piece :=
  piecesFrom .undecided none template.toList

/-- The fragment of a message that a piece makes with the texts to insert. -/
def Piece.fill (parts : List String) : Piece → Except Flaw Fragment
  | .wording cs => .ok (.wording (String.ofList cs))
  | .place i =>
      match parts[i]? with
      | some part => .ok (.inserted part)
      | none => .error (.missing i)
  | .flaw f => .error f

/-- The message of a template and the texts to insert. -/
def fill (template : String) (parts : List String) : Except Flaw Message :=
  (pieces template).mapM (Piece.fill parts)

/-- A piece makes a fragment with any `n` texts. -/
def Piece.Fits (n : Nat) : Piece → Prop
  | .wording _ => True
  | .place i => i < n
  | .flaw _ => False

instance (n : Nat) : DecidablePred (Piece.Fits n)
  | .wording _ => .isTrue trivial
  | .place i => inferInstanceAs (Decidable (i < n))
  | .flaw _ => .isFalse id

/-- A template can be filled with any `n` texts. -/
def Fits (template : String) (n : Nat) : Prop :=
  ∀ piece ∈ pieces template, piece.Fits n

instance (template : String) (n : Nat) : Decidable (Fits template n) :=
  inferInstanceAs (Decidable (∀ piece ∈ pieces template, piece.Fits n))

section Fitting

variable {template : String} {parts : List String}

theorem Piece.fill_of_fits {piece : Piece} (h : piece.Fits parts.length) :
    ∃ fragment, piece.fill parts = .ok fragment := by
  cases piece with
  | wording cs => exact ⟨_, rfl⟩
  | place i =>
      have hi : i < parts.length := h
      exact ⟨.inserted parts[i], by rw [fill, List.getElem?_eq_getElem hi]⟩
  | flaw f => exact h.elim

theorem fill_of_fits (h : Fits template parts.length) :
    ∃ message, fill template parts = .ok message := by
  unfold fill
  unfold Fits at h
  generalize pieces template = ps at h ⊢
  induction ps with
  | nil => exact ⟨[], rfl⟩
  | cons piece ps ih =>
      obtain ⟨fragment, hfragment⟩ := Piece.fill_of_fits (h piece List.mem_cons_self)
      obtain ⟨message, hmessage⟩ := ih fun p hp => h p (List.mem_cons_of_mem _ hp)
      exact ⟨fragment :: message, by rw [List.mapM_cons, hfragment, hmessage]; rfl⟩

theorem isSome_fill (h : Fits template parts.length) :
    (fill template parts).toOption.isSome = true := by
  obtain ⟨message, hmessage⟩ := fill_of_fits h
  rw [hmessage]
  rfl

end Fitting

/-- The message of a template that fits the number of texts to insert. -/
def message (template : String) (parts : List String)
    (h : Fits template parts.length := by exact of_decide_eq_true rfl) : Message :=
  (fill template parts).toOption.get (isSome_fill h)

theorem fill_eq_message {template : String} {parts : List String}
    (h : Fits template parts.length) : fill template parts = .ok (message template parts h) := by
  obtain ⟨m, hm⟩ := fill_of_fits h
  simp [message, hm, Except.toOption]

end LambdaMachine.Report.Template
