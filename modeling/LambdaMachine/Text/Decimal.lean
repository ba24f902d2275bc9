import LambdaMachine.Text.Blank

/-!
Decimal digits of every script, and the numbers they spell. A numeral may mix scripts: each digit
counts by its own value. Numerals of any length are read, and numbers of any size are spelled: that
a host may refuse to convert numerals with more than 4300 digits is left out.
-/

namespace LambdaMachine.Text

/-- The code points of the digits zero. The digits one to nine follow each of them. -/
def zeroDigits : List Nat :=
  [0x30, 0x660, 0x6f0, 0x7c0, 0x966, 0x9e6, 0xa66, 0xae6, 0xb66, 0xbe6, 0xc66, 0xce6, 0xd66, 0xde6,
    0xe50, 0xed0, 0xf20, 0x1040, 0x1090, 0x17e0, 0x1810, 0x1946, 0x19d0, 0x1a80, 0x1a90, 0x1b50,
    0x1bb0, 0x1c40, 0x1c50, 0xa620, 0xa8d0, 0xa900, 0xa9d0, 0xa9f0, 0xaa50, 0xabf0, 0xff10, 0x104a0,
    0x10d30, 0x11066, 0x110f0, 0x11136, 0x111d0, 0x112f0, 0x11450, 0x114d0, 0x11650, 0x116c0,
    0x11730, 0x118e0, 0x11950, 0x11c50, 0x11d50, 0x11da0, 0x16a60, 0x16ac0, 0x16b50, 0x1d7ce,
    0x1d7d8, 0x1d7e2, 0x1d7ec, 0x1d7f6, 0x1e140, 0x1e2f0, 0x1e950, 0x1fbf0]

/-- The value of a decimal digit, and `none` for any other character. -/
def digitValue? (c : Char) : Option Nat :=
  (zeroDigits.find? fun first => first ≤ c.toNat && c.toNat < first + 10).map (c.toNat - ·)

/-- Whether a character is a decimal digit of some script. -/
def isDigit (c : Char) : Bool :=
  (digitValue? c).isSome

/-- The number that a sequence of decimal digits spells, most significant digit first. -/
def natOfDigits (digits : List Char) : Nat :=
  digits.foldl (fun n c => 10 * n + (digitValue? c).getD 0) 0

/-- Drops the single underscores that stand between two digits, and is `none` for any other
character that is not a digit. -/
def ungroupedDigits? : List Char → Option (List Char)
  | [] => some []
  | [c] => if isDigit c then some [c] else none
  | c :: '_' :: d :: rest =>
      if isDigit c && isDigit d then (ungroupedDigits? (d :: rest)).map (c :: ·) else none
  | c :: d :: rest =>
      if isDigit c then (ungroupedDigits? (d :: rest)).map (c :: ·) else none

/-- The number that a non-empty sequence of digits with single underscores between them spells. -/
def unsigned? (cs : List Char) : Option Nat :=
  match ungroupedDigits? cs with
  | some (c :: rest) => some (natOfDigits (c :: rest))
  | _ => none

/-- Whether a character may surround an integer: any blank but the four information separators. -/
def isMargin (c : Char) : Bool :=
  isBlank c && !(0x1c ≤ c.toNat && c.toNat ≤ 0x1f)

/-- Reads a decimal integer: a margin around it, at most one sign, digits in groups. -/
def integer? (s : String) : Option Int :=
  match trimWhere isMargin s.toList with
  | '-' :: digits => (unsigned? digits).map fun n => -(n : Int)
  | '+' :: digits => (unsigned? digits).map Int.ofNat
  | digits => (unsigned? digits).map Int.ofNat

end LambdaMachine.Text
