import LambdaMachine.Text.Printable

namespace LambdaMachine.Text

/-- A number in lower-case hexadecimal, padded with zeros on the left to a width. -/
def hexadecimal (width n : Nat) : String :=
  let digits := Nat.toDigits 16 n
  String.ofList (List.replicate (width - digits.length) '0' ++ digits)

/-- The escape of a character that has no printed form, by the size of its code point. -/
def escape (c : Char) : String :=
  let n := c.toNat
  if n < 0x100 then "\\x" ++ hexadecimal 2 n
  else if n < 0x10000 then "\\u" ++ hexadecimal 4 n
  else "\\U" ++ hexadecimal 8 n

/-- A character as it is written between quotes of the given kind. -/
def quotedChar (quote c : Char) : String :=
  if c = quote || c = '\\' then String.ofList ['\\', c]
  else if c = '\n' then "\\n"
  else if c = '\r' then "\\r"
  else if c = '\t' then "\\t"
  else if isPrintable c then String.ofList [c]
  else escape c

def quoted (s : String) : String :=
  let single := Char.ofNat 0x27
  let double := Char.ofNat 0x22
  -- double quotes only where they spare an escape
  let quote := if s.toList.contains single && !s.toList.contains double then double else single
  String.ofList [quote] ++ String.join (s.toList.map (quotedChar quote)) ++ String.ofList [quote]

end LambdaMachine.Text
