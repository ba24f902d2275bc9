namespace LambdaMachine.Text

/-- The blank characters: the ASCII controls that move the cursor, the four information separators,
the space, and the spaces and separators of Unicode. -/
def isBlank (c : Char) : Bool :=
  let n := c.toNat
  (9 ≤ n && n ≤ 13) || (0x1c ≤ n && n ≤ 0x20) || n == 0x85 || n == 0xa0 || n == 0x1680 ||
    (0x2000 ≤ n && n ≤ 0x200a) || n == 0x2028 || n == 0x2029 || n == 0x202f || n == 0x205f ||
    n == 0x3000

/-- A text without the characters of a kind at its two ends. -/
def trimWhere (p : Char → Bool) (cs : List Char) : List Char :=
  ((cs.dropWhile p).reverse.dropWhile p).reverse

/-- A text without the blank characters at its two ends. -/
def trim (cs : List Char) : List Char :=
  trimWhere isBlank cs

end LambdaMachine.Text
