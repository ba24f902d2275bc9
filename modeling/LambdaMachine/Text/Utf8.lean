import LambdaMachine.Text.Quoted

/-!
Decoding of UTF-8, block by block. A sequence that the end of a block leaves unfinished is put in
front of the next block. Input that is not well formed is refused at the first sequence that cannot
be completed, with the bytes of that sequence that were good so far; its offset counts from the
start of the block with what was put in front of it.
-/

namespace LambdaMachine.Text.Utf8

/-- Why a sequence of bytes encodes no character. -/
inductive Reason where
  | startByte
  | continuation
  | truncated
  deriving DecidableEq

def Reason.text : Reason → String
  | .startByte => "invalid start byte"
  | .continuation => "invalid continuation byte"
  | .truncated => "unexpected end of data"

/-- The bytes at which decoding stopped, the offset of the first of them, and why. -/
structure Invalid where
  first : UInt8
  more : List UInt8
  offset : Nat
  reason : Reason

def Invalid.text (e : Invalid) : String :=
  let place :=
    if e.more.isEmpty then
      "byte 0x" ++ hexadecimal 2 e.first.toNat ++ " in position " ++ toString e.offset
    else
      "bytes in position " ++ toString e.offset ++ "-" ++ toString (e.offset + e.more.length)
  "'utf-8' codec can't decode " ++ place ++ ": " ++ e.reason.text

def isContinuation (b : UInt8) : Bool :=
  0x80 ≤ b && b < 0xc0

/-- Whether a byte may come second after the given lead of three or four bytes: the leads that
border on overlong forms, surrogates and the last code point admit only part of the range. -/
def isSecond (lead b : UInt8) : Bool :=
  isContinuation b &&
    (lead != 0xe0 || 0xa0 ≤ b) && (lead != 0xed || b < 0xa0) &&
    (lead != 0xf0 || 0x90 ≤ b) && (lead != 0xf4 || b < 0x90)

/-- The character of a lead byte, whose upper `marker` is taken away, and its continuations. -/
def character (marker lead : UInt8) (tail : List UInt8) : Char :=
  Char.ofNat (tail.foldl (fun n b => 64 * n + (b.toNat - 0x80)) (lead.toNat - marker.toNat))

/-- The characters of a block, and the unfinished sequence at its end. -/
structure Decoded where
  chars : List Char := []
  unfinished : List UInt8 := []

/-- Puts a character in front of what was decoded. -/
def Decoded.cons (c : Char) (d : Decoded) : Decoded :=
  { d with chars := c :: d.chars }

/-- Whether two bytes are the start of a surrogate, which no further byte can make good. -/
def startsSurrogate (lead second : UInt8) : Bool :=
  lead == 0xed && 0xa0 ≤ second && second < 0xc0

/-- Decodes a block from a byte on whose offset is given. The start of a surrogate at the end of the
block counts as unfinished. -/
def decodeFrom (offset : Nat) : List UInt8 → Except Invalid Decoded
  | [] => .ok {}
  | lead :: rest =>
      if lead < 0x80 then do
        return (← decodeFrom (offset + 1) rest).cons (Char.ofNat lead.toNat)
      else if lead < 0xc2 || 0xf4 < lead then
        .error ⟨lead, [], offset, .startByte⟩
      else if lead < 0xe0 then
        match rest with
        | [] => .ok { unfinished := [lead] }
        | b :: rest =>
            if isContinuation b then do
              return (← decodeFrom (offset + 2) rest).cons (character 0xc0 lead [b])
            else .error ⟨lead, [], offset, .continuation⟩
      else
        match rest with
        | [] => .ok { unfinished := [lead] }
        | [b] =>
            if isSecond lead b || startsSurrogate lead b then .ok { unfinished := [lead, b] }
            else .error ⟨lead, [], offset, .continuation⟩
        | b :: c :: rest =>
            if !isSecond lead b then .error ⟨lead, [], offset, .continuation⟩
            else if !isContinuation c then .error ⟨lead, [b], offset, .continuation⟩
            else if lead < 0xf0 then do
              return (← decodeFrom (offset + 3) rest).cons (character 0xe0 lead [b, c])
            else
              match rest with
              | [] => .ok { unfinished := [lead, b, c] }
              | d :: rest =>
                  if !isContinuation d then .error ⟨lead, [b, c], offset, .continuation⟩
                  else do
                    return (← decodeFrom (offset + 4) rest).cons (character 0xf0 lead [b, c, d])

/-- Ends the input, given the unfinished sequence at its end. -/
def finish : List UInt8 → Except Invalid (List Char)
  | [] => .ok []
  | [lead, second] =>
      if startsSurrogate lead second then .error ⟨lead, [], 0, .continuation⟩
      else .error ⟨lead, [second], 0, .truncated⟩
  | lead :: more => .error ⟨lead, more, 0, .truncated⟩

/-- Decodes blocks, the first of them behind an unfinished sequence. -/
def decodeBlocks (unfinished : List UInt8) : List (List UInt8) → Except Invalid (List Char)
  | [] => finish unfinished
  | block :: rest => do
      let d ← decodeFrom 0 (unfinished ++ block)
      return d.chars ++ (← decodeBlocks d.unfinished rest)

def blockSize : Nat := 8192

/-- Splits an input into blocks. -/
def blocks (bytes : List UInt8) : List (List UInt8) :=
  if bytes.length ≤ blockSize then
    if bytes.isEmpty then [] else [bytes]
  else bytes.take blockSize :: blocks (bytes.drop blockSize)
termination_by bytes.length
decreasing_by
  have : 0 < blockSize := by decide
  rw [List.length_drop]
  omega

def decode (bytes : List UInt8) : Except Invalid (List Char) :=
  decodeBlocks [] (blocks bytes)

end LambdaMachine.Text.Utf8
