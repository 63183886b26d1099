/-
  Reading UTF-8 that may be broken: every longest start of a character that does not go on as one is
  read as a single replacement character.
-/

namespace BlockScript.Text

/-- What stands for bytes that are no character. -/
def replacement : Char := Char.ofNat 0xFFFD

def isContinuation (b : UInt8) : Bool := 0x80 ≤ b && b ≤ 0xBF

/-- Whether `b` may follow `a` in a character of three bytes. -/
def goesOnThree (a b : UInt8) : Bool :=
  if a = 0xE0 then 0xA0 ≤ b && b ≤ 0xBF
  else if a = 0xED then 0x80 ≤ b && b ≤ 0x9F
  else isContinuation b

/-- Whether `b` may follow `a` in a character of four bytes. -/
def goesOnFour (a b : UInt8) : Bool :=
  if a = 0xF0 then 0x90 ≤ b && b ≤ 0xBF
  else if a = 0xF4 then 0x80 ≤ b && b ≤ 0x8F
  else isContinuation b

/-- The low six bits of a continuation byte. -/
def sixBits (b : UInt8) : Nat := b.toNat % 64

/-- The text of some bytes, with replacement characters where they are no UTF-8. -/
def lossyUtf8 : List UInt8 → List Char
  | [] => []
  | a :: rest =>
    if a < 0x80 then Char.ofNat a.toNat :: lossyUtf8 rest
    else if 0xC2 ≤ a && a ≤ 0xDF then
      match rest with
      | b :: rest =>
        if isContinuation b then
          Char.ofNat (a.toNat % 32 * 64 + sixBits b) :: lossyUtf8 rest
        else replacement :: lossyUtf8 (b :: rest)
      | [] => [replacement]
    else if 0xE0 ≤ a && a ≤ 0xEF then
      match rest with
      | b :: c :: rest =>
        if !goesOnThree a b then replacement :: lossyUtf8 (b :: c :: rest)
        else if !isContinuation c then replacement :: lossyUtf8 (c :: rest)
        else Char.ofNat ((a.toNat % 16 * 64 + sixBits b) * 64 + sixBits c) :: lossyUtf8 rest
      | [b] => if goesOnThree a b then [replacement] else replacement :: lossyUtf8 [b]
      | [] => [replacement]
    else if 0xF0 ≤ a && a ≤ 0xF4 then
      match rest with
      | b :: c :: d :: rest =>
        if !goesOnFour a b then replacement :: lossyUtf8 (b :: c :: d :: rest)
        else if !isContinuation c then replacement :: lossyUtf8 (c :: d :: rest)
        else if !isContinuation d then replacement :: lossyUtf8 (d :: rest)
        else
          Char.ofNat (((a.toNat % 8 * 64 + sixBits b) * 64 + sixBits c) * 64 + sixBits d) ::
            lossyUtf8 rest
      | [b, c] =>
        if !goesOnFour a b then replacement :: lossyUtf8 [b, c]
        else if !isContinuation c then replacement :: lossyUtf8 [c]
        else [replacement]
      | [b] => if goesOnFour a b then [replacement] else replacement :: lossyUtf8 [b]
      | [] => [replacement]
    else replacement :: lossyUtf8 rest

end BlockScript.Text
