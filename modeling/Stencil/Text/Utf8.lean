import Stencil.Text
/-!
Reading UTF-8.  Every maximal piece of bytes that begins a character but does not complete it is read as
the replacement character.
-/

namespace Stencil.Text.Utf8

def replacement : Char := '\uFFFD'

/-- How many bytes follow a leading byte, and the range of the first of them. -/
def leading (b : UInt8) : Option (Nat × UInt8 × UInt8) :=
  if 0xC2 ≤ b && b ≤ 0xDF then some (1, 0x80, 0xBF)
  else if b = 0xE0 then some (2, 0xA0, 0xBF)
  else if b = 0xED then some (2, 0x80, 0x9F)
  else if 0xE1 ≤ b && b ≤ 0xEF then some (2, 0x80, 0xBF)
  else if b = 0xF0 then some (3, 0x90, 0xBF)
  else if 0xF1 ≤ b && b ≤ 0xF3 then some (3, 0x80, 0xBF)
  else if b = 0xF4 then some (3, 0x80, 0x8F)
  else none

/-- What a leading byte contributes to its character. -/
def leadingBits (following : Nat) (b : UInt8) : Nat :=
  b.toNat % Nat.pow 2 (6 - following)

/-- Reads on with `following` bytes of a character still to come, the next one between `lo` and `hi`. -/
def readFrom (following code : Nat) (lo hi : UInt8) : List UInt8 → Text
  | [] => if following = 0 then [] else [replacement]
  | b :: r =>
    if following ≠ 0 && lo ≤ b && b ≤ hi then
      let code := code * 64 + b.toNat % 64
      if following = 1 then Char.ofNat code :: readFrom 0 0 0 0 r
      else readFrom (following - 1) code 0x80 0xBF r
    else
      let broken := if following = 0 then [] else [replacement]
      broken ++
        if b < 0x80 then Char.ofNat b.toNat :: readFrom 0 0 0 0 r
        else
          match leading b with
          | some (n, lo, hi) => readFrom n (leadingBits n b) lo hi r
          | none => replacement :: readFrom 0 0 0 0 r

/-- The text that a list of bytes encodes. -/
def decode (bytes : List UInt8) : Text :=
  readFrom 0 0 0 0 bytes

end Stencil.Text.Utf8
