import Stencil.Text
/-!
Bytes in hexadecimal, two small digits a byte.  `decode_encode`: what is written reads back.
-/

namespace Stencil.Text.Hex

/-- The digit of a number below sixteen. -/
def digit (n : Nat) : Char :=
  if n < 10 then Char.ofNat (48 + n) else Char.ofNat (87 + n)

/-- The number that a digit stands for; capitals count too. -/
def value? (c : Char) : Option Nat :=
  if '0' ≤ c ∧ c ≤ '9' then some (c.toNat - 48)
  else if 'a' ≤ c ∧ c ≤ 'f' then some (c.toNat - 87)
  else if 'A' ≤ c ∧ c ≤ 'F' then some (c.toNat - 55)
  else none

def encodeByte (b : UInt8) : Text :=
  [digit (b.toNat / 16), digit (b.toNat % 16)]

def encode (bytes : List UInt8) : Text :=
  bytes.flatMap encodeByte

/-- The bytes that a text writes; nothing else but pairs of digits is accepted. -/
def decode : Text → Option (List UInt8)
  | [] => some []
  | a :: b :: r => do
    let hi ← value? a
    let lo ← value? b
    let rest ← decode r
    return UInt8.ofNat (hi * 16 + lo) :: rest
  | _ => none

theorem value?_digit : ∀ n : Nat, n < 16 → value? (digit n) = some n := by
  decide

theorem decode_encode (bytes : List UInt8) : decode (encode bytes) = some bytes := by
  induction bytes with
  | nil => rfl
  | cons b r ih =>
    have hb : b.toNat < 256 := b.toNat_lt
    have e : encode (b :: r) = digit (b.toNat / 16) :: digit (b.toNat % 16) :: encode r := rfl
    rw [e, decode, value?_digit _ (by omega), value?_digit _ (by omega), ih]
    simp only [Option.bind_eq_bind, Option.bind_some, Option.pure_def, Option.some.injEq,
      List.cons.injEq, and_true]
    rw [Nat.div_add_mod' b.toNat 16]
    exact UInt8.ofNat_toNat

end Stencil.Text.Hex
