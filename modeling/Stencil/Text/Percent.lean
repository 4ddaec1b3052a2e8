import Stencil.Text.Hex
/-!
Percent encoding: ASCII letters and digits stand for themselves, every other byte of the UTF-8 encoding is
written as a percent sign and two capital digits.  `encode_injective`: different texts have different
encodings.
-/

namespace Stencil.Text.Percent

def isPlainByte (b : UInt8) : Bool :=
  (48 ≤ b && b ≤ 57) || (65 ≤ b && b ≤ 90) || (97 ≤ b && b ≤ 122)

def encodeByte (b : UInt8) : Text :=
  if isPlainByte b then [Char.ofNat b.toNat]
  else ['%', (Hex.digit (b.toNat / 16)).toUpper, (Hex.digit (b.toNat % 16)).toUpper]

def encodeBytes (bytes : List UInt8) : Text :=
  bytes.flatMap encodeByte

def encode (t : Text) : Text :=
  encodeBytes (utf8 t)

/-! ## Reading back -/

def decodeBytes : Text → Option (List UInt8)
  | [] => some []
  | c :: r =>
    if c = '%' then
      match r with
      | a :: b :: r => do
        let hi ← Hex.value? a
        let lo ← Hex.value? b
        return UInt8.ofNat (hi * 16 + lo) :: (← decodeBytes r)
      | _ => none
    else (decodeBytes r).map (UInt8.ofNat c.toNat :: ·)

theorem value?_toUpper_digit : ∀ n : Nat, n < 16 → Hex.value? (Hex.digit n).toUpper = some n := by
  decide

theorem plain_char : ∀ n : Nat, n < 256 → isPlainByte (UInt8.ofNat n) = true →
    Char.ofNat n ≠ '%' ∧ (Char.ofNat n).toNat = n := by
  decide +kernel

theorem decodeBytes_encodeBytes (bytes : List UInt8) :
    decodeBytes (encodeBytes bytes) = some bytes := by
  induction bytes with
  | nil => rfl
  | cons b r ih =>
    have hb : b.toNat < 256 := b.toNat_lt
    have e : encodeBytes (b :: r) = encodeByte b ++ encodeBytes r := rfl
    rw [e]
    unfold encodeByte
    split
    · next h =>
      have hp := plain_char b.toNat hb (by simpa using h)
      rw [List.singleton_append, decodeBytes.eq_def]
      simp [hp.1, hp.2, ih]
    · simp only [List.cons_append, List.nil_append, decodeBytes, if_true,
        value?_toUpper_digit _ (show b.toNat / 16 < 16 by omega),
        value?_toUpper_digit _ (show b.toNat % 16 < 16 by omega), ih]
      simp only [Option.bind_eq_bind, Option.bind_some, Option.pure_def, Option.some.injEq,
        List.cons.injEq, and_true]
      rw [Nat.div_add_mod' b.toNat 16]
      exact UInt8.ofNat_toNat

theorem utf8_injective {s t : Text} (h : utf8 s = utf8 t) : s = t := by
  apply String.ofList_injective
  apply String.toByteArray_inj.1
  rw [String.toByteArray_ofList, String.toByteArray_ofList]
  unfold List.utf8Encode
  exact congrArg List.toByteArray h

theorem encode_injective {s t : Text} (h : encode s = encode t) : s = t := by
  have h := congrArg decodeBytes h
  unfold encode at h
  rw [decodeBytes_encodeBytes, decodeBytes_encodeBytes] at h
  exact utf8_injective (Option.some.inj h)

end Stencil.Text.Percent
