import Stencil.Text.Utf8
/-!
Reading UTF-8 gives back the text that was encoded (`decode_utf8`).
-/

namespace Stencil.Text.Utf8

variable {b lo hi : UInt8} {r : List UInt8} {code n : Nat}

/-! ## Single bytes -/

theorem readFrom_single (h : b.toNat < 0x80) :
    readFrom 0 0 0 0 (b :: r) = Char.ofNat b.toNat :: readFrom 0 0 0 0 r := by
  have hb : b < 0x80 := UInt8.lt_iff_toNat_lt.2 h
  simp [readFrom, hb]

theorem readFrom_leading (h : 0x80 ≤ b.toNat) (hl : leading b = some (n, lo, hi)) :
    readFrom 0 0 0 0 (b :: r) = readFrom n (leadingBits n b) lo hi r := by
  have hb : ¬ b < 0x80 := fun hb => absurd (UInt8.lt_iff_toNat_lt.1 hb) (Nat.not_lt.2 h)
  simp [readFrom, hb, hl]

theorem readFrom_continuation (h : lo.toNat ≤ b.toNat) (h' : b.toNat ≤ hi.toNat) :
    readFrom (n + 2) code lo hi (b :: r) =
      readFrom (n + 1) (code * 64 + b.toNat % 64) 0x80 0xBF r := by
  have hlo : lo ≤ b := UInt8.le_iff_toNat_le.2 h
  have hhi : b ≤ hi := UInt8.le_iff_toNat_le.2 h'
  simp [readFrom, hlo, hhi]

theorem readFrom_last (h : lo.toNat ≤ b.toNat) (h' : b.toNat ≤ hi.toNat) :
    readFrom 1 code lo hi (b :: r) =
      Char.ofNat (code * 64 + b.toNat % 64) :: readFrom 0 0 0 0 r := by
  have hlo : lo ≤ b := UInt8.le_iff_toNat_le.2 h
  have hhi : b ≤ hi := UInt8.le_iff_toNat_le.2 h'
  simp [readFrom, hlo, hhi]

/-! ## Leading bytes -/

theorem leading_two (h : 0xC2 ≤ b.toNat) (h' : b.toNat ≤ 0xDF) : leading b = some (1, 0x80, 0xBF) := by
  have hlo : 0xC2 ≤ b := UInt8.le_iff_toNat_le.2 h
  have hhi : b ≤ 0xDF := UInt8.le_iff_toNat_le.2 h'
  simp [leading, hlo, hhi]

/-- The second of three bytes is in the range that the first allows: it neither spells a character that
fits into two bytes nor one of the surrogates. -/
theorem leading_three (h : 0xE0 ≤ b.toNat) (h' : b.toNat ≤ 0xEF) {c : UInt8} (hc : 0x80 ≤ c.toNat)
    (hc' : c.toNat ≤ 0xBF) (hshort : b.toNat = 0xE0 → 0xA0 ≤ c.toNat)
    (hgap : b.toNat = 0xED → c.toNat ≤ 0x9F) :
    ∃ lo hi, leading b = some (2, lo, hi) ∧ lo.toNat ≤ c.toNat ∧ c.toNat ≤ hi.toNat := by
  have hn : ¬ b ≤ 0xDF := fun hb => by
    have : b.toNat ≤ 0xDF := UInt8.le_iff_toNat_le.1 hb
    omega
  by_cases h₀ : b = 0xE0
  · exact ⟨0xA0, 0xBF, by simp [leading, h₀], hshort (by simp [h₀]), hc'⟩
  · by_cases h₁ : b = 0xED
    · exact ⟨0x80, 0x9F, by simp [leading, h₁], hc, hgap (by simp [h₁])⟩
    · have hlo : 0xE1 ≤ b := by
        have : b.toNat ≠ 0xE0 := fun hb => h₀ (UInt8.toNat_inj.1 hb)
        exact UInt8.le_iff_toNat_le.2 (show 0xE1 ≤ b.toNat by omega)
      have hhi : b ≤ 0xEF := UInt8.le_iff_toNat_le.2 h'
      exact ⟨0x80, 0xBF, by simp [leading, hn, h₀, h₁, hlo, hhi], hc, hc'⟩

/-- The second of four bytes is in the range that the first allows: it neither spells a character that
fits into three bytes nor one beyond the last. -/
theorem leading_four (h : 0xF0 ≤ b.toNat) (h' : b.toNat ≤ 0xF4) {c : UInt8} (hc : 0x80 ≤ c.toNat)
    (hc' : c.toNat ≤ 0xBF) (hshort : b.toNat = 0xF0 → 0x90 ≤ c.toNat)
    (hlast : b.toNat = 0xF4 → c.toNat ≤ 0x8F) :
    ∃ lo hi, leading b = some (3, lo, hi) ∧ lo.toNat ≤ c.toNat ∧ c.toNat ≤ hi.toNat := by
  have hn {m : UInt8} (hm : m.toNat < 0xF0) : ¬ b ≤ m := fun hb => by
    have : b.toNat ≤ m.toNat := UInt8.le_iff_toNat_le.1 hb
    omega
  have hne {m : UInt8} (hm : m.toNat < 0xF0) : b ≠ m := fun hb => by
    rw [hb] at h
    omega
  have hlead : ¬ b ≤ 0xDF ∧ b ≠ 0xE0 ∧ b ≠ 0xED ∧ ¬ b ≤ 0xEF :=
    ⟨hn (by decide), hne (by decide), hne (by decide), hn (by decide)⟩
  by_cases h₀ : b = 0xF0
  · exact ⟨0x90, 0xBF, by simp [leading, h₀], hshort (by simp [h₀]), hc'⟩
  · by_cases h₁ : b = 0xF4
    · exact ⟨0x80, 0x8F, by simp [leading, h₁], hc, hlast (by simp [h₁])⟩
    · have hb₀ : b.toNat ≠ 0xF0 := fun hb => h₀ (UInt8.toNat_inj.1 hb)
      have hb₁ : b.toNat ≠ 0xF4 := fun hb => h₁ (UInt8.toNat_inj.1 hb)
      have hlo : 0xF1 ≤ b := UInt8.le_iff_toNat_le.2 (show 0xF1 ≤ b.toNat by omega)
      have hhi : b ≤ 0xF3 := UInt8.le_iff_toNat_le.2 (show b.toNat ≤ 0xF3 by omega)
      exact ⟨0x80, 0xBF, by simp [leading, hlead, h₀, hlo, hhi], hc, hc'⟩

/-! ## Characters -/

theorem readFrom_encodeChar (c : Char) (r : List UInt8) :
    readFrom 0 0 0 0 (String.utf8EncodeChar c ++ r) = c :: readFrom 0 0 0 0 r := by
  have hvalid : c.toNat < 0xD800 ∨ 0xDFFF < c.toNat ∧ c.toNat < 0x110000 := c.valid
  have hc : Char.ofNat c.toNat = c := Char.ofNat_toNat c
  have byte {m : Nat} (hm : m < 256) : (UInt8.ofNat m).toNat = m := UInt8.toNat_ofNat_of_lt hm
  unfold String.utf8EncodeChar
  rw [Char.toNat_val]
  generalize hv : c.toNat = v at *
  simp only
  split
  · rw [List.singleton_append, readFrom_single (by rw [byte (by omega)]; omega), byte (by omega), hc]
  split
  · have h₁ := byte (m := v / 64 % 32 + 192) (by omega)
    have h₂ := byte (m := v % 64 + 128) (by omega)
    simp only [List.cons_append, List.nil_append]
    rw [readFrom_leading (by omega) (leading_two (by omega) (by omega)),
      readFrom_last (by simp; omega) (by simp; omega), leadingBits, h₁, h₂,
      show Nat.pow 2 (6 - 1) = 32 from rfl]
    rw [show (v / 64 % 32 + 192) % 32 * 64 + (v % 64 + 128) % 64 = v by omega, hc]
  split
  · have h₁ := byte (m := v / 4096 % 16 + 224) (by omega)
    have h₂ := byte (m := v / 64 % 64 + 128) (by omega)
    have h₃ := byte (m := v % 64 + 128) (by omega)
    obtain ⟨lo, hi, hl, hlo, hhi⟩ := leading_three (b := UInt8.ofNat (v / 4096 % 16 + 224))
      (c := UInt8.ofNat (v / 64 % 64 + 128)) (by omega) (by omega) (by omega) (by omega) (by omega)
      (by omega)
    simp only [List.cons_append, List.nil_append]
    rw [readFrom_leading (by omega) hl, readFrom_continuation hlo hhi,
      readFrom_last (by simp; omega) (by simp; omega), leadingBits, h₁, h₂, h₃,
      show Nat.pow 2 (6 - 2) = 16 from rfl]
    rw [show ((v / 4096 % 16 + 224) % 16 * 64 + (v / 64 % 64 + 128) % 64) * 64 +
      (v % 64 + 128) % 64 = v by omega, hc]
  · have h₁ := byte (m := v / 262144 % 8 + 240) (by omega)
    have h₂ := byte (m := v / 4096 % 64 + 128) (by omega)
    have h₃ := byte (m := v / 64 % 64 + 128) (by omega)
    have h₄ := byte (m := v % 64 + 128) (by omega)
    obtain ⟨lo, hi, hl, hlo, hhi⟩ := leading_four (b := UInt8.ofNat (v / 262144 % 8 + 240))
      (c := UInt8.ofNat (v / 4096 % 64 + 128)) (by omega) (by omega) (by omega) (by omega) (by omega)
      (by omega)
    simp only [List.cons_append, List.nil_append]
    rw [readFrom_leading (by omega) hl, readFrom_continuation hlo hhi,
      readFrom_continuation (by simp; omega) (by simp; omega),
      readFrom_last (by simp; omega) (by simp; omega), leadingBits, h₁, h₂, h₃, h₄,
      show Nat.pow 2 (6 - 3) = 8 from rfl]
    rw [show (((v / 262144 % 8 + 240) % 8 * 64 + (v / 4096 % 64 + 128) % 64) * 64 +
      (v / 64 % 64 + 128) % 64) * 64 + (v % 64 + 128) % 64 = v by omega, hc]

/-- What has been encoded is read back. -/
theorem decode_utf8 (s : Text) : decode (utf8 s) = s := by
  unfold decode
  induction s with
  | nil => rfl
  | cons c s ih =>
    rw [utf8, List.flatMap_cons, readFrom_encodeChar]
    exact congrArg (c :: ·) ih

end Stencil.Text.Utf8
