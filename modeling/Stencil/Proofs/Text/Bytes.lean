import Mathlib
import Stencil.Proofs.Text.Utf8
import Stencil.Text.Blank
/-!
The bytes of a text.

A text begins with a mark exactly when its bytes begin with those of the mark (`utf8_begins_iff`), and the
bytes of a character beyond ASCII are no ASCII codes (`ShowsAs`).  Making capitals small moves no byte.
-/

namespace Stencil.Text

variable {c d : Char} {s t : Text}

/-! ## Bytes of texts -/

@[simp] theorem utf8_cons (c : Char) (s : Text) : utf8 (c :: s) = String.utf8EncodeChar c ++ utf8 s :=
  List.flatMap_cons

@[simp] theorem utf8_append (s t : Text) : utf8 (s ++ t) = utf8 s ++ utf8 t :=
  List.flatMap_append

@[simp] theorem length_utf8 (s : Text) : (utf8 s).length = size s := by
  induction s with
  | nil => rfl
  | cons c s ih => rw [utf8_cons, List.length_append, String.length_utf8EncodeChar, ih, size_cons]

theorem readFrom_utf8_append (s : Text) (r : List UInt8) :
    Utf8.readFrom 0 0 0 0 (utf8 s ++ r) = s ++ Utf8.readFrom 0 0 0 0 r := by
  induction s with
  | nil => rfl
  | cons c s ih => rw [utf8_cons, List.append_assoc, Utf8.readFrom_encodeChar, ih, List.cons_append]

theorem utf8_begins_iff : utf8 t <+: utf8 s ↔ t <+: s := by
  constructor
  · rintro ⟨r, hr⟩
    have hs : t ++ Utf8.readFrom 0 0 0 0 r = s := by
      rw [← readFrom_utf8_append, hr]
      exact Utf8.decode_utf8 s
    exact ⟨_, hs⟩
  · rintro ⟨r, rfl⟩
    exact ⟨utf8 r, (utf8_append t r).symm⟩

theorem startsWith_iff {mark : Text} : startsWith mark s = true ↔ mark <+: s := by
  rw [startsWith, Option.isSome_iff_exists]
  constructor
  · rintro ⟨r, hr⟩
    exact ⟨r, (after?_eq hr).symm⟩
  · rintro ⟨r, rfl⟩
    exact ⟨r, after?_append mark r⟩

theorem startsWith_pair_eq_false {a b : Char} (h : ∀ r, c = a → s = b :: r → False) :
    startsWith [a, b] (c :: s) = false := by
  rw [Bool.eq_false_iff, ne_eq, startsWith_iff]
  rintro ⟨r, hr⟩
  obtain ⟨hc, hs⟩ := List.cons.inj hr
  exact h r hc.symm hs.symm

theorem isPrefixOf_utf8 (mark s : Text) : (utf8 mark).isPrefixOf (utf8 s) = startsWith mark s := by
  rw [Bool.eq_iff_iff, List.isPrefixOf_iff_prefix, utf8_begins_iff, startsWith_iff]

/-! ## Byte offsets -/

theorem splitAtByte_append (n : Nat) (s : Text) : (splitAtByte n s).1 ++ (splitAtByte n s).2 = s := by
  fun_induction splitAtByte n s with
  | case1 => rfl
  | case2 => rfl
  | case3 n c r p ih => exact congrArg (c :: ·) ih

theorem splitAtByte_zero (s : Text) : splitAtByte 0 s = ([], s) := by
  cases s <;> rfl

/-- A cut beyond a text goes on in the text after it. -/
theorem splitAtByte_size_add (a s : Text) (n : Nat) :
    splitAtByte (size a + n) (a ++ s) = (a ++ (splitAtByte n s).1, (splitAtByte n s).2) := by
  induction a with
  | nil => simp
  | cons c a ih =>
    obtain ⟨k, hk⟩ : ∃ k, size (c :: a) + n = k + 1 :=
      ⟨size (c :: a) + n - 1, by have := c.utf8Size_pos; rw [size_cons]; omega⟩
    have hn : k + 1 - c.utf8Size = size a + n := by
      rw [size_cons] at hk
      omega
    rw [hk, List.cons_append, splitAtByte, hn, ih]
    rfl

theorem splitAtByte_size (a s : Text) : splitAtByte (size a) (a ++ s) = (a, s) := by
  have := splitAtByte_size_add a s 0
  rwa [Nat.add_zero, splitAtByte_zero, List.append_nil] at this

/-! ## Bytes of characters -/

/-- The character that has a byte as its code. -/
def byteChar (b : UInt8) : Char :=
  Char.ofNat b.toNat

theorem toNat_byteChar (b : UInt8) : (byteChar b).toNat = b.toNat := by
  have hb : b.toNat < 256 := b.toNat_lt
  have hv : b.toNat.isValidChar := Or.inl (by omega)
  rw [byteChar, Char.ofNat, dif_pos hv]
  rfl

/-- What a byte of the character `c` shows: the character itself, or no character of ASCII if `c` is
none. -/
inductive ShowsAs (c : Char) : Char → Prop
  | self : c.toNat < 128 → ShowsAs c c
  | beyond {d : Char} : 128 ≤ c.toNat → 128 ≤ d.toNat → ShowsAs c d

theorem utf8Size_of_lt (h : c.toNat < 128) : c.utf8Size = 1 :=
  Char.utf8Size_eq_one_iff.2 (UInt32.le_iff_toNat_le.2 (Nat.le_of_lt_succ h))

/-- A property that only characters of ASCII have. -/
def InAscii (p : Char → Bool) : Prop :=
  ∀ c, p c = true → c.toNat < 128

theorem ShowsAs.congr {p : Char → Bool} (hp : InAscii p) (h : ShowsAs c d) : p d = p c := by
  cases h with
  | self => rfl
  | beyond hc hd =>
    rw [Bool.eq_false_iff.2 fun h => Nat.not_lt.2 hd (hp d h),
      Bool.eq_false_iff.2 fun h => Nat.not_lt.2 hc (hp c h)]

theorem ShowsAs.eq_iff {a : Char} (ha : a.toNat < 128) (h : ShowsAs c d) : d = a ↔ c = a := by
  have := h.congr (p := (· == a)) fun c hc => by rwa [beq_iff_eq.1 hc]
  rwa [Bool.eq_iff_iff, beq_iff_eq, beq_iff_eq] at this

theorem ShowsAs.codes {b : UInt8} (hb : b ∈ String.utf8EncodeChar c) : ShowsAs c (byteChar b) := by
  have byte {m : Nat} (hm : m < 256) : (UInt8.ofNat m).toNat = m := UInt8.toNat_ofNat_of_lt hm
  unfold String.utf8EncodeChar at hb
  simp only [Char.toNat_val] at hb
  split at hb
  · next hc =>
    obtain rfl := List.mem_singleton.1 hb
    have he : byteChar (UInt8.ofNat c.toNat) = c := by
      rw [byteChar, byte (by omega), Char.ofNat_toNat]
    rw [he]
    exact .self (by omega)
  · next hc =>
    -- leading bytes and continuations carry the highest bit
    refine .beyond (by omega) ?_
    rw [toNat_byteChar]
    split at hb
    · simp only [List.mem_cons, List.not_mem_nil, or_false] at hb
      rcases hb with rfl | rfl <;> rw [byte (by omega)] <;> omega
    split at hb <;> simp only [List.mem_cons, List.not_mem_nil, or_false] at hb
    · rcases hb with rfl | rfl | rfl <;> rw [byte (by omega)] <;> omega
    · rcases hb with rfl | rfl | rfl | rfl <;> rw [byte (by omega)] <;> omega

theorem inAscii_isAsciiBlank : InAscii isAsciiBlank := by
  intro c h
  simp only [isAsciiBlank, Bool.or_eq_true, decide_eq_true_eq] at h
  rcases h with (((rfl | rfl) | rfl) | rfl) | rfl <;> decide

/-! ## Small letters -/

theorem toLower_cases (c : Char) : c.toLower = c ∨ c.isUpper = true ∧ c.toLower.isLower = true := by
  grind [Char.toLower, Char.isUpper, Char.isLower]

/-- Making capitals small neither takes a property from a character nor gives it one, if no letter has
the property. -/
theorem toLower_congr {p : Char → Bool} (hp : ∀ c, p c = true → c.isAlpha = false) (c : Char) :
    p c.toLower = p c := by
  rcases toLower_cases c with h | ⟨hu, hl⟩
  · rw [h]
  · have hc : p c = false := Bool.eq_false_iff.2 fun h => by
      simpa [Char.isAlpha, hu] using hp c h
    have hd : p c.toLower = false := Bool.eq_false_iff.2 fun h => by
      simpa [Char.isAlpha, hl] using hp _ h
    rw [hc, hd]

theorem utf8Size_toLower (c : Char) : c.toLower.utf8Size = c.utf8Size := by
  rcases toLower_cases c with h | ⟨hu, hl⟩
  · rw [h]
  · have one {d : Char} (hd : d.val ≤ 127) : d.utf8Size = 1 := Char.utf8Size_eq_one_iff.2 hd
    rw [one (by grind [Char.isLower]), one (by grind [Char.isUpper])]

theorem lowerAscii_append (s t : Text) : lowerAscii (s ++ t) = lowerAscii s ++ lowerAscii t :=
  List.map_append

theorem size_lowerAscii (s : Text) : size (lowerAscii s) = size s := by
  induction s with
  | nil => rfl
  | cons c s ih => rw [lowerAscii, List.map_cons, size_cons, utf8Size_toLower, size_cons, ← ih, lowerAscii]

theorem startsWith_lowerAscii {mark : Text} (h : mark.any Char.isAlpha = false) (s : Text) :
    startsWith mark (lowerAscii s) = startsWith mark s := by
  induction mark generalizing s with
  | nil => rfl
  | cons m mark ih =>
    rw [List.any_cons, Bool.or_eq_false_iff] at h
    cases s with
    | nil => rfl
    | cons c s =>
      have hm : (m == c.toLower) = (m == c) :=
        toLower_congr (fun e he => by rw [← beq_iff_eq.1 he]; exact h.1) c
      have hmark := ih h.2 s
      rw [Bool.eq_iff_iff, beq_iff_eq, beq_iff_eq] at hm
      simp only [startsWith, lowerAscii, List.map_cons, after?, hm] at hmark ⊢
      split
      · exact hmark
      · rfl

theorem startsWith_lowerAscii_name (name s : Text) :
    startsWith name (lowerAscii s) = decide (lowerAscii (s.take name.length) = name) := by
  rw [Bool.eq_iff_iff, startsWith_iff, List.prefix_iff_eq_take, decide_eq_true_iff, lowerAscii, lowerAscii,
    List.map_take]
  exact eq_comm

end Stencil.Text
