import Mathlib.Order.Lattice
import Mathlib.Data.Prod.Lex
import Stencil.Proofs.Text.Bytes
import Stencil.Syntax.Slice
/-!
Positions in the order of a source.

Every character of a text moves the position after it on, to the next column or to the next line
(`after_lt_append`).  So the boundaries between the characters of a source have positions in the order of
their offsets.  An offset inside a character has the position of the end of the source, and is the only
one that may come too late (`ofOffset_le_iff`).
-/

namespace Stencil

namespace Text

variable {s : Text} {n : Nat}

/-- A character begins at the byte offset, or the text ends there. -/
def IsBoundary (s : Text) (n : Nat) : Prop :=
  ∃ a b, s = a ++ b ∧ n = size a

/-- The byte offset lies inside a character. -/
def Amid (s : Text) (n : Nat) : Prop :=
  n < size s ∧ ¬ IsBoundary s n

theorem isBoundary_size (s : Text) : IsBoundary s (size s) :=
  ⟨s, [], (List.append_nil s).symm, rfl⟩

theorem IsBoundary.le_size (h : IsBoundary s n) : n ≤ size s := by
  obtain ⟨a, b, rfl, rfl⟩ := h
  rw [size_append]
  exact Nat.le_add_right _ _

end Text

namespace Position

/-- Positions are ordered by their lines, and within a line by their columns. -/
instance : PartialOrder Position :=
  PartialOrder.lift (fun p => toLex (p.line, p.column)) fun p q h => by
    cases p
    cases q
    simpa using h

theorem lt_iff {p q : Position} : p < q ↔ p.line < q.line ∨ p.line = q.line ∧ p.column < q.column :=
  Prod.Lex.toLex_lt_toLex

/-! ## The position after a text -/

theorem after_concat (s : Text) (c : Char) :
    after (s ++ [c]) =
      if c = '\n' then ⟨(after s).line + 1, 1⟩ else ⟨(after s).line, (after s).column + 1⟩ := by
  by_cases hc : c = '\n'
  · simp [after, hc]
  · simp [after, hc]

theorem after_lt_concat (s : Text) (c : Char) : after s < after (s ++ [c]) := by
  rw [lt_iff, after_concat]
  split
  · exact .inl (Nat.lt_succ_self _)
  · exact .inr ⟨rfl, Nat.lt_succ_self _⟩

theorem after_le_append (s t : Text) : after s ≤ after (s ++ t) := by
  induction t generalizing s with
  | nil => rw [List.append_nil]
  | cons c t ih =>
    calc after s ≤ after (s ++ [c]) := (after_lt_concat s c).le
      _ ≤ after (s ++ [c] ++ t) := ih _
      _ = after (s ++ c :: t) := by rw [List.append_assoc, List.singleton_append]

theorem after_lt_append {t : Text} (s : Text) (h : t ≠ []) : after s < after (s ++ t) := by
  obtain ⟨c, t, rfl⟩ := List.exists_cons_of_ne_nil h
  calc after s < after (s ++ [c]) := after_lt_concat s c
    _ ≤ after (s ++ [c] ++ t) := after_le_append _ t
    _ = after (s ++ c :: t) := by rw [List.append_assoc, List.singleton_append]

/-! ## The position of an offset -/

variable {source : Text} {m n : Nat}

theorem ofOffset_size (a b : Text) : ofOffset (a ++ b) (Text.size a) = after a := by
  rw [ofOffset, before, Text.splitAtByte_size]
  exact congrArg after (if_pos rfl)

/-- An offset that is no boundary has the position of the end of the source. -/
theorem ofOffset_of_not_boundary (h : ¬ source.IsBoundary n) : ofOffset source n = after source := by
  have hsize : Text.size (Text.splitAtByte n source).1 ≠ n := fun he =>
    h ⟨_, _, (Text.splitAtByte_append n source).symm, he.symm⟩
  exact congrArg after (if_neg hsize)

/-- At the end of the source and beyond it, the position is that of the end. -/
theorem ofOffset_of_size_le (h : Text.size source ≤ n) : ofOffset source n = after source := by
  by_cases hb : source.IsBoundary n
  · obtain rfl : n = Text.size source := Nat.le_antisymm hb.le_size h
    have hend := ofOffset_size source []
    rwa [List.append_nil] at hend
  · exact ofOffset_of_not_boundary hb

/-- The positions of boundaries are in the order of their offsets. -/
theorem ofOffset_lt_of_boundary (hm : source.IsBoundary m) (hn : source.IsBoundary n) (h : m < n) :
    ofOffset source m < ofOffset source n := by
  obtain ⟨a, x, rfl, rfl⟩ := hm
  obtain ⟨b, y, hb, rfl⟩ := hn
  obtain ⟨c, rfl, rfl⟩ : ∃ c, b = a ++ c ∧ x = c ++ y := by
    rcases List.append_eq_append_iff.1 hb with ⟨c, hc, hx⟩ | ⟨c, rfl, -⟩
    · exact ⟨c, hc, hx⟩
    · rw [Text.size_append] at h
      omega
  have hne : c ≠ [] := by
    rintro rfl
    simp at h
  rw [ofOffset_size, ← List.append_assoc, ofOffset_size]
  exact after_lt_append a hne

/-- Only boundaries before the end of the source have a position before it. -/
theorem ofOffset_lt_after (hb : source.IsBoundary n) (hn : n < Text.size source) :
    ofOffset source n < after source := by
  have hlt := ofOffset_lt_of_boundary hb (Text.isBoundary_size source) hn
  rwa [ofOffset_of_size_le (Nat.le_refl (Text.size source))] at hlt

theorem ofOffset_le_after (source : Text) (n : Nat) : ofOffset source n ≤ after source := by
  by_cases h : source.IsBoundary n ∧ n < Text.size source
  · exact (ofOffset_lt_after h.1 h.2).le
  · rw [not_and_or, Nat.not_lt] at h
    exact (h.elim ofOffset_of_not_boundary ofOffset_of_size_le).le

/-- Of two offsets the later one has no earlier position, unless the first lies inside a character, whose
position is that of the end, and the second neither does so nor stands at the end.  Boundaries have
different positions, in the order of their offsets. -/
theorem ofOffset_le_iff (h : m ≤ n) :
    (ofOffset source m ≤ ofOffset source n ↔
      (source.Amid m → source.Amid n ∨ Text.size source ≤ n)) ∧
    (source.IsBoundary m → source.IsBoundary n → (ofOffset source m < ofOffset source n ↔ m < n)) := by
  refine ⟨?_, fun hm hn => ⟨fun hlt => ?_, ofOffset_lt_of_boundary hm hn⟩⟩
  · by_cases hn : source.IsBoundary n ∧ n < Text.size source
    · have hright : ¬ (source.Amid n ∨ Text.size source ≤ n) := by
        rintro (hamid | hge)
        · exact hamid.2 hn.1
        · exact absurd hn.2 (Nat.not_lt.2 hge)
      have hmsize : m < Text.size source := Nat.lt_of_le_of_lt h hn.2
      by_cases hm : source.IsBoundary m
      · have hle : ofOffset source m ≤ ofOffset source n := by
          rcases Nat.lt_or_eq_of_le h with hlt | rfl
          · exact (ofOffset_lt_of_boundary hm hn.1 hlt).le
          · exact le_refl _
        exact iff_of_true hle fun hamid => absurd hm hamid.2
      · have hlt : ofOffset source n < ofOffset source m := by
          rw [ofOffset_of_not_boundary hm]
          exact ofOffset_lt_after hn.1 hn.2
        exact iff_of_false (fun hle => (hlt.trans_le hle).false) fun hamid => hright (hamid ⟨hmsize, hm⟩)
    · have hend : ofOffset source n = after source := by
        rw [not_and_or, Nat.not_lt] at hn
        exact hn.elim ofOffset_of_not_boundary ofOffset_of_size_le
      refine iff_of_true (hend ▸ ofOffset_le_after source m) fun _ => ?_
      by_cases hge : Text.size source ≤ n
      · exact .inr hge
      · exact .inl ⟨Nat.not_le.1 hge, fun hb => hn ⟨hb, Nat.not_le.1 hge⟩⟩
  · refine Nat.lt_of_le_of_ne h ?_
    rintro rfl
    exact hlt.false

/-- A line break after a character of two bytes. -/
def broken : Text :=
  ['é', '\n', 'x']

theorem amid_broken : broken.Amid 1 := by
  refine ⟨by decide, ?_⟩
  rintro ⟨a, b, hs, hsize⟩
  cases a with
  | nil => exact nomatch hsize
  | cons c a =>
    obtain ⟨rfl, -⟩ := List.cons.inj hs
    have h2 : Char.utf8Size 'é' = 2 := rfl
    rw [Text.size_cons, h2] at hsize
    omega

theorem ofOffset_le_iff_broken :
    (1 ≤ 2 ∧ ¬ ofOffset broken 1 ≤ ofOffset broken 2) ∧
      (2 ≤ 3 ∧ ofOffset broken 2 < ofOffset broken 3) := by
  refine ⟨⟨by decide, fun hle => ?_⟩, by decide, ?_⟩
  · have h2 : broken.IsBoundary 2 := ⟨['é'], ['\n', 'x'], rfl, rfl⟩
    rcases (ofOffset_le_iff (by decide)).1.1 hle amid_broken with hamid | hge
    · exact hamid.2 h2
    · exact absurd hge (by decide)
  · exact ((ofOffset_le_iff (by decide)).2 ⟨['é'], ['\n', 'x'], rfl, rfl⟩
      ⟨['é', '\n'], ['x'], rfl, rfl⟩).2 (by decide)

/-- An offset inside the first character has a later position than the offset after it. -/
theorem ofOffset_broken : ¬ ∀ m n, m ≤ n → ofOffset broken m ≤ ofOffset broken n := by
  intro h
  have h₁ : ofOffset broken 1 = ⟨2, 2⟩ := by decide
  have h₂ : ofOffset broken 2 = ⟨1, 2⟩ := by decide
  have hle := h 1 2 (by decide)
  have hlt : ofOffset broken 2 < ofOffset broken 1 := by
    rw [h₁, h₂, lt_iff]
    exact .inl (by decide)
  exact (hlt.trans_le hle).false

end Position

end Stencil
