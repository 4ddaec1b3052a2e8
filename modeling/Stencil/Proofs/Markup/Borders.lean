import Stencil.Proofs.Markup.Insertion
/-!
Where markers are put in.

The borders of markup are the texts before which its escaping puts a marker in.  `Clear` says of a border
that it does not lie inside a part of a text.  Such a part is passed on as it stands (`Inserted.infix`).
-/

namespace Stencil

/-! ## Ranges -/

/-- No end of the range lies between byte `lo` and byte `hi`. -/
def ByteRange.Clear (r : ByteRange) (lo hi : Nat) : Prop :=
  (r.start ≤ lo ∨ hi ≤ r.start) ∧ (r.stop ≤ lo ∨ hi ≤ r.stop)

/-- A part of the text that no end of a range lies in is part of the outcome. -/
theorem Inserted.infix {ranges : List ByteRange} {n : Nat} {a t b out : Text}
    (h : Inserted ranges n (a ++ (t ++ b)) out)
    (ht : ∀ r ∈ ranges, r.Clear (n + Text.size a) (n + Text.size a + Text.size t)) : t <:+: out := by
  cases t with
  | nil => exact List.nil_infix
  | cons c t =>
    have hc := c.utf8Size_pos
    rw [Text.size_cons] at ht
    -- before the first character there may be markers, before the others there are none
    have hplain : strokesUpTo ranges (n + Text.size a + c.utf8Size) t = t.map Stroke.kept := by
      rw [← strokesUpTo_plain (n + Text.size a + c.utf8Size)]
      refine strokesUpTo_congr (fun m hm hm' => closings_of_ne fun r hr => ?_)
        fun m hm hm' => openings_of_ne fun r hr => ?_
      · have := (ht r hr).2
        omega
      · have := (ht r hr).1
        omega
    have hpart : c :: t <:+ Stroke.spelled (strokesUpTo ranges (n + Text.size a) (c :: t)) := by
      rw [strokesUpTo, hplain, Stroke.spelled_append, ← List.map_cons, Stroke.spelled_kept]
      exact List.suffix_append _ (c :: t)
    rw [← h.spelled, strokes, strokesUpTo_append, strokesUpTo_append, List.append_assoc, List.append_assoc,
      Stroke.spelled_append, Stroke.spelled_append]
    exact hpart.isInfix.trans (List.infix_append' _ _ _)

namespace Markup

variable {u b : Text} {m : Markup}

/-! ## Borders -/

/-- The texts before which a marker is put in, where `u` follows the markup. -/
def borders (u : Text) : Markup → List Text
  | nil => []
  | text _ rest => borders u rest
  | invocation t rest => (t ++ (rest.source ++ u)) :: (rest.source ++ u) :: borders u rest
  | definition body endTag rest =>
    let left := endTag ++ (rest.source ++ u)
    (if Text.allBlank body.source then [] else (body.source ++ left) :: left :: borders left body) ++
      borders u rest

@[simp] theorem borders_addText (u t : Text) (m : Markup) : borders u (addText t m) = borders u m := by
  unfold addText
  split <;> rfl

theorem borders_append (u : Text) (a m : Markup) :
    borders u (append a m) = borders (m.source ++ u) a ++ borders u m := by
  induction a with
  | nil => rfl
  | text t rest ih => rw [append, borders_addText, ih]; rfl
  | invocation t rest ih => simp [append, borders, ih]
  | definition body endTag rest _ ih => simp [append, borders, ih]

theorem mem_borders_definition {body rest : Markup} {endTag : Text}
    (h : b ∈ borders u (definition body endTag rest)) :
    b = body.source ++ (endTag ++ (rest.source ++ u)) ∨ b = endTag ++ (rest.source ++ u) ∨
      b ∈ borders (endTag ++ (rest.source ++ u)) body ∨ b ∈ borders u rest := by
  rw [borders, List.mem_append] at h
  rcases h with h | h
  · split at h
    · exact absurd h List.not_mem_nil
    · rw [List.mem_cons, List.mem_cons] at h
      exact h.imp_right fun h => h.imp_right .inl
  · exact .inr (.inr (.inr h))

/-- A border lies in the markup. -/
theorem suffix_of_mem_borders (h : b ∈ borders u m) : u <:+ b ∧ b <:+ m.source ++ u := by
  induction m generalizing u with
  | nil => exact absurd h List.not_mem_nil
  | text t rest ih =>
    obtain ⟨h₁, h₂⟩ := ih h
    exact ⟨h₁, h₂.trans (by simp [source])⟩
  | invocation t rest ih =>
    have hrest : rest.source ++ u <:+ (invocation t rest).source ++ u := by simp [source]
    rcases List.mem_cons.1 h with rfl | h
    · exact ⟨by simp [← List.append_assoc], by simp [source]⟩
    · rcases List.mem_cons.1 h with rfl | h
      · exact ⟨List.suffix_append _ _, hrest⟩
      · exact ⟨(ih h).1, (ih h).2.trans hrest⟩
  | definition body endTag rest ihb ih =>
    have hsource : (definition body endTag rest).source ++ u =
        body.source ++ (endTag ++ (rest.source ++ u)) := by simp [source]
    have hleft : endTag ++ (rest.source ++ u) <:+ (definition body endTag rest).source ++ u :=
      hsource ▸ List.suffix_append _ _
    have hrest : rest.source ++ u <:+ endTag ++ (rest.source ++ u) := List.suffix_append _ _
    have hu : u <:+ endTag ++ (rest.source ++ u) := (List.suffix_append _ _).trans hrest
    rcases mem_borders_definition h with rfl | rfl | h | h
    · exact ⟨hu.trans (List.suffix_append _ _), hsource ▸ List.suffix_rfl⟩
    · exact ⟨hu, hleft⟩
    · exact ⟨hu.trans (ihb h).1, hsource ▸ (ihb h).2⟩
    · exact ⟨(ih h).1, (ih h).2.trans (hrest.trans hleft)⟩

/-- At each end of a guarded range is a border. -/
theorem exists_border_of_mem_ranges {r : ByteRange} {n i : Nat} (h : r ∈ m.ranges n)
    (hi : i = r.start ∨ i = r.stop) (u : Text) :
    ∃ b ∈ borders u m, i + Text.size b = n + Text.size (m.source ++ u) := by
  induction m generalizing n u with
  | nil => exact absurd h List.not_mem_nil
  | text t rest ih =>
    obtain ⟨b, hb, he⟩ := ih h u
    refine ⟨b, hb, ?_⟩
    simp only [source, Text.size_append] at he ⊢
    omega
  | invocation t rest ih =>
    rcases List.mem_cons.1 h with rfl | h
    · rcases hi with rfl | rfl
      · exact ⟨_, List.mem_cons_self, by simp [source]⟩
      · exact ⟨_, List.mem_cons_of_mem _ List.mem_cons_self, by simp [source]; omega⟩
    · obtain ⟨b, hb, he⟩ := ih h u
      refine ⟨b, List.mem_cons_of_mem _ (List.mem_cons_of_mem _ hb), ?_⟩
      simp only [source, Text.size_append] at he ⊢
      omega
  | definition body endTag rest ihb ih =>
    rw [ranges, List.mem_append] at h
    rw [borders]
    rcases h with h | h
    · split at h
      · exact absurd h List.not_mem_nil
      · next hblank =>
        rw [if_neg hblank]
        rcases List.mem_cons.1 h with rfl | h
        · rcases hi with rfl | rfl
          · exact ⟨_, List.mem_append_left _ List.mem_cons_self, by simp [source]⟩
          · refine ⟨_, List.mem_append_left _ (List.mem_cons_of_mem _ List.mem_cons_self), ?_⟩
            simp [source]
            omega
        · obtain ⟨b, hb, he⟩ := ihb h (endTag ++ (rest.source ++ u))
          refine ⟨b, List.mem_append_left _ (List.mem_cons_of_mem _ (List.mem_cons_of_mem _ hb)), ?_⟩
          simp only [source, Text.size_append] at he ⊢
          omega
    · obtain ⟨b, hb, he⟩ := ih h u
      refine ⟨b, List.mem_append_right _ hb, ?_⟩
      simp only [source, Text.size_append] at he ⊢
      omega

/-! ## Borders inside a part of a text -/

theorem size_le_of_suffix {s x y : Text} (hx : x <:+ s) (hy : y <:+ s) (hl : x.length ≤ y.length) :
    Text.size x ≤ Text.size y := by
  obtain ⟨w, rfl⟩ := List.suffix_of_suffix_length_le hx hy hl
  rw [Text.size_append]
  omega

/-- The border `b` does not lie inside the text `t` that stands before `after`. -/
def Clear (t after b : Text) : Prop :=
  b.length ≤ after.length ∨ (t ++ after).length ≤ b.length

/-- A border inside a text divides it. -/
theorem clear_or_divides {before t after a b : Text} (h : before ++ (t ++ after) = a ++ b) :
    Clear t after b ∨
      ∃ x y, x ≠ [] ∧ y ≠ [] ∧ t = x ++ y ∧ a = before ++ x ∧ b = y ++ after := by
  unfold Clear
  rcases List.append_eq_append_iff.1 h with ⟨x, rfl, hx⟩ | ⟨x, rfl, rfl⟩
  · rcases List.append_eq_append_iff.1 hx with ⟨z, rfl, rfl⟩ | ⟨y, rfl, rfl⟩
    · exact .inl (.inl (by simp))
    · by_cases hx : x = []
      · exact .inl (.inr (by simp [hx]))
      · by_cases hy : y = []
        · exact .inl (.inl (by simp [hy]))
        · exact .inr ⟨x, y, hx, hy, rfl, rfl, rfl⟩
  · exact .inl (.inr (by simp))

/-- Where no border lies inside a part of a text, no end of a guarded range does. -/
theorem clear_of_borders {before t after : Text} {r : ByteRange}
    (hm : m.source = before ++ (t ++ after)) (h : ∀ b ∈ borders [] m, Clear t after b)
    (hr : r ∈ m.ranges 0) : r.Clear (Text.size before) (Text.size before + Text.size t) := by
  have key (i : Nat) (hi : i = r.start ∨ i = r.stop) :
      i ≤ Text.size before ∨ Text.size before + Text.size t ≤ i := by
    obtain ⟨b, hb, he⟩ := exists_border_of_mem_ranges hr hi []
    have hsuffix := (suffix_of_mem_borders hb).2
    rw [List.append_nil, hm] at hsuffix he
    simp only [Text.size_append] at he
    rcases h b hb with hl | hl
    · have := size_le_of_suffix hsuffix ((List.suffix_append t after).trans (List.suffix_append _ _)) hl
      omega
    · have := size_le_of_suffix (List.suffix_append _ _) hsuffix hl
      rw [Text.size_append] at this
      omega
  exact ⟨key r.start (.inl rfl), key r.stop (.inr rfl)⟩

end Markup

end Stencil
