import Stencil.Markup
import Stencil.Proofs.Text.Cut
/-!
Raw blocks in a text that goes on, and contents that a pair of markers holds.

`Reads` is what `readBody` finds, as a relation.  `Sealed` says of a content, without looking beyond it,
that its markers pair up and that none of its braces can run into a marker written after it.  That is
exactly what it takes for a guarded content to be read back whole (`read_guard_iff`).
-/

namespace Stencil.RawBlock

/-- The body of a block of `helper` at the head of a text, with `depth` inner blocks of that helper open:
its content, the text of its closing marker, and the rest. -/
inductive Reads (helper : Text) : Nat → Text → Text → Text → Text → Prop
  | close {depth : Nat} {s content r tail rest : Text} :
      Text.cut open4 s = some (content, r) → Text.cut close4 r = some (tail, rest) →
      depthAfter helper tail depth = none → Reads helper depth s content tail rest
  | inner {depth d : Nat} {s before r tag r' content tail rest : Text} :
      Text.cut open4 s = some (before, r) → Text.cut close4 r = some (tag, r') →
      depthAfter helper tag depth = some d → Reads helper d r' content tail rest →
      Reads helper depth s (before ++ open4 ++ tag ++ close4 ++ content) tail rest

variable {helper s content tail u x : Text} {depth : Nat}

theorem readBody_of_markers {before r tag r' : Text} (h : Text.cut open4 s = some (before, r))
    (h' : Text.cut close4 r = some (tag, r')) :
    readBody helper depth s =
      match depthAfter helper tag depth with
      | none => some (before, tag, r')
      | some d => (readBody helper d r').map fun p =>
          (before ++ open4 ++ tag ++ close4 ++ p.1, p.2.1, p.2.2) := by
  rw [readBody]
  split
  · next hn => simp [h] at hn
  · next hb =>
    simp only [h, Option.some.injEq, Prod.mk.injEq] at hb
    obtain ⟨rfl, rfl⟩ := hb
    split
    · next hn => simp [h'] at hn
    · next hb =>
      simp only [h', Option.some.injEq, Prod.mk.injEq] at hb
      obtain ⟨rfl, rfl⟩ := hb
      rfl

theorem readBody_eq_some_iff :
    readBody helper depth s = some (content, tail, u) ↔ Reads helper depth s content tail u := by
  constructor
  · intro h
    fun_induction readBody helper depth s generalizing content with
    | case1 => simp at h
    | case2 => simp at h
    | case3 depth s before r hc tag r' hc' hd =>
      simp only [Option.some.injEq, Prod.mk.injEq] at h
      obtain ⟨rfl, rfl, rfl⟩ := h
      exact .close hc hc' hd
    | case4 depth s before r hc tag r' hc' d hd ih =>
      obtain ⟨⟨c, t, v⟩, hp, he⟩ := Option.map_eq_some_iff.1 h
      simp only [Prod.mk.injEq] at he
      obtain ⟨rfl, rfl, rfl⟩ := he
      exact .inner hc hc' hd (ih hp)
  · intro h
    induction h with
    | close hc hc' hd => rw [readBody_of_markers hc hc', hd]
    | inner hc hc' hd _ ih =>
      rw [readBody_of_markers hc hc', hd]
      simp [ih]

/-! ## Text that goes on -/

theorem Reads.append_right (h : Reads helper depth s content tail u) (x : Text) :
    Reads helper depth (s ++ x) content tail (u ++ x) := by
  induction h with
  | close hc hc' hd => exact .close (Text.cut_append_right hc x) (Text.cut_append_right hc' x) hd
  | inner hc hc' hd _ ih =>
    exact .inner (Text.cut_append_right hc x) (Text.cut_append_right hc' x) hd ih

theorem Reads.eq (h : Reads helper depth s content tail u) :
    s = content ++ open4 ++ tail ++ close4 ++ u :=
  readBody_eq (readBody_eq_some_iff.2 h)

theorem Reads.of_append {y : Text} (h : Reads helper depth y content tail (u ++ x))
    (hy : y = s ++ x) : Reads helper depth s content tail u := by
  generalize hv : u ++ x = v at h
  induction h generalizing s with
  | close hc hc' hd =>
    subst hy hv
    have hr := Text.cut_eq hc'
    rw [← List.append_assoc] at hr
    rw [hr] at hc hc'
    exact .close (Text.cut_of_append hc) (Text.cut_of_append hc') hd
  | @inner depth d y before r tag r' content tail v hc hc' hd hb ih =>
    subst hy hv
    have hr' := hb.eq
    rw [← List.append_assoc] at hr'
    have hr := Text.cut_eq hc'
    rw [hr', ← List.append_assoc] at hr
    rw [hr] at hc
    rw [hr, hr'] at hc'
    exact .inner (Text.cut_of_append hc) (Text.cut_of_append hc') hd (ih hr' rfl)

/-- What it takes to read a block: an opening marker that names a helper, and the body of a block of
that helper. -/
theorem read_eq_some_iff {b : RawBlock} :
    read s = some (b, u) ↔ ∃ r r' name,
      Text.after? open4 s = some r ∧ Text.cut close4 r = some (b.head, r') ∧
        Text.firstWord b.head = some name ∧ name.head? ≠ some '/' ∧
        Reads name 0 r' b.content b.tail u := by
  unfold read
  constructor
  · intro h
    split at h
    · simp at h
    · next r hr =>
      split at h
      · simp at h
      · next head r' hc =>
        split at h
        · simp at h
        · simp at h
        · next name hns hw =>
          obtain ⟨⟨c, t, v⟩, hp, he⟩ := Option.map_eq_some_iff.1 h
          simp only [Prod.mk.injEq] at he
          obtain ⟨rfl, rfl⟩ := he
          refine ⟨r, r', name, hr, hc, hw, ?_, readBody_eq_some_iff.1 hp⟩
          cases name with
          | nil => simp
          | cons d n =>
            intro hd
            simp only [List.head?_cons, Option.some.injEq] at hd
            exact hns n (by rw [hd])
  · rintro ⟨r, r', name, hr, hc, hw, hns, hb⟩
    rw [hr]
    simp only [hc, hw]
    split
    · next hn => simp at hn
    · next n hn =>
      obtain rfl := Option.some.inj hn
      simp at hns
    · next hn =>
      obtain rfl := Option.some.inj hn
      rw [readBody_eq_some_iff.2 hb]
      rfl

theorem read_append_right {b : RawBlock} (h : read s = some (b, u)) (x : Text) :
    read (s ++ x) = some (b, u ++ x) := by
  obtain ⟨r, r', name, hr, hc, hw, hns, hb⟩ := read_eq_some_iff.1 h
  exact read_eq_some_iff.2 ⟨r ++ x, r' ++ x, name, Text.after?_append_right hr x,
    Text.cut_append_right hc x, hw, hns, hb.append_right x⟩

theorem read_of_append {b : RawBlock} (h : read (s ++ x) = some (b, u ++ x)) :
    read s = some (b, u) := by
  obtain ⟨r, r', name, hr, hc, hw, hns, hb⟩ := read_eq_some_iff.1 h
  have hr' := hb.eq
  rw [← List.append_assoc] at hr'
  have he := Text.cut_eq hc
  rw [hr', ← List.append_assoc] at he
  rw [he] at hr
  rw [he, hr'] at hc
  exact read_eq_some_iff.2 ⟨_, _, name, Text.after?_of_append hr, Text.cut_of_append hc, hw, hns,
    hb.of_append hr'⟩

theorem read_none_of_append (h : read (s ++ x) = none) : read s = none := by
  cases hs : read s with
  | none => rfl
  | some p => simp [read_append_right hs] at h

/-! ## Sealed contents -/

/-- The markers of a content, read from its head with `depth` blocks open, lie within it, close no block
that is not opened in it and leave none open; and it does not end in an opening brace. -/
inductive Sealed (helper : Text) : Nat → Text → Prop
  | plain {s : Text} : Text.cut open4 s = none → s.getLast? ≠ some '{' → Sealed helper 0 s
  | marker {depth d : Nat} {s before r tag r' : Text} :
      Text.cut open4 s = some (before, r) → Text.cut close4 r = some (tag, r') →
      depthAfter helper tag depth = some d → Sealed helper d r' → Sealed helper depth s

/-- No marker begins in a text without a marker and without a brace at its end. -/
theorem cut_open4_append_left (h : Text.cut open4 s = none) (hl : s.getLast? ≠ some '{') (x : Text) :
    Text.cut open4 (s ++ x) = (Text.cut open4 x).map fun p => (s ++ p.1, p.2) := by
  induction s with
  | nil => simp
  | cons c s ih =>
    have hr : Text.cut open4 s = none :=
      Text.cut_eq_none_iff.2 fun a b he => Text.cut_eq_none_iff.1 h (c :: a) b (by rw [he]; rfl)
    have hlast : s.getLast? ≠ some '{' := by
      intro hs
      rw [List.getLast?_cons, hs] at hl
      exact hl rfl
    have hopen : Text.after? open4 (c :: s ++ x) = none := by
      cases ha : Text.after? open4 (c :: s ++ x) with
      | none => rfl
      | some u =>
        rcases List.append_eq_append_iff.1 (Text.after?_eq ha) with ⟨v, hv, -⟩ | ⟨v, hv, -⟩
        -- the text would be the beginning of a marker, which has braces only
        · obtain ⟨d, hd⟩ : ∃ d, (c :: s).getLast? = some d := ⟨_, List.getLast?_cons⟩
          have hmem : d ∈ open4 := hv ▸ List.mem_append_left v (List.mem_of_getLast? hd)
          have : d = '{' := by simpa [open4] using hmem
          exact absurd (this ▸ hd) hl
        · exact absurd hv (Text.cut_eq_none_iff.1 h [] v)
    rw [List.cons_append, Text.cut, ← List.cons_append, hopen, ih hr hlast, Option.map_map]
    rfl

/-- A text without a marker and without a brace at its end is cut off by the marker that follows. -/
theorem cut_open4_append (h : Text.cut open4 s = none) (hl : s.getLast? ≠ some '{') (x : Text) :
    Text.cut open4 (s ++ open4 ++ x) = some (s, x) := by
  rw [List.append_assoc, cut_open4_append_left h hl]
  simp [Text.cut, open4, Text.after?]

theorem cut_close4_protector (x : Text) :
    Text.cut close4 (protector ++ close4 ++ x) = some (protector, x) :=
  Text.cut_append_right (show Text.cut close4 (protector ++ close4) = some (protector, []) by decide) x

theorem cut_close4_closer (x : Text) :
    Text.cut close4 ('/' :: protector ++ close4 ++ x) = some ('/' :: protector, x) :=
  Text.cut_append_right
    (show Text.cut close4 ('/' :: protector ++ close4) = some ('/' :: protector, []) by decide) x

theorem depthAfter_closer (depth : Nat) :
    depthAfter protector ('/' :: protector) depth =
      match depth with
      | 0 => none
      | d + 1 => some d := by
  have ht : Text.trim ('/' :: protector) = '/' :: protector := by decide
  have hp : Text.trim protector = protector := by decide
  cases depth <;> simp [depthAfter, ht, hp]

theorem closing_append (s x : Text) :
    s ++ closing ++ x = s ++ open4 ++ ('/' :: protector ++ close4 ++ x) := by
  simp [closing]

theorem Sealed.reads (h : Sealed protector depth s) (x : Text) :
    Reads protector depth (s ++ closing ++ x) s ('/' :: protector) x := by
  induction h with
  | plain h hl =>
    rw [closing_append]
    exact .close (cut_open4_append h hl _) (cut_close4_closer x) (depthAfter_closer 0)
  | @marker depth d s before r tag r' hc hc' hd _ ih =>
    have hr := Text.cut_eq hc
    rw [Text.cut_eq hc'] at hr
    have he : s = before ++ open4 ++ tag ++ close4 ++ r' := by simp [hr]
    have hb := Reads.inner (Text.cut_append_right hc (closing ++ x))
      (Text.cut_append_right hc' (closing ++ x)) hd (by rwa [← List.append_assoc])
    rw [← he] at hb
    rwa [List.append_assoc]

theorem Reads.isSealed {y : Text} (h : Reads protector depth y s tail u)
    (hy : y = s ++ closing ++ x) :
    Sealed protector depth s ∧ tail = '/' :: protector ∧ u = x := by
  induction h with
  | @close depth y s r tail u hc hc' hd =>
    rw [hy, closing_append] at hc
    have hr : '/' :: protector ++ close4 ++ x = r := List.append_cancel_left (Text.cut_eq hc)
    rw [← hr, cut_close4_closer] at hc'
    simp only [Option.some.injEq, Prod.mk.injEq] at hc'
    obtain ⟨rfl, rfl⟩ := hc'
    refine ⟨?_, rfl, rfl⟩
    rw [depthAfter_closer] at hd
    cases depth with
    | succ d => simp at hd
    | zero =>
      refine .plain (Text.cut_eq_none_iff.2 fun a b he => ?_) fun hl => ?_
      · have := Text.cut_first hc (a := a) (b := b ++ open4 ++ ('/' :: protector ++ close4 ++ x))
          (by rw [he]; simp)
        have := congrArg List.length he
        simp only [List.length_append, open4, List.length_cons] at this
        omega
      · obtain ⟨a, rfl⟩ := List.getLast?_eq_some_iff.1 hl
        have := Text.cut_first hc (a := a) (b := '{' :: ('/' :: protector ++ close4 ++ x))
          (by simp [open4])
        simp only [List.length_append, List.length_cons] at this
        omega
  | @inner depth d y before r tag r' s tail u hc hc' hd hb ih =>
    have hr := Text.cut_eq hc
    rw [Text.cut_eq hc', hy] at hr
    have hr' : s ++ closing ++ x = r' := by
      refine @List.append_cancel_left _ (before ++ open4 ++ tag ++ close4) _ _ ?_
      rw [show before ++ open4 ++ tag ++ close4 ++ r' = before ++ open4 ++ (tag ++ close4 ++ r') by
        simp, ← hr]
      simp
    obtain ⟨hs, ht, hu⟩ := ih hr'.symm
    subst hy
    have hc₁ : Text.cut open4 (before ++ open4 ++ tag ++ close4 ++ s ++ (closing ++ x)) =
        some (before, tag ++ close4 ++ s ++ (closing ++ x)) := by
      rw [← List.append_assoc, hc, Text.cut_eq hc', ← hr']
      simp
    have hc₂ : Text.cut close4 (tag ++ close4 ++ s ++ (closing ++ x)) =
        some (tag, s ++ (closing ++ x)) := by
      rw [← List.append_assoc s, hr', ← hc', Text.cut_eq hc', ← hr']
      simp
    exact ⟨.marker (Text.cut_of_append hc₁) (Text.cut_of_append hc₂) hd hs, ht, hu⟩

/-- A guarded content is read back whole exactly if it is sealed. -/
theorem read_guard_iff {b : RawBlock} :
    read (Markup.guard s ++ x) = some (b, u) ∧ b.content = s ↔
      Sealed protector 0 s ∧ b = ⟨protector, s, '/' :: protector⟩ ∧ u = x := by
  have hr : Text.after? open4 (Markup.guard s ++ x) =
      some (protector ++ close4 ++ (s ++ closing ++ x)) := by
    have : Markup.guard s ++ x = open4 ++ (protector ++ close4 ++ (s ++ closing ++ x)) := by
      simp [Markup.guard, opening]
    rw [this, Text.after?_append]
  have hw : Text.firstWord protector = some protector := by decide
  constructor
  · rintro ⟨h, rfl⟩
    obtain ⟨r, r', name, hr₁, hc, hn, -, hb⟩ := read_eq_some_iff.1 h
    rw [hr, Option.some.injEq] at hr₁
    rw [← hr₁, cut_close4_protector] at hc
    simp only [Option.some.injEq, Prod.mk.injEq] at hc
    rw [← hc.1, hw, Option.some.injEq] at hn
    subst hn
    obtain ⟨hs, ht, hu⟩ := hb.isSealed hc.2.symm
    refine ⟨hs, ?_, hu⟩
    rw [← ht, hc.1]
  · rintro ⟨hs, rfl, rfl⟩
    exact ⟨read_eq_some_iff.2 ⟨_, _, protector, hr, cut_close4_protector _, hw, by decide,
      hs.reads u⟩, rfl⟩

end Stencil.RawBlock
