import Stencil.Proofs.Markup.Reads
import Stencil.Proofs.Syntax.RawBlock
/-!
Reading a part of a markup.

A body and the tag after it are read as one text.  When the reader is done with the body just where the
tag begins, it reads the body on its own in the same way.  The tag begins with `<`, which no reader of
the parts takes for the end of what it reads.
-/

namespace Stencil.Markup

variable {s t u x y : Text}

/-! ## Parts of a tag -/

theorem attributeName_of_append (h : attributeName (s ++ '<' :: y) = (t, u ++ '<' :: y)) :
    attributeName s = (t, u) := by
  fun_induction attributeName s generalizing t with
  | case1 =>
    have hl := attributeName_rest_lt ('<' :: y) (by simp [attributeName, Text.isAsciiBlank])
    rw [← List.nil_append ('<' :: y), h] at hl
    simp only [List.length_append, List.length_cons, List.length_nil] at hl
    omega
  | case2 r =>
    simp only [List.cons_append, attributeName, Prod.mk.injEq] at h
    have hu : '/' :: '>' :: r = u := List.append_cancel_right h.2
    rw [← h.1, ← hu]
  | case3 c r hc hstop =>
    have hstop' : attributeName (c :: (r ++ '<' :: y)) = ([], c :: (r ++ '<' :: y)) := by
      unfold attributeName
      split
      · next he => simp at he
      · next he => rw [← he]
      · next he =>
        obtain ⟨rfl, rfl⟩ := List.cons.inj he
        rw [if_pos hstop]
    rw [List.cons_append, hstop', Prod.mk.injEq] at h
    have hu : c :: r = u := List.append_cancel_right h.2
    rw [← h.1, ← hu]
  | case4 c r hc hgo ih =>
    rw [List.cons_append] at h
    unfold attributeName at h
    split at h
    · next he => simp at he
    · next r' he =>
      obtain ⟨rfl, he'⟩ := List.cons.inj he
      cases r with
      | nil => simp at he'
      | cons d r =>
        obtain ⟨rfl, -⟩ := List.cons.inj he'
        exact absurd rfl (hc r rfl)
    · next he =>
      obtain ⟨rfl, rfl⟩ := List.cons.inj he
      rw [if_neg hgo, Prod.mk.injEq] at h
      rw [← h.1, ih (Prod.ext rfl h.2)]

theorem bareValue_rest_ne (u y : Text) : (bareValue ('<' :: y)).2 ≠ u ++ '<' :: y := by
  intro h
  have hr : (bareValue ('<' :: y)).2 = (bareValue y).2 := by
    rw [bareValue]
    · simp [Text.isAsciiBlank]
    · simp
  have hl := congrArg List.length (bareValue_eq y)
  rw [← hr, h] at hl
  simp only [List.length_append, List.length_cons] at hl
  omega

theorem bareValue_of_append (h : bareValue (s ++ '<' :: y) = (t, u ++ '<' :: y)) :
    bareValue s = (t, u) := by
  fun_induction bareValue s generalizing t with
  | case1 => exact absurd (congrArg Prod.snd h) (bareValue_rest_ne u y)
  | case2 r p =>
    rename_i q ih
    rw [List.cons_append, List.cons_append, bareValue] at h
    simp only [Prod.mk.injEq] at h
    have hv := bareValue_eq (Text.through close2 (r ++ '<' :: y)).2
    rw [h.2, ← List.append_assoc] at hv
    have hp : p = ((Text.through close2 (r ++ '<' :: y)).1,
        (bareValue (Text.through close2 (r ++ '<' :: y)).2).1 ++ u) :=
      Text.through_of_append (by simp) (Prod.ext rfl hv.symm)
    have hq := ih (t := (bareValue (Text.through close2 (r ++ '<' :: y)).2).1)
      (by rw [hp]; simp only; rw [hv]; exact Prod.ext rfl h.2)
    rw [← h.1, show q = _ from hq, hp]
  | case3 c r hc hstop =>
    have hstop' : bareValue (c :: (r ++ '<' :: y)) = ([], c :: (r ++ '<' :: y)) := by
      rw [bareValue, if_pos hstop]
      rintro r' rfl -
      simp [Text.isAsciiBlank] at hstop
    rw [List.cons_append, hstop', Prod.mk.injEq] at h
    have hu : c :: r = u := List.append_cancel_right h.2
    rw [← h.1, ← hu]
  | case4 c r hc hgo ih =>
    have hgo' : bareValue (c :: (r ++ '<' :: y)) =
        (c :: (bareValue (r ++ '<' :: y)).1, (bareValue (r ++ '<' :: y)).2) := by
      rw [bareValue, if_neg hgo]
      rintro r' rfl he
      cases r with
      | nil => simp at he
      | cons d r =>
        obtain ⟨rfl, -⟩ := List.cons.inj he
        exact hc r rfl rfl
    rw [List.cons_append, hgo', Prod.mk.injEq] at h
    rw [← h.1, ih (Prod.ext rfl h.2)]

theorem value?_of_append {v : Value} (h : value? (s ++ '<' :: y) = some v)
    (hv : v.rest = u ++ '<' :: y) : value? s = some { v with rest := u } := by
  cases s with
  | nil =>
    simp only [List.nil_append, value?] at h
    obtain rfl := Option.some.inj h
    exact absurd hv (bareValue_rest_ne u y)
  | cons c r =>
    rw [List.cons_append] at h
    unfold value? at h ⊢
    simp only at h ⊢
    split at h
    · next hq =>
      obtain ⟨⟨a, b⟩, hp, rfl⟩ := Option.map_eq_some_iff.1 h
      simp only at hv
      rw [if_pos hq]
      rw [hv] at hp
      rw [Text.cut_of_append hp]
      rfl
    · next hq =>
      obtain rfl := Option.some.inj h
      rw [if_neg hq, bareValue_of_append (s := c :: r) (Prod.ext rfl hv)]
      rfl

theorem AtAttribute.of_append (h : AtAttribute (s ++ x)) : AtAttribute s := by
  refine ⟨fun r hr => h.1 (r ++ x) ?_, fun r hr => h.2.1 (r ++ x) ?_, fun r hr => h.2.2 (r ++ x) ?_⟩ <;>
    rw [hr] <;> rfl

theorem StartTag.Reads.eq {element : Text} {t : StartTag} (h : StartTag.Reads element s t) :
    s = t.pieces.source ++ t.rest :=
  readAttributes_eq (readAttributes_ok_iff.2 h)

theorem StartTag.Reads.of_append {element z : Text} {t : StartTag} (h : StartTag.Reads element z t)
    (hz : z = s ++ '<' :: y) (hr : t.rest = u ++ '<' :: y) :
    StartTag.Reads element s { t with rest := u } := by
  induction h generalizing s with
  | @close z b r hb =>
    subst hz
    obtain rfl : r = u ++ '<' :: y := hr
    exact .close (Text.run_of_append (u := '>' :: u) hb)
  | @closeSelf z b r hb =>
    subst hz
    obtain rfl : r = u ++ '<' :: y := hr
    exact .closeSelf (Text.run_of_append (u := '/' :: '>' :: u) hb)
  | @mustache z b r t r' v hb ht hv ih =>
    subst hz
    have h₁ := hv.eq
    rw [hr, ← List.append_assoc] at h₁
    have h₂ := Text.eq_of_through ht
    rw [h₁, ← List.append_assoc] at h₂
    rw [h₂] at hb ht
    rw [h₁] at ht
    exact .mustache (Text.run_of_append (u := '{' :: '{' :: _) hb) (Text.through_of_append (by simp) ht)
      (ih h₁ hr)
  | @stray z b r r' c v hb ha hn hv ih =>
    subst hz
    have h₁ := hv.eq
    rw [hr, ← List.append_assoc] at h₁
    have h₂ := eq_of_attributeName hn
    rw [h₁, List.nil_append, ← List.cons_append] at h₂
    rw [h₁, ← List.cons_append] at hb ha hn
    rw [← h₂] at hn
    exact .stray (Text.run_of_append hb) ha.of_append (attributeName_of_append hn) (ih h₁ hr)
  | @valued z b w name r gap sign gap' r' v pieces t hb ha hn hne hg hg' hv hp ht ih =>
    subst hz
    have h₁ := ht.eq
    rw [hr, ← List.append_assoc] at h₁
    have h₂ := value?_eq hv
    rw [h₁, ← List.append_assoc] at h₂
    have h₃ := Text.eq_of_run hg'
    rw [h₂, ← List.append_assoc] at h₃
    have h₄ := Text.eq_of_run hg
    rw [h₃, ← List.cons_append, ← List.append_assoc] at h₄
    have h₅ := eq_of_attributeName hn
    rw [h₄, ← List.append_assoc] at h₅
    rw [h₅] at hb ha hn
    rw [h₄] at hn hg
    rw [h₃] at hg hg'
    rw [h₂] at hg' hv
    exact .valued (Text.run_of_append hb) ha.of_append (attributeName_of_append hn) hne
      (Text.run_of_append (u := '=' :: _) hg) (Text.run_of_append hg') (value?_of_append hv h₁) hp
      (ih h₁ hr)
  | @bare z b w name r t hb ha hn hne hg ht ih =>
    subst hz
    have h₁ := ht.eq
    rw [hr, ← List.append_assoc] at h₁
    have h₂ := eq_of_attributeName hn
    rw [h₁, ← List.append_assoc] at h₂
    rw [h₂] at hb ha hn
    rw [h₁] at hn
    refine .bare (Text.run_of_append hb) ha.of_append (attributeName_of_append hn) hne
      (fun sign hs => ?_)
      (ih h₁ hr)
    have := Text.run_append_right (Prod.ext rfl hs) ('<' :: y)
    rw [← h₁] at this
    exact hg _ (congrArg Prod.snd this)

theorem readStartTag_of_append {name : Text} {t : StartTag} (hs : s ≠ [])
    (h : readStartTag (s ++ '<' :: y) = .ok (some (name, t))) (hr : t.rest = u ++ '<' :: y) :
    readStartTag s = .ok (some (name, { t with rest := u })) := by
  obtain ⟨c, s, rfl⟩ := List.exists_cons_of_ne_nil hs
  obtain ⟨n, r, v, hn, hname, hv, rfl⟩ := readStartTag_ok_iff.1 h
  have h₁ := hv.eq
  rw [show v.rest = _ from hr, ← List.append_assoc] at h₁
  rw [List.cons_append, List.drop_one, List.tail_cons, h₁] at hn
  exact readStartTag_ok_iff.2 ⟨n, _, _, Text.run_of_append hn, hname, hv.of_append h₁ hr, rfl⟩

theorem opensTag_append (hs : s ≠ []) (y : Text) : opensTag (s ++ '<' :: y) = opensTag s := by
  match s, hs with
  | [c], _ =>
    by_cases hc : c = '<'
    · subst hc
      rfl
    · simp [opensTag, hc]
  | c :: d :: r, _ =>
    by_cases hc : c = '<'
    · subst hc
      rfl
    · simp [opensTag, hc]

/-! ## End tags -/

theorem isEndTag_append {name : Text} (h : name.length + 2 < s.length) (x : Text) :
    isEndTag name (s ++ x) = isEndTag name s := by
  match s, h with
  | a :: b :: r, h =>
    have hr : name.length ≤ r.length := by
      simp only [List.length_cons] at h
      omega
    unfold isEndTag
    by_cases hab : '<' = a ∧ '/' = b
    · obtain ⟨rfl, rfl⟩ := hab
      obtain ⟨d, w, hd⟩ := List.exists_cons_of_ne_nil (l := r.drop name.length) (by simp at h ⊢; omega)
      simp only [List.cons_append, Text.after?, ↓reduceIte, List.take_append_of_le_length hr,
        List.drop_append_of_le_length hr, hd]
    · by_cases ha : '<' = a
      · have hb : '/' ≠ b := fun hb => hab ⟨ha, hb⟩
        simp [Text.after?, hb]
      · simp [Text.after?, ha]

/-- An end tag that begins before a `<` ends before it. -/
theorem length_of_isEndTag {name : Text} (hname : '<' ∉ name) (hs : s ≠ [])
    (h : isEndTag name (s ++ '<' :: y) = true) : name.length + 2 < s.length := by
  match s, hs with
  | [a], _ => simp [isEndTag, Text.after?] at h
  | a :: b :: r, _ =>
    rw [List.length_cons, List.length_cons]
    refine Nat.add_lt_add_right (Nat.lt_of_not_le fun hle => ?_) 2
    unfold isEndTag at h
    split at h
    · simp at h
    · next w hw =>
      have hw' : w = r ++ '<' :: y := by
        have := Text.after?_eq hw
        simp only [List.cons_append, List.nil_append, List.cons.injEq] at this
        exact this.2.2.symm
      subst hw'
      rw [Bool.and_eq_true, decide_eq_true_eq] at h
      rcases Nat.lt_or_eq_of_le hle with hlt | heq
      -- the name would go on over the `<`
      · refine hname ?_
        rw [← h.1, List.take_append, List.take_of_length_le hle, Text.lowerAscii, List.mem_map]
        obtain ⟨k, hk⟩ : ∃ k, name.length - r.length = k + 1 := ⟨name.length - r.length - 1, by omega⟩
        exact ⟨'<', by simp [hk], by decide⟩
      · rw [← heq, List.drop_left] at h
        simp [Text.isAsciiBlank] at h

theorem rawText_rest (name s : Text) :
    (rawText name s).2 = [] ∨ isEndTag name (rawText name s).2 = true := by
  fun_induction rawText name s with
  | case1 => exact .inl rfl
  | case2 c r he => exact .inr he
  | case3 c r he ih => exact ih

theorem rawText_of_append {name : Text} (hname : '<' ∉ name) (hx : isEndTag name ('<' :: y) = false)
    (h : rawText name (s ++ '<' :: y) = (t, u ++ '<' :: y)) : rawText name s = (t, u) := by
  induction s generalizing t with
  | nil =>
    have hl := rawText_rest_length name y
    rw [List.nil_append, rawText, if_neg (by simp [hx]), Prod.mk.injEq] at h
    rw [h.2] at hl
    simp only [List.length_append, List.length_cons] at hl
    omega
  | cons c r ih =>
    rw [List.cons_append, rawText] at h
    by_cases he : isEndTag name (c :: (r ++ '<' :: y)) = true
    · rw [if_pos he, Prod.mk.injEq] at h
      have hu : c :: r = u := List.append_cancel_right h.2
      have he' : isEndTag name (c :: r) = true := by
        rwa [← isEndTag_append (length_of_isEndTag hname (by simp) he) ('<' :: y)]
      rw [rawText, if_pos he', ← h.1, hu]
    · rw [if_neg he, Prod.mk.injEq] at h
      have hr : rawText name (r ++ '<' :: y) = ((rawText name (r ++ '<' :: y)).1, u ++ '<' :: y) :=
        Prod.ext rfl h.2
      have hrest := rawText_rest name (r ++ '<' :: y)
      rw [h.2] at hrest
      have hu : u ≠ [] := by
        rintro rfl
        simp [hx] at hrest
      have hl := length_of_isEndTag hname hu (hrest.resolve_left (by simp))
      have hlr := rawText_rest_length name r
      simp only [ih hr] at hlr
      have hl' : name.length + 2 < (c :: r).length := by
        rw [List.length_cons]
        omega
      rw [rawText, if_neg (by rw [← isEndTag_append hl']; exact he), ih hr, ← h.1]

theorem plainContent_of_append {name : Text}
    (hx : name ∈ rawTextElements → isEndTag name ('<' :: y) = false)
    (h : plainContent name (s ++ '<' :: y) = (t, u ++ '<' :: y)) : plainContent name s = (t, u) := by
  have hraw : ∀ n ∈ rawTextElements, '<' ∉ n := by decide
  unfold plainContent at h ⊢
  split at h
  · next hn =>
    rw [if_pos hn]
    exact rawText_of_append (hraw name (by simpa using hn)) (hx (by simpa using hn)) h
  · next hn =>
    rw [Prod.mk.injEq] at h
    rw [if_neg hn, h.1, List.append_cancel_right h.2]

/-! ## Markup -/

theorem through_after_of_append {mark close r : Text} (hx : x ≠ [])
    (hr : Text.after? mark (s ++ x) = some r)
    (h : (mark ++ (Text.through close r).1, (Text.through close r).2) = (t, u ++ x)) :
    ∃ w, Text.after? mark s = some w ∧
      (mark ++ (Text.through close w).1, (Text.through close w).2) = (t, u) := by
  rw [Prod.mk.injEq] at h
  have hw : r = (Text.through close r).1 ++ u ++ x := by
    rw [List.append_assoc, ← h.2, Text.through_eq]
  rw [hw] at hr
  have ht : Text.through close ((Text.through close r).1 ++ u) = ((Text.through close r).1, u) :=
    Text.through_of_append hx (by rw [← hw, ← h.2])
  exact ⟨_, Text.after?_of_append hr, by rw [ht, h.1]⟩

theorem verbatim?_of_append (hx : x ≠ []) (h : verbatim? (s ++ x) = some (t, u ++ x)) :
    verbatim? s = some (t, u) := by
  unfold verbatim? at h ⊢
  split at h
  · next r hr =>
    split at h
    · next b rest hb =>
      simp only [Option.some.injEq, Prod.mk.injEq] at h
      rw [h.2] at hb
      have hb' := RawBlock.read_of_append hb
      obtain ⟨w, -, -, hw, -⟩ := RawBlock.read_eq_some_iff.1 hb'
      simp only [hw, hb', h.1]
    · next hn =>
      obtain ⟨w, hw, he⟩ := through_after_of_append hx hr (Option.some.inj h)
      simp only [hw, RawBlock.read_none_of_append hn, he]
  · next hn =>
    rw [Text.after?_none_of_append hn]
    simp only
    split at h
    · next r hr =>
      obtain ⟨w, hw, he⟩ := through_after_of_append hx hr (Option.some.inj h)
      simp only [hw, he]
    · next hn' =>
      rw [Text.after?_none_of_append hn']
      obtain ⟨r, hr, h⟩ := Option.map_eq_some_iff.1 h
      obtain ⟨w, hw, he⟩ := through_after_of_append hx hr h
      simp only [hw, Option.map_some, he]

theorem verbatim?_none_of_append (h : verbatim? (s ++ x) = none) : verbatim? s = none := by
  unfold verbatim? at h ⊢
  split at h
  · split at h <;> simp at h
  · next hn =>
    rw [Text.after?_none_of_append hn]
    simp only
    split at h
    · simp at h
    · next hn' =>
      rw [Text.after?_none_of_append hn']
      simp only [Option.map_eq_none_iff] at h ⊢
      exact Text.after?_none_of_append h

theorem Reads.eq {tag : Text} {inside : Bool} {m : Markup} (h : Reads tag inside s m u) :
    s = m.source ++ u := by
  obtain ⟨p, hp, he⟩ := Except.map_eq_ok_iff.1 (read_ok_iff.2 h)
  have := read_eq hp
  rwa [he] at this

theorem Reads.eq_append {tag : Text} {inside : Bool} {m : Markup} (h : Reads tag inside s m (u ++ x)) :
    s = m.source ++ u ++ x := by
  rw [h.eq, List.append_assoc]

/-- What is left of a text begins with the end tag of the body that is read. -/
theorem Reads.rest {tag : Text} {inside : Bool} {m : Markup} (h : Reads tag inside s m u) :
    u = [] ∨ isEndTag tag u = true := by
  induction h with
  | done => exact .inl rfl
  | stop _ he => exact .inr he
  | unended _ _ => exact .inl rfl
  | verbatim _ _ ih => exact ih
  | single _ _ _ _ ih => exact ih
  | template _ _ _ _ _ _ _ ih => exact ih
  | element _ _ _ _ _ _ ih => exact ih
  | char _ _ _ _ ih => exact ih

theorem Reads.inside_of_rest {tag : Text} {inside : Bool} {m : Markup} (h : Reads tag inside s m u)
    (hu : u ≠ []) : inside = true := by
  induction h with
  | done => exact absurd rfl hu
  | stop _ _ => rfl
  | unended _ _ => exact absurd rfl hu
  | verbatim _ _ ih => exact ih hu
  | single _ _ _ _ ih => exact ih hu
  | template _ _ _ _ _ _ _ ih => exact ih hu
  | element _ _ _ _ _ _ ih => exact ih hu
  | char _ _ _ _ ih => exact ih hu

/-- Where a text that goes on has no end tag, the part that is longer than what is left has none. -/
theorem Reads.not_isEndTag_of_append {tag r : Text} {inside : Bool} {m : Markup}
    (hm : Reads tag inside r m (u ++ '<' :: y)) (htag : '<' ∉ tag) (hl : u.length < s.length)
    (h : (inside && isEndTag tag (s ++ '<' :: y)) = false) : (!u.isEmpty && isEndTag tag s) = false := by
  by_cases hu : u = []
  · rw [hu]
    rfl
  · rw [hm.inside_of_rest (by simp), Bool.true_and] at h
    have := length_of_isEndTag htag hu (hm.rest.resolve_left (by simp))
    rw [← isEndTag_append (by omega) ('<' :: y), h, Bool.and_false]

/-- The start tag of a part that is longer than what is left of it is read as it is read in the text that
goes on. -/
theorem AtStartTag.of_append {tag name r : Text} {inside : Bool} {m : Markup} {t : StartTag}
    (ha : AtStartTag tag inside (s ++ '<' :: y))
    (ht : readStartTag (s ++ '<' :: y) = .ok (some (name, t))) (hrest : t.rest = x ++ u ++ '<' :: y)
    (hm : Reads tag inside r m (u ++ '<' :: y)) (htag : '<' ∉ tag) :
    AtStartTag tag (!u.isEmpty) s ∧ readStartTag s = .ok (some (name, { t with rest := x ++ u })) := by
  have hl : u.length < s.length := by
    have hlt := readStartTag_rest_length ha.2.2 ht
    rw [hrest] at hlt
    simp only [List.length_append] at hlt
    omega
  have hs : s ≠ [] := List.length_pos_iff.1 (by omega)
  refine ⟨⟨verbatim?_none_of_append ha.1, hm.not_isEndTag_of_append htag hl ha.2.1, ?_⟩,
    readStartTag_of_append hs ht hrest⟩
  rw [← opensTag_append hs y]
  exact ha.2.2

theorem through_fst_ne_nil {mark : Text} (hm : mark ≠ []) (hs : s ≠ []) :
    (Text.through mark s).1 ≠ [] := by
  unfold Text.through
  split
  · simp [hm]
  · exact hs

/-- A part of a text that is read up to the point where the rest, which begins with `<`, is left over, is
read in the same way on its own; inside a body only if something of the part is left over with it. -/
theorem Reads.of_append {tag z w : Text} {inside : Bool} {m : Markup} (h : Reads tag inside z m w)
    (htag : '<' ∉ tag)
    (hraw : ∀ name ∈ rawTextElements, name ≠ tag → isEndTag name ('<' :: y) = false)
    (hz : z = s ++ '<' :: y) (hw : w = u ++ '<' :: y) : Reads tag (!u.isEmpty) s m u := by
  induction h generalizing s u with
  | done => simp at hz
  | @verbatim inside z t r w m hv hm ih =>
    subst hz hw
    rw [hm.eq_append] at hv
    exact .verbatim (verbatim?_of_append (by simp) hv) (ih hm.eq_append rfl)
  | @stop z hv he =>
    subst hz
    obtain rfl := List.append_cancel_right hw
    by_cases hs : s = []
    · subst hs
      exact .done
    · have hl := length_of_isEndTag htag hs he
      rw [isEndTag_append hl] at he
      rw [show (!s.isEmpty) = true by simpa using hs]
      exact .stop (verbatim?_none_of_append hv) he
  | unended _ _ => simp at hw
  | @single inside z name w t m ha ht hs hm ih =>
    subst hz hw
    obtain ⟨ha', ht'⟩ := ha.of_append ht hm.eq_append hm htag
    exact .single (t := { t with rest := m.source ++ u }) ha' ht' hs (ih hm.eq_append rfl)
  | @template inside z left close r w t body m ha ht hs hb hclose hm ihb ih =>
    subst hz hw
    have hleft : left = close ++ (m.source ++ u) ++ '<' :: y := by
      rw [Text.eq_of_through hclose, hm.eq_append, ← List.append_assoc]
    have hrest : t.rest = body.source ++ close ++ m.source ++ u ++ '<' :: y := by
      rw [hb.eq, hleft]
      simp only [List.append_assoc]
    have hne : close ≠ [] := by
      have hf : (Text.through ['>'] left).1 ≠ [] := through_fst_ne_nil (by simp) (by simp [hleft])
      rwa [hclose] at hf
    have hb' := ihb hrest hleft
    rw [show (!(close ++ (m.source ++ u)).isEmpty) = true by simp [hne]] at hb'
    rw [hleft, hm.eq_append] at hclose
    obtain ⟨ha', ht'⟩ := ha.of_append ht hrest hm htag
    exact .template (t := { t with rest := body.source ++ close ++ m.source ++ u }) ha' ht' hs hb'
      (Text.through_of_append (by simp) hclose) (ih hm.eq_append rfl)
  | @element inside z name content r w t m ha ht hs hn hc hm ih =>
    subst hz hw
    have hrest : t.rest = content ++ m.source ++ u ++ '<' :: y := by
      have h := plainContent_eq name t.rest
      rw [hc, hm.eq_append] at h
      simpa using h.symm
    rw [hrest, hm.eq_append] at hc
    obtain ⟨ha', ht'⟩ := ha.of_append ht hrest hm htag
    exact .element (t := { t with rest := content ++ m.source ++ u }) ha' ht' hs hn
      (plainContent_of_append (fun hmem => hraw name hmem hn) hc) (ih hm.eq_append rfl)
  | @char inside c r w m hv he ho hm ih =>
    subst hw
    cases s with
    | nil =>
      have hr := congrArg List.length (hm.eq_append.symm.trans (List.cons.inj hz).2)
      simp only [List.length_append, List.length_cons] at hr
      omega
    | cons d s =>
      obtain ⟨rfl, rfl⟩ := List.cons.inj hz
      have hl : u.length < (c :: s).length := by
        rw [List.append_cancel_right hm.eq_append, List.length_cons, List.length_append]
        omega
      have ho' : opensTag (c :: s) = false := by
        rw [← opensTag_append (by simp) y]
        exact ho
      exact .char (verbatim?_none_of_append (s := c :: s) hv)
        (hm.not_isEndTag_of_append (s := c :: s) htag hl he) ho' (ih rfl rfl)

end Stencil.Markup
