import Stencil.Escaper
import Stencil.Proofs.Markup.LocalTemplate
/-!
Local templates in local templates.

What is read of a text up to an end tag is read alike when another tag follows (`Reads.append_right`).  So
an element that is read as a local template can be the body of another one of its name, and each further
element around it puts one more pair of raw markers into the escaped text (`escape_nest`).
-/

namespace Stencil

namespace RawBlock

variable {s x : Text}

theorem getLast?_written (b : RawBlock) : b.written.getLast? = some '}' := by
  rw [written, List.getLast?_append_of_ne_nil _ (by simp [close4])]
  rfl

/-- A text without closing braces does not complete a raw block. -/
theorem read_none_append_right (h : read s = none) (hx : '}' ∉ x) : read (s ++ x) = none := by
  cases hr : read (s ++ x) with
  | none => rfl
  | some p =>
    obtain ⟨b, v⟩ := p
    -- the block ends before `x`, so it is read without it
    obtain ⟨u, rfl⟩ : ∃ u, v = u ++ x := by
      rcases List.append_eq_append_iff.1 (read_eq hr) with ⟨w, hw, hv⟩ | ⟨u, -, hu⟩
      · cases hlast : w.getLast? with
        | none => exact ⟨[], by rw [hv, List.getLast?_eq_none_iff.1 hlast]; rfl⟩
        | some c =>
          have hc := getLast?_written b
          rw [hw, List.getLast?_append, hlast] at hc
          obtain rfl : c = '}' := Option.some.inj hc
          exact absurd (hv ▸ List.mem_append_left v (List.mem_of_getLast? hlast)) hx
      · exact ⟨u, hu⟩
    exact nomatch h.symm.trans (read_of_append hr)

end RawBlock

namespace Markup

variable {s t u x y : Text}

/-! ## Text that goes on -/

theorem attributeName_append_right (h : attributeName s = (t, u)) (hu : u ≠ []) (x : Text) :
    attributeName (s ++ x) = (t, u ++ x) := by
  fun_induction attributeName s generalizing t with
  | case1 => exact absurd (Prod.mk.inj h).2.symm hu
  | case2 r =>
    obtain ⟨rfl, rfl⟩ := Prod.mk.inj h
    rfl
  | case3 c r hc hstop =>
    obtain ⟨rfl, rfl⟩ := Prod.mk.inj h
    rw [List.cons_append]
    unfold attributeName
    split
    · next he => simp at he
    · next he => rw [← he]
    · next he =>
      obtain ⟨rfl, rfl⟩ := List.cons.inj he
      rw [if_pos hstop]
  | case4 c r hc hgo ih =>
    obtain ⟨rfl, rfl⟩ := Prod.mk.inj h
    have hgo' : attributeName (c :: (r ++ x)) =
        (c :: (attributeName (r ++ x)).1, (attributeName (r ++ x)).2) := by
      rw [attributeName, if_neg hgo]
      rintro r' rfl he
      cases r with
      | nil => exact hu rfl
      | cons d r =>
        obtain ⟨rfl, -⟩ := List.cons.inj he
        exact hc r rfl rfl
    rw [List.cons_append, hgo', ih rfl]

theorem bareValue_append_right (h : bareValue s = (t, u)) (hu : u ≠ []) (x : Text) :
    bareValue (s ++ x) = (t, u ++ x) := by
  fun_induction bareValue s generalizing t with
  | case1 => exact absurd (Prod.mk.inj h).2.symm hu
  | case2 r p =>
    rename_i q ih
    obtain ⟨rfl, rfl⟩ := Prod.mk.inj h
    have hp : p.2 ≠ [] := by
      intro hp
      have hq : q = ([], []) := by
        simp only [q, hp]
        rw [bareValue]
      exact hu (congrArg Prod.snd hq)
    have hthrough : Text.through close2 (r ++ x) = (p.1, p.2 ++ x) := Text.through_append_right rfl hp x
    rw [List.cons_append, List.cons_append, bareValue]
    simp only [hthrough, ih rfl]
    rfl
  | case3 c r hc hstop =>
    obtain ⟨rfl, rfl⟩ := Prod.mk.inj h
    rw [List.cons_append, bareValue, if_pos hstop]
    rintro r' rfl -
    simp [Text.isAsciiBlank] at hstop
  | case4 c r hc hgo ih =>
    obtain ⟨rfl, rfl⟩ := Prod.mk.inj h
    rw [List.cons_append, bareValue, if_neg hgo, ih rfl]
    rintro r' rfl he
    cases r with
    | nil =>
      rw [bareValue] at hu
      exact absurd rfl hu
    | cons d r =>
      obtain ⟨rfl, -⟩ := List.cons.inj he
      exact hc r rfl rfl

theorem value?_append_right {v : Value} (h : value? s = some v) (hv : v.rest ≠ []) (x : Text) :
    value? (s ++ x) = some { v with rest := v.rest ++ x } := by
  cases s with
  | nil => exact nomatch h
  | cons c r =>
    rw [List.cons_append]
    unfold value? at h ⊢
    simp only at h ⊢
    split at h
    · next hq =>
      obtain ⟨⟨a, b⟩, hp, rfl⟩ := Option.map_eq_some_iff.1 h
      rw [if_pos hq, Text.cut_append_right hp]
      rfl
    · next hq =>
      obtain rfl := Option.some.inj h
      rw [if_neg hq, ← List.cons_append, bareValue_append_right rfl hv x]

theorem AtAttribute.append_right (h : AtAttribute s) (hs : s ≠ []) (y : Text) :
    AtAttribute (s ++ '<' :: y) := by
  obtain ⟨c, r, rfl⟩ := List.exists_cons_of_ne_nil hs
  refine .of_not ?_ ?_ ?_
  · rintro rfl
    exact h.1 r rfl
  · rintro r' rfl he
    cases r with
    | nil => simp at he
    | cons d r =>
      obtain ⟨rfl, -⟩ := List.cons.inj he
      exact h.2.1 r rfl
  · rintro r' rfl he
    cases r with
    | nil => simp at he
    | cons d r =>
      obtain ⟨rfl, -⟩ := List.cons.inj he
      exact h.2.2 r rfl

/-- A start tag does not end in blanks. -/
theorem StartTag.Reads.run_ne_nil {element : Text} {t : StartTag} (h : StartTag.Reads element s t) :
    (Text.run Text.isAsciiBlank s).2 ≠ [] := by
  cases h with
  | close hb => simp [hb]
  | closeSelf hb => simp [hb]
  | mustache hb _ _ => simp [hb]
  | stray hb _ _ _ => simp [hb]
  | valued hb _ hn hne _ _ _ _ _ => simp [hb, ne_nil_of_attributeName hn hne]
  | bare hb _ hn hne _ _ => simp [hb, ne_nil_of_attributeName hn hne]

theorem StartTag.Reads.ne_nil {element : Text} {t : StartTag} (h : StartTag.Reads element s t) :
    s ≠ [] := by
  rintro rfl
  exact h.run_ne_nil rfl

theorem StartTag.Reads.append_right {element : Text} {t : StartTag} (h : StartTag.Reads element s t)
    (y : Text) : StartTag.Reads element (s ++ '<' :: y) { t with rest := t.rest ++ '<' :: y } := by
  induction h with
  | close hb => exact .close (Text.run_append_right hb _)
  | closeSelf hb => exact .closeSelf (Text.run_append_right hb _)
  | mustache hb ht hu ih =>
    exact .mustache (Text.run_append_right hb _) (Text.through_append_right ht hu.ne_nil _) ih
  | stray hb ha hn hu ih =>
    have hr := eq_of_attributeName hn
    rw [List.nil_append] at hr
    subst hr
    exact .stray (Text.run_append_right hb _) (ha.append_right (by simp) y)
      (attributeName_append_right hn (by simp) _) ih
  | @valued z b w name r gap sign gap' r' v pieces t hb ha hn hne hg hg' hv hp ht ih =>
    have hw := ne_nil_of_attributeName hn hne
    obtain ⟨c, w, rfl⟩ := List.exists_cons_of_ne_nil hw
    have hr : r ≠ [] := by
      rintro rfl
      exact nomatch hg
    have hr' : r' ≠ [] := by
      rintro rfl
      exact nomatch hv
    obtain ⟨d, r', rfl⟩ := List.exists_cons_of_ne_nil hr'
    exact .valued (Text.run_append_right hb _) (ha.append_right hw y)
      (attributeName_append_right hn hr _) hne (Text.run_append_right hg _)
      (Text.run_append_right hg' _) (value?_append_right hv ht.ne_nil _) hp ih
  | @bare z b w name r t hb ha hn hne hg ht ih =>
    have hw := ne_nil_of_attributeName hn hne
    obtain ⟨c, w, rfl⟩ := List.exists_cons_of_ne_nil hw
    refine .bare (Text.run_append_right hb _) (ha.append_right hw y)
      (attributeName_append_right hn ht.ne_nil _) hne (fun sign hs => ?_) ih
    cases hrun : (Text.run Text.isAsciiBlank r).2 with
    | nil => exact ht.run_ne_nil hrun
    | cons c v =>
      have := Text.run_append_right (Prod.ext rfl hrun) ('<' :: y)
      rw [this] at hs
      obtain ⟨rfl, -⟩ := List.cons.inj hs
      exact hg v hrun

theorem readStartTag_append_right {name : Text} {t : StartTag} (hs : s ≠ [])
    (h : readStartTag s = .ok (some (name, t))) (y : Text) :
    readStartTag (s ++ '<' :: y) = .ok (some (name, { t with rest := t.rest ++ '<' :: y })) := by
  obtain ⟨c, s, rfl⟩ := List.exists_cons_of_ne_nil hs
  obtain ⟨n, r, v, hn, hname, hv, rfl⟩ := readStartTag_ok_iff.1 h
  obtain ⟨d, r, rfl⟩ := List.exists_cons_of_ne_nil hv.ne_nil
  rw [List.drop_one, List.tail_cons] at hn
  exact readStartTag_ok_iff.2 ⟨n, _, _, Text.run_append_right hn _, hname, hv.append_right y, rfl⟩

/-- Whether an end tag stands at the head of a text is decided at the latest by its first `>`. -/
theorem isEndTag_append_of_mem {name : Text} (hname : '>' ∉ name) (hs : '>' ∈ s) (x : Text) :
    isEndTag name (s ++ x) = isEndTag name s := by
  rcases Nat.lt_or_ge (name.length + 2) s.length with hl | hl
  · exact isEndTag_append hl x
  -- the `>` would stand in the name
  have short (x : Text) : isEndTag name (s ++ x) = false := by
    rw [Bool.eq_false_iff]
    intro he
    unfold isEndTag at he
    split at he
    · exact nomatch he
    · next r hr =>
      obtain ⟨u, rfl, rfl⟩ : ∃ u, s = '<' :: '/' :: u ∧ r = u ++ x := by
        match s, hs, Text.after?_eq hr with
        | [_], hs, h => simp_all
        | _ :: _ :: u, _, h =>
          simp only [List.cons_append, List.nil_append, List.cons.injEq] at h
          exact ⟨u, by rw [h.1, h.2.1], h.2.2.symm⟩
      rw [Bool.and_eq_true, decide_eq_true_eq] at he
      have hu : '>' ∈ u := by simpa using hs
      have hlen : u.length ≤ name.length := by simpa using hl
      refine hname ?_
      rw [← he.1, Text.lowerAscii, List.take_append, List.take_of_length_le hlen]
      exact List.mem_map.2 ⟨'>', List.mem_append_left _ hu, by decide⟩
  have hnil := short []
  rw [List.append_nil] at hnil
  rw [short x, hnil]

theorem rawText_append_right {name : Text} (hname : '>' ∉ name) (h : rawText name s = (t, u))
    (hu : '>' ∈ u) (x : Text) : rawText name (s ++ x) = (t, u ++ x) := by
  induction s generalizing t with
  | nil =>
    obtain ⟨-, rfl⟩ := Prod.mk.inj h
    exact nomatch hu
  | cons c r ih =>
    have hs : '>' ∈ c :: r := by
      have := rawText_eq name (c :: r)
      rw [h] at this
      exact this ▸ List.mem_append_right t hu
    have he := isEndTag_append_of_mem hname hs x
    rw [List.cons_append] at he ⊢
    rw [rawText] at h ⊢
    rw [he]
    split at h
    · next hend =>
      obtain ⟨rfl, rfl⟩ := Prod.mk.inj h
      rw [if_pos hend]
      rfl
    · next hend =>
      obtain ⟨rfl, rfl⟩ := Prod.mk.inj h
      rw [if_neg hend, ih rfl]

theorem plainContent_append_right {name : Text} (h : plainContent name s = (t, u)) (hu : '>' ∈ u)
    (x : Text) : plainContent name (s ++ x) = (t, u ++ x) := by
  have hraw : ∀ n ∈ rawTextElements, '>' ∉ n := by decide
  unfold plainContent at h ⊢
  split at h
  · next hn =>
    rw [if_pos hn]
    exact rawText_append_right (hraw name (by simpa using hn)) h hu x
  · next hn =>
    obtain ⟨rfl, rfl⟩ := Prod.mk.inj h
    rw [if_neg hn]

theorem verbatim?_none_append_right (h : verbatim? s = none) (hs : s ≠ []) (y : Text) :
    verbatim? (s ++ '<' :: y) = none := by
  unfold verbatim? at h ⊢
  split at h
  · split at h <;> exact nomatch h
  · next h4 =>
    split at h
    · exact nomatch h
    · next h2 =>
      rw [Text.after?_none_append h4 hs (by decide), Text.after?_none_append h2 hs (by decide)]
      simp only [Option.map_eq_none_iff] at h ⊢
      exact Text.after?_none_append h hs (by decide) y

theorem verbatim?_append_right (h : verbatim? s = some (t, u)) (hu : u ≠ []) (hy : '}' ∉ y) :
    verbatim? (s ++ '<' :: y) = some (t, u ++ '<' :: y) := by
  have hx : '}' ∉ '<' :: y := by simpa using hy
  have hs : s ≠ [] := by
    rintro rfl
    exact absurd (verbatim?_rest_length h) (Nat.not_lt_zero _)
  have through {mark close r : Text}
      (h : (mark ++ (Text.through close r).1, (Text.through close r).2) = (t, u)) :
      (mark ++ (Text.through close (r ++ '<' :: y)).1, (Text.through close (r ++ '<' :: y)).2) =
        (t, u ++ '<' :: y) := by
    obtain ⟨rfl, rfl⟩ := Prod.mk.inj h
    have hr : Text.through close (r ++ '<' :: y) =
        ((Text.through close r).1, (Text.through close r).2 ++ '<' :: y) :=
      Text.through_append_right rfl hu _
    rw [hr]
  unfold verbatim? at h ⊢
  split at h
  · next r hr =>
    rw [Text.after?_append_right hr]
    split at h
    · next b rest hb =>
      obtain ⟨rfl, rfl⟩ := Prod.mk.inj (Option.some.inj h)
      simp only [RawBlock.read_append_right hb]
    · next hb =>
      simp only [RawBlock.read_none_append_right hb hx, through (Option.some.inj h)]
  · next h4 =>
    rw [Text.after?_none_append h4 hs (by decide)]
    simp only
    split at h
    · next r hr =>
      rw [Text.after?_append_right hr]
      simp only [through (Option.some.inj h)]
    · next h2 =>
      rw [Text.after?_none_append h2 hs (by decide)]
      obtain ⟨r, hr, h⟩ := Option.map_eq_some_iff.1 h
      rw [Text.after?_append_right hr]
      exact congrArg some (through h)

theorem AtStartTag.append_right {tag : Text} {inside : Bool} (h : AtStartTag tag inside s)
    (htag : '>' ∉ tag) (hs : '>' ∈ s) (y : Text) : AtStartTag tag inside (s ++ '<' :: y) := by
  have hne : s ≠ [] := List.ne_nil_of_mem hs
  exact ⟨verbatim?_none_append_right h.1 hne y, by rw [isEndTag_append_of_mem htag hs]; exact h.2.1,
    by rw [opensTag_append hne]; exact h.2.2⟩

theorem Reads.mem_of_rest {tag : Text} {inside : Bool} {m : Markup} (h : Reads tag inside s m u)
    {c : Char} (hu : c ∈ u) : c ∈ s :=
  h.eq ▸ List.mem_append_right _ hu

/-- What is read of a text up to an end tag is read alike when the text goes on with another tag. -/
theorem Reads.append_right {tag : Text} {inside : Bool} {m : Markup} (h : Reads tag inside s m u)
    (htag : '>' ∉ tag) (hu : '>' ∈ u) (hy : '}' ∉ y) :
    Reads tag inside (s ++ '<' :: y) m (u ++ '<' :: y) := by
  induction h with
  | done => exact nomatch hu
  | unended _ _ => exact nomatch hu
  | verbatim hv hm ih =>
    exact .verbatim (verbatim?_append_right hv (List.ne_nil_of_mem (hm.mem_of_rest hu)) hy) (ih hu)
  | stop hv he =>
    exact .stop (verbatim?_none_append_right hv (List.ne_nil_of_mem hu) y)
      (by rw [isEndTag_append_of_mem htag hu]; exact he)
  | @single inside z name w t m ha ht hs hm ih =>
    have hz : '>' ∈ z := readStartTag_eq ht ▸ List.mem_append_right _ (hm.mem_of_rest hu)
    exact .single (t := { t with rest := t.rest ++ '<' :: y }) (ha.append_right htag hz y)
      (readStartTag_append_right (List.ne_nil_of_mem hz) ht y) hs (ih hu)
  | @template inside z left close r w t body m ha ht hs hb hclose hm ihb ih =>
    have hr : '>' ∈ r := hm.mem_of_rest hu
    have hleft : '>' ∈ left := Text.eq_of_through hclose ▸ List.mem_append_right _ hr
    have hz : '>' ∈ z := readStartTag_eq ht ▸ List.mem_append_right _ (hb.mem_of_rest hleft)
    exact .template (t := { t with rest := t.rest ++ '<' :: y }) (ha.append_right htag hz y)
      (readStartTag_append_right (List.ne_nil_of_mem hz) ht y) hs (ihb hleft)
      (Text.through_append_right hclose (List.ne_nil_of_mem hr) _) (ih hu)
  | @element inside z name content r w t m ha ht hs hn hc hm ih =>
    have hr : '>' ∈ r := hm.mem_of_rest hu
    have hrest := plainContent_eq name t.rest
    rw [hc] at hrest
    have hz : '>' ∈ z :=
      readStartTag_eq ht ▸ List.mem_append_right _ (hrest ▸ List.mem_append_right _ hr)
    exact .element (t := { t with rest := t.rest ++ '<' :: y }) (ha.append_right htag hz y)
      (readStartTag_append_right (List.ne_nil_of_mem hz) ht y) hs hn
      (plainContent_append_right hc hr _) (ih hu)
  | @char inside c r w m hv he ho hm ih =>
    have hs : '>' ∈ c :: r := List.mem_cons_of_mem c (hm.mem_of_rest hu)
    have hne : c :: r ≠ [] := List.cons_ne_nil c r
    have hend := isEndTag_append_of_mem htag hs ('<' :: y)
    have hopens := opensTag_append hne y
    exact .char (verbatim?_none_append_right hv hne y) (hend ▸ he) (hopens ▸ ho) (ih hu)

/-! ## Elements in elements -/

section Element

variable {name b : Text}

theorem isEndTag_closeTag_append (name x : Text) :
    isEndTag (Text.lowerAscii name) (closeTag name ++ x) = true := by
  have ha : Text.after? ['<', '/'] (closeTag name ++ x) = some (name ++ '>' :: x) := by
    simp [closeTag, Text.after?]
  have hlen : (Text.lowerAscii name).length = name.length := List.length_map _
  unfold isEndTag
  rw [ha, hlen]
  simp

theorem through_closeTag (h : ElementName name) (x : Text) :
    Text.through ['>'] (closeTag name ++ x) = (closeTag name, x) := by
  have hgt : '>' ∉ '<' :: '/' :: name := by
    have : '>' ∉ name := fun hm => absurd (h.chars '>' hm) (by decide)
    simpa using this
  have hcut := Text.cut_of_notMem hgt x
  rw [Text.through, show closeTag name ++ x = '<' :: '/' :: name ++ '>' :: x by simp [closeTag], hcut]
  rfl

/-- An element is read as a local template if its body is read up to its end tag. -/
theorem Reads.element_of_body (h : ElementName name) {inside : Bool} {body m : Markup}
    (hb : Reads (Text.lowerAscii name) true (b ++ (closeTag name ++ x)) body (closeTag name ++ x))
    (hm : Reads (Text.lowerAscii name) inside x m u) :
    Reads (Text.lowerAscii name) inside (inElement name b ++ x)
      (text (openTag name) (definition body (closeTag name) m)) u := by
  have hs : inElement name b ++ x = openTag name ++ (b ++ (closeTag name ++ x)) := by
    simp [inElement]
  have hend : isEndTag (Text.lowerAscii name) (openTag name ++ (b ++ (closeTag name ++ x))) = false := by
    obtain ⟨c, r, rfl, hc⟩ := h.initial
    have : c ≠ '/' := by
      rintro rfl
      simp at hc
    simp [isEndTag, openTag, Text.after?, this.symm]
  have hat : AtStartTag (Text.lowerAscii name) inside (openTag name ++ (b ++ (closeTag name ++ x))) :=
    ⟨verbatim?_openTag h _, by rw [hend, Bool.and_false], opensTag_openTag h _⟩
  rw [hs]
  exact .template hat (readStartTag_openTag h _) rfl hb (through_closeTag h x) hm

/-- An element that is read as a local template is read as the body of another one. -/
theorem readsAsBody_inElement (h : ElementName name) (hr : ReadsAsBody name b) :
    ReadsAsBody name (inElement name b) := by
  obtain ⟨body, hr⟩ := hr
  have hclose : closeTag name = '<' :: '/' :: (name ++ ['>']) := rfl
  have hgt : '>' ∈ closeTag name := by simp [closeTag]
  have hbrace : '}' ∉ '/' :: (name ++ ['>']) := by
    have : '}' ∉ name := fun hm => absurd (h.chars '}' hm) (by decide)
    simpa using this
  have hb := Reads.of_element h (ofText_ok_iff.1 hr)
  -- the body is read alike before two end tags, and the second ends what the first leaves
  have hb' : Reads (Text.lowerAscii name) true (b ++ (closeTag name ++ closeTag name)) body
      (closeTag name ++ closeTag name) := by
    have := hb.append_right h.gt_not_mem hgt hbrace
    rwa [← hclose, List.append_assoc] at this
  have hstop : Reads (Text.lowerAscii name) true (closeTag name) nil (closeTag name) := by
    refine .stop ?_ ?_
    · simp [verbatim?, closeTag, Text.after?, open4, open2]
    · simpa using isEndTag_closeTag_append name []
  have hinner := Reads.element_of_body h hb' hstop
  rw [← List.append_nil (closeTag name)] at hinner
  have houter : Reads (Text.lowerAscii name) false _ _ [] := Reads.element_of_body h hinner .done
  rw [List.append_nil] at houter
  exact ⟨_, ofText_ok_iff.2 houter⟩

/-- A text in `n` elements, each in the next. -/
def nest (name b : Text) : Nat → Text
  | 0 => b
  | n + 1 => inElement name (nest name b n)

/-- A text in `n` elements, each of them with one pair of raw markers around its body. -/
def guardedNest (name s : Text) : Nat → Text
  | 0 => s
  | n + 1 => openTag name ++ guard (guardedNest name s n) ++ closeTag name

theorem nest_inElement (name b : Text) (n : Nat) :
    nest name (inElement name b) n = nest name b (n + 1) := by
  induction n with
  | zero => rfl
  | succ n ih => exact congrArg (inElement name) ih

theorem allBlank_inElement (name b : Text) : Text.allBlank (inElement name b) = false := by
  have : Text.isBlank '<' = false := by decide
  simp [Text.allBlank, inElement, openTag, this]

theorem readsAsBody_nest (h : ElementName name) (hr : ReadsAsBody name b) :
    ∀ n, ReadsAsBody name (nest name b n)
  | 0 => hr
  | n + 1 => readsAsBody_inElement h (readsAsBody_nest h hr n)

/-- A further element puts one more pair of raw markers around what is not blank. -/
theorem escape_inElement_of_not_blank (h : ElementName name) (hr : ReadsAsBody name b)
    (hb : Text.allBlank b = false) {b' : Text} (he : escape (Text.lowerAscii name) b = .ok b') :
    escape (Text.lowerAscii name) (inElement name b) =
      .ok (openTag name ++ guard b' ++ closeTag name) := by
  obtain ⟨b'', he', hout⟩ := escape_of_readsAsBody h hr
  obtain rfl := Except.ok.inj (he.symm.trans he')
  rw [hout, hb, if_neg Bool.false_ne_true]

theorem escape_nest_of_not_blank (h : ElementName name) (hr : ReadsAsBody name b)
    (hb : Text.allBlank b = false) {b' : Text} (he : escape (Text.lowerAscii name) b = .ok b') (n : Nat) :
    escape (Text.lowerAscii name) (nest name b n) = .ok (guardedNest name b' n) := by
  have hblank : ∀ n, Text.allBlank (nest name b n) = false := by
    intro n
    cases n with
    | zero => exact hb
    | succ n => exact allBlank_inElement name _
  induction n with
  | zero => exact he
  | succ n ih => exact escape_inElement_of_not_blank h (readsAsBody_nest h hr n) (hblank n) ih

end Element

/-- The body of an element that is read as a local template is escaped as it is on its own.  A blank one
leaves the element as it stands, any other is put between raw markers.  So of a text in `n` elements each
has one pair of markers around its body, unless it holds a blank text. -/
theorem escape_nest {name b : Text} (h : ElementName name) (hr : ReadsAsBody name b) :
    ∃ b', (Escaper.named name).escape b = .ok b' ∧
      (Text.allBlank b = true →
        (Escaper.named name).escape (inElement name b) = .ok (inElement name b) ∧
          ∀ n, (Escaper.named name).escape (nest name b (n + 1)) =
            .ok (guardedNest name (inElement name b) n)) ∧
      (Text.allBlank b = false →
        (Escaper.named name).escape (inElement name b) =
            .ok (openTag name ++ guard b' ++ closeTag name) ∧
          ∀ n, (Escaper.named name).escape (nest name b n) = .ok (guardedNest name b' n)) := by
  obtain ⟨b', he, hout⟩ := escape_of_readsAsBody h hr
  refine ⟨b', he, fun hb => ?_, fun hb => ?_⟩
  · rw [hb, if_pos rfl, ← inElement] at hout
    refine ⟨hout, fun n => ?_⟩
    rw [← nest_inElement]
    exact escape_nest_of_not_blank h (readsAsBody_inElement h hr) (allBlank_inElement name b) hout n
  · exact ⟨escape_inElement_of_not_blank h hr hb he, escape_nest_of_not_blank h hr hb he⟩

/-- The name of an element with capitals. -/
def cellName : Text := "X-Cell".toList

/-- A body with an element of the name in other letters, a raw block and a start tag. -/
def cellBody : Text :=
  "<x-cell>{{> a}}</X-CELL >".toList ++ guard "</X-Cell>".toList ++ "<p title='</X-Cell>'>".toList

def cellEscaped : Text :=
  "<x-cell>".toList ++ guard "{{> a}}".toList ++ "</X-CELL >".toList ++ guard "</X-Cell>".toList ++
    "<p title='</X-Cell>'>".toList

theorem escape_nest_cell : ElementName cellName ∧ ReadsAsBody cellName cellBody ∧
    (Escaper.named cellName).escape cellBody = .ok cellEscaped ∧
      ∀ n, (Escaper.named cellName).escape (nest cellName cellBody n) =
        .ok (guardedNest cellName cellEscaped n) := by
  have h : ElementName cellName := ⟨⟨'X', "-Cell".toList, rfl, rfl⟩, List.all_eq_true.1 (by decide)⟩
  have hr : ReadsAsBody cellName cellBody := by
    refine ⟨text "<x-cell>".toList (definition (text "{{> a}}".toList nil) "</X-CELL >".toList ?_), ?_⟩
    · exact text (guard "</X-Cell>".toList ++ "<p title='</X-Cell>'>".toList) nil
    · decide +kernel
  have he : (Escaper.named cellName).escape cellBody = .ok cellEscaped := by decide +kernel
  obtain ⟨b', hb', -, hnest⟩ := escape_nest h hr
  obtain rfl := Except.ok.inj (he.symm.trans hb')
  exact ⟨h, hr, he, (hnest (by decide)).2⟩

end Markup

end Stencil
