import Stencil.Markup.Reader
import Stencil.Proofs.Except
import Stencil.Proofs.Text.Cut
/-!
What the readers of markup find, as relations.

`StartTag.Reads` and `Reads` have one rule for each way in which the readers go on.  They hold of exactly
what the readers return (`readAttributes_ok_iff`, `read_ok_iff`), so a property of all readings is proved
by induction on the rules.
-/

namespace Stencil.Markup

/-! ## Start tags -/

/-- The rest of a start tag of `element` at the head of a text. -/
inductive StartTag.Reads (element : Text) : Text → StartTag → Prop
  | close {s b r : Text} :
      Text.run Text.isAsciiBlank s = (b, '>' :: r) →
      Reads element s ⟨text (b ++ ['>']) nil, false, r⟩
  | closeSelf {s b r : Text} :
      Text.run Text.isAsciiBlank s = (b, '/' :: '>' :: r) →
      Reads element s ⟨text (b ++ ['/', '>']) nil, true, r⟩
  | mustache {s b r t r' : Text} {u : StartTag} :
      Text.run Text.isAsciiBlank s = (b, '{' :: '{' :: r) → Text.through close2 r = (t, r') →
      Reads element r' u →
      Reads element s { u with pieces := append (text (b ++ open2 ++ t) nil) u.pieces }
  | stray {s b r r' : Text} {c : Char} {u : StartTag} :
      Text.run Text.isAsciiBlank s = (b, c :: r) → AtAttribute (c :: r) →
      attributeName (c :: r) = ([], r') → Reads element r u →
      Reads element s { u with pieces := append (text (b ++ [c]) nil) u.pieces }
  | valued {s b w name r gap sign gap' r' : Text} {v : Value} {pieces : Markup} {u : StartTag} :
      Text.run Text.isAsciiBlank s = (b, w) → AtAttribute w →
      attributeName w = (name, r) → name ≠ [] →
      Text.run Text.isAsciiBlank r = (gap, '=' :: sign) →
      Text.run Text.isAsciiBlank sign = (gap', r') → value? r' = some v →
      readValue element name v.text = .ok pieces → Reads element v.rest u →
      Reads element s
        { u with pieces := append (addText (b ++ name ++ gap ++ '=' :: gap' ++ v.mark)
            (append pieces (addText v.mark nil))) u.pieces }
  | bare {s b w name r : Text} {u : StartTag} :
      Text.run Text.isAsciiBlank s = (b, w) → AtAttribute w →
      attributeName w = (name, r) → name ≠ [] →
      (∀ sign, (Text.run Text.isAsciiBlank r).2 ≠ '=' :: sign) → Reads element r u →
      Reads element s { u with pieces := append (text (b ++ name) nil) u.pieces }

section Attributes

variable {element s : Text} {t : StartTag}

theorem ne_nil_of_attributeName {w name r : Text} (h : attributeName w = (name, r)) (hn : name ≠ []) :
    w ≠ [] := by
  rintro rfl
  exact hn (congrArg Prod.fst h).symm

theorem StartTag.reads_of_readAttributes (h : readAttributes element s = .ok (some t)) :
    StartTag.Reads element s t := by
  induction s using readAttributes_induction generalizing t with
  | unended => simp at h
  | close hb =>
    obtain rfl := Option.some.inj (Except.ok.inj h)
    exact .close hb
  | closeSelf hb =>
    obtain rfl := Option.some.inj (Except.ok.inj h)
    exact .closeSelf hb
  | mustache hb ht ih =>
    obtain ⟨u, hu, rfl⟩ := StartTag.after_eq_ok h
    exact .mustache hb ht (ih hu)
  | stray hb ha hn ih =>
    obtain ⟨u, hu, rfl⟩ := StartTag.after_eq_ok h
    exact .stray hb ha hn (ih hu)
  | valueless => simp at h
  | refused => simp at h
  | valued hb ha hn hne hg hg' hv hp ih =>
    obtain ⟨u, hu, rfl⟩ := StartTag.after_eq_ok h
    exact .valued hb ha hn hne hg hg' hv hp (ih hu)
  | bare hb ha hn hne hg ih =>
    obtain ⟨u, hu, rfl⟩ := StartTag.after_eq_ok h
    exact .bare hb ha hn hne hg (ih hu)

/-! How reading goes on in a start tag. -/

theorem readAttributes_mustache {b r t r' : Text} (hb : Text.run Text.isAsciiBlank s = (b, '{' :: '{' :: r))
    (ht : Text.through close2 r = (t, r')) :
    readAttributes element s =
      StartTag.after (text (b ++ open2 ++ t) nil) (readAttributes element r') := by
  rw [readAttributes, hb]
  simp only
  rw [ht]

theorem readAttributes_stray {b r r' : Text} {c : Char}
    (hb : Text.run Text.isAsciiBlank s = (b, c :: r)) (ha : AtAttribute (c :: r))
    (hn : attributeName (c :: r) = ([], r')) :
    readAttributes element s = StartTag.after (text (b ++ [c]) nil) (readAttributes element r) := by
  rw [readAttributes, hb]
  split
  · next he => simp at he
  · next he => exact absurd he (ha.1 _)
  · next he => exact absurd he (ha.2.1 _)
  · next he => exact absurd he (ha.2.2 _)
  · next he =>
    obtain ⟨rfl, rfl⟩ := List.cons.inj he
    rw [hn, dif_pos rfl]

theorem readAttributes_valued {b w name r gap sign gap' r' : Text} {v : Value}
    (hb : Text.run Text.isAsciiBlank s = (b, w)) (ha : AtAttribute w)
    (hn : attributeName w = (name, r)) (hne : name ≠ [])
    (hg : Text.run Text.isAsciiBlank r = (gap, '=' :: sign))
    (hg' : Text.run Text.isAsciiBlank sign = (gap', r')) (hv : value? r' = some v) :
    readAttributes element s =
      match readValue element name v.text with
      | .error e => .error e
      | .ok pieces =>
        StartTag.after (addText (b ++ name ++ gap ++ '=' :: gap' ++ v.mark)
          (append pieces (addText v.mark nil))) (readAttributes element v.rest) := by
  rw [readAttributes, hb]
  split
  · next he => exact absurd he (ne_nil_of_attributeName hn hne)
  · next he => exact absurd he (ha.1 _)
  · next he => exact absurd he (ha.2.1 _)
  · next he => exact absurd he (ha.2.2 _)
  · next he =>
    obtain rfl := he
    rw [hn, dif_neg hne, hg]
    simp only
    rw [hg']
    simp only
    split
    · next hn' => simp [hv] at hn'
    · next v' hv' =>
      obtain rfl := Option.some.inj (hv.symm.trans hv')
      rfl

theorem readAttributes_bare {b w name r : Text} (hb : Text.run Text.isAsciiBlank s = (b, w))
    (ha : AtAttribute w) (hn : attributeName w = (name, r)) (hne : name ≠ [])
    (hg : ∀ sign, (Text.run Text.isAsciiBlank r).2 ≠ '=' :: sign) :
    readAttributes element s =
      StartTag.after (text (b ++ name) nil) (readAttributes element r) := by
  rw [readAttributes, hb]
  split
  · next he => exact absurd he (ne_nil_of_attributeName hn hne)
  · next he => exact absurd he (ha.1 _)
  · next he => exact absurd he (ha.2.1 _)
  · next he => exact absurd he (ha.2.2 _)
  · next he =>
    obtain rfl := he
    rw [hn, dif_neg hne]
    simp only

theorem StartTag.readAttributes_of_reads (h : StartTag.Reads element s t) :
    readAttributes element s = .ok (some t) := by
  induction h with
  | close hb =>
    rw [readAttributes, hb]
    rfl
  | closeSelf hb =>
    rw [readAttributes, hb]
    rfl
  | mustache hb ht _ ih =>
    rw [readAttributes_mustache hb ht, ih]
    rfl
  | stray hb ha hn _ ih =>
    rw [readAttributes_stray hb ha hn, ih]
    rfl
  | valued hb ha hn hne hg hg' hv hp _ ih =>
    rw [readAttributes_valued hb ha hn hne hg hg' hv, hp, ih]
    rfl
  | bare hb ha hn hne hg _ ih =>
    rw [readAttributes_bare hb ha hn hne hg, ih]
    rfl

theorem readAttributes_ok_iff :
    readAttributes element s = .ok (some t) ↔ StartTag.Reads element s t :=
  ⟨StartTag.reads_of_readAttributes, StartTag.readAttributes_of_reads⟩

theorem readStartTag_ok_iff {name : Text} :
    readStartTag s = .ok (some (name, t)) ↔ ∃ n r v, Text.run isNameChar (s.drop 1) = (n, r) ∧
      name = Text.lowerAscii n ∧ StartTag.Reads name r v ∧
        t = { v with pieces := append (text (s.take 1 ++ n) nil) v.pieces } := by
  unfold readStartTag
  constructor
  · intro h
    simp only at h
    split at h
    · simp at h
    · simp at h
    · next w hw =>
      obtain ⟨v, hv, rfl⟩ := StartTag.after_eq_ok hw
      simp only [Except.ok.injEq, Option.some.injEq, Prod.mk.injEq] at h
      exact ⟨_, _, v, rfl, h.1.symm, readAttributes_ok_iff.1 (h.1 ▸ hv), h.2.symm⟩
  · rintro ⟨n, r, v, hn, rfl, hv, rfl⟩
    rw [hn]
    simp only
    rw [readAttributes_ok_iff.2 hv]
    rfl

/-- A name that the reader finds in a start tag: a letter and name characters. -/
structure ElementName (element : Text) : Prop where
  initial : ∃ c r, element = c :: r ∧ c.isAlpha = true
  chars : ∀ c ∈ element, isNameChar c = true

theorem ElementName.run (h : ElementName element) {c : Char} (hc : isNameChar c = false) (r : Text) :
    Text.run isNameChar (element ++ c :: r) = (element, c :: r) := by
  refine Text.run_of_all h.chars fun d hd => ?_
  rw [← Option.some.inj hd]
  exact hc

end Attributes

/-! ## Markup -/

/-- A text at whose head a start tag is read: nothing verbatim stands there, and it is not the end tag of
the body that is read. -/
def AtStartTag (tag : Text) (inside : Bool) (s : Text) : Prop :=
  verbatim? s = none ∧ (inside && isEndTag tag s) = false ∧ opensTag s = true

/-- Markup at the head of a text in which the local templates are named `tag`, and what is left. -/
inductive Reads (tag : Text) : Bool → Text → Markup → Text → Prop
  | done {inside : Bool} : Reads tag inside [] nil []
  | verbatim {inside : Bool} {s t r u : Text} {m : Markup} :
      verbatim? s = some (t, r) → Reads tag inside r m u → Reads tag inside s (addText t m) u
  | stop {s : Text} : verbatim? s = none → isEndTag tag s = true → Reads tag true s nil s
  | unended {inside : Bool} {s : Text} :
      AtStartTag tag inside s → readStartTag s = .ok none → Reads tag inside s (text s nil) []
  | single {inside : Bool} {s name u : Text} {t : StartTag} {m : Markup} :
      AtStartTag tag inside s → readStartTag s = .ok (some (name, t)) → t.selfClosing = true →
      Reads tag inside t.rest m u → Reads tag inside s (append t.pieces m) u
  | template {inside : Bool} {s left close r u : Text} {t : StartTag} {body m : Markup} :
      AtStartTag tag inside s → readStartTag s = .ok (some (tag, t)) → t.selfClosing = false →
      Reads tag true t.rest body left → Text.through ['>'] left = (close, r) →
      Reads tag inside r m u → Reads tag inside s (append t.pieces (definition body close m)) u
  | element {inside : Bool} {s name content r u : Text} {t : StartTag} {m : Markup} :
      AtStartTag tag inside s → readStartTag s = .ok (some (name, t)) → t.selfClosing = false →
      name ≠ tag → plainContent name t.rest = (content, r) →
      Reads tag inside r m u → Reads tag inside s (append t.pieces (addText content m)) u
  | char {inside : Bool} {c : Char} {r u : Text} {m : Markup} :
      verbatim? (c :: r) = none → (inside && isEndTag tag (c :: r)) = false →
      opensTag (c :: r) = false → Reads tag inside r m u →
      Reads tag inside (c :: r) (addText [c] m) u

section Markup

variable {tag s u : Text} {inside : Bool} {m : Markup}

theorem reads_of_read {p : Reading s.length} (h : read tag inside s = .ok p) :
    Reads tag inside s p.1.1 p.1.2 := by
  fun_induction read tag inside s with
  | case1 =>
    rw [← Except.ok.inj h]
    exact .done
  | case2 inside c r t rest hv ih =>
    obtain ⟨q, hq, he⟩ := Reading.lead_eq_ok h
    rw [he]
    exact .verbatim hv (ih hq)
  | case3 inside c r hv hend =>
    rw [Bool.and_eq_true] at hend
    rw [← Except.ok.inj h, hend.1]
    exact .stop hv hend.2
  | case4 => simp at h
  | case5 inside c r hv hend ho ht =>
    rw [← Except.ok.inj h]
    exact .unended ⟨hv, by simpa using hend, ho⟩ ht
  | case6 inside c r hv hend ho name t ht hr hs ih =>
    obtain ⟨q, hq, he⟩ := Reading.lead_eq_ok h
    rw [he]
    exact .single ⟨hv, by simpa using hend, ho⟩ ht hs (ih hq)
  | case7 => simp at h
  | case8 inside c r hv hend ho t hs body left hl hb close ht hr hc ihb =>
    rename_i ih
    obtain ⟨q, hq, he⟩ := Reading.lead_eq_ok h
    rw [he]
    exact .template ⟨hv, by simpa using hend, ho⟩ ht (by simpa using hs) (ihb hb) rfl (ih hq)
  | case9 inside c r hv hend ho name t ht hr hs hn content hc =>
    rename_i ih
    obtain ⟨q, hq, he⟩ := Reading.lead_eq_ok h
    rw [he]
    exact .element ⟨hv, by simpa using hend, ho⟩ ht (by simpa using hs) hn rfl (ih hq)
  | case10 inside c r hv hend ho ih =>
    obtain ⟨q, hq, he⟩ := Reading.lead_eq_ok h
    rw [he]
    exact .char hv (by simpa using hend) (by simpa using ho) (ih hq)

theorem lt_of_isEndTag {name : Text} (h : isEndTag name s = true) : ∃ r, s = '<' :: r := by
  unfold isEndTag at h
  split at h
  · exact nomatch h
  · next r hr => exact ⟨'/' :: r, Text.after?_eq hr⟩

theorem cons_of_opensTag (h : opensTag s = true) : ∃ c r, s = c :: r := by
  cases s with
  | nil => simp [opensTag] at h
  | cons c r => exact ⟨c, r, rfl⟩

theorem Reading.map_lead {k n : Nat} (put : Markup → Markup) (hk : k ≤ n)
    (r : Except Disallowed (Reading k)) :
    (r.map (Reading.lead put hk)).map Subtype.val =
      (r.map Subtype.val).map fun p => (put p.1, p.2) := by
  cases r <;> rfl

/-- How reading goes on after what is passed over whole. -/
theorem read_verbatim {t r : Text} (hv : verbatim? s = some (t, r)) :
    (read tag inside s).map Subtype.val =
      ((read tag inside r).map Subtype.val).map fun p => (addText t p.1, p.2) := by
  cases s with
  | nil => exact absurd (verbatim?_rest_length hv) (Nat.not_lt_zero _)
  | cons c r' =>
    rw [read]
    split
    · next hv' =>
      rw [hv, Option.some.injEq, Prod.mk.injEq] at hv'
      obtain ⟨rfl, rfl⟩ := hv'
      exact Reading.map_lead _ _ _
    · next hn => simp [hv] at hn

/-- How reading goes on at a character that opens nothing. -/
theorem read_char {c : Char} {r : Text} (hv : verbatim? (c :: r) = none)
    (he : (inside && isEndTag tag (c :: r)) = false) (ho : opensTag (c :: r) = false) :
    (read tag inside (c :: r)).map Subtype.val =
      ((read tag inside r).map Subtype.val).map fun p => (addText [c] p.1, p.2) := by
  rw [read]
  split
  · next hv' => simp [hv] at hv'
  · rw [if_neg (by simp [he]), dif_neg (by simp [ho])]
    exact Reading.map_lead _ _ _

/-- How reading goes on at a start tag. -/
theorem read_startTag {name : Text} {t : StartTag} (ha : AtStartTag tag inside s)
    (ht : readStartTag s = .ok (some (name, t))) :
    (read tag inside s).map Subtype.val =
      if t.selfClosing then
        ((read tag inside t.rest).map Subtype.val).map fun p => (append t.pieces p.1, p.2)
      else if name = tag then
        (read tag true t.rest).map Subtype.val >>= fun q =>
          ((read tag inside (Text.through ['>'] q.2).2).map Subtype.val).map fun p =>
            (append t.pieces (definition q.1 (Text.through ['>'] q.2).1 p.1), p.2)
      else
        ((read tag inside (plainContent name t.rest).2).map Subtype.val).map fun p =>
          (append t.pieces (addText (plainContent name t.rest).1 p.1), p.2) := by
  obtain ⟨c, r, rfl⟩ := cons_of_opensTag ha.2.2
  rw [read]
  split
  · next hv => simp [ha.1] at hv
  · rw [if_neg (by simp [ha.2.1]), dif_pos ha.2.2]
    split
    · next he => simp [ht] at he
    · next he => simp [ht] at he
    · next he =>
      simp only [ht, Except.ok.injEq, Option.some.injEq, Prod.mk.injEq] at he
      obtain ⟨rfl, rfl⟩ := he
      split
      · exact Reading.map_lead _ _ _
      · split
        · split
          · next hb => rw [hb]; rfl
          · next hb =>
            rw [hb]
            exact Reading.map_lead _ _ _
        · exact Reading.map_lead _ _ _

theorem read_of_reads (h : Reads tag inside s m u) :
    (read tag inside s).map Subtype.val = .ok (m, u) := by
  induction h with
  | done =>
    rw [read]
    rfl
  | verbatim hv _ ih =>
    rw [read_verbatim hv, ih]
    rfl
  | @stop s hv he =>
    cases s with
    | nil => simp [isEndTag, Text.after?] at he
    | cons c r =>
      rw [read]
      split
      · next hv' => simp [hv] at hv'
      · rw [he]
        rfl
  | unended ha ht =>
    obtain ⟨c, r, rfl⟩ := cons_of_opensTag ha.2.2
    rw [read]
    split
    · next hv' => simp [ha.1] at hv'
    · rw [if_neg (by simp [ha.2.1]), dif_pos ha.2.2]
      split
      · next ht' => simp [ht] at ht'
      · rfl
      · next ht' => simp [ht] at ht'
  | single ha ht hs _ ih =>
    rw [read_startTag ha ht, if_pos hs, ih]
    rfl
  | template ha ht hs _ hclose _ ihb ih =>
    rw [read_startTag ha ht, if_neg (by simp [hs]), if_pos rfl, ihb]
    simp only [bind, Except.bind]
    rw [hclose, ih]
    rfl
  | element ha ht hs hn hc _ ih =>
    rw [read_startTag ha ht, if_neg (by simp [hs]), if_neg hn, hc, ih]
    rfl
  | char hv hend ho _ ih =>
    rw [read_char hv hend ho, ih]
    rfl

theorem read_ok_iff :
    (read tag inside s).map Subtype.val = .ok (m, u) ↔ Reads tag inside s m u := by
  refine ⟨fun h => ?_, read_of_reads⟩
  obtain ⟨p, hp, he⟩ := Except.map_eq_ok_iff.1 h
  have := reads_of_read hp
  rwa [he] at this

theorem ofText_ok_iff : ofText tag s = .ok m ↔ Reads tag false s m [] := by
  rw [← read_ok_iff, ofText, Except.map_eq_ok_iff, Except.map_eq_ok_iff]
  constructor
  · rintro ⟨p, hp, rfl⟩
    exact ⟨p, hp, Prod.ext rfl (read_outside hp)⟩
  · rintro ⟨p, hp, he⟩
    exact ⟨p, hp, congrArg Prod.fst he⟩

end Markup

end Stencil.Markup
