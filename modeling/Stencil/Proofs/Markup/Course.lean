import Mathlib.Logic.Relation
import Stencil.Proofs.Markup.Borders
import Stencil.Proofs.Markup.Within
/-!
The places that the reader comes to.

`StartTag.Step` and `Step` are the steps of the readers of start tags and of markup: from a text to a text
that is read next.  A step that leads into the body of a local template leaves the rest of the text for
another.  What a step passes over has its borders, and all others are borders of what is read next
(`Step.borders`); so it is along a whole course of steps (`borders_of_course`).
-/

namespace Stencil.Markup

variable {s w u b : Text}

/-! ## Start tags -/

/-- After an attribute or a mustache tag the rest of a start tag is read. -/
inductive StartTag.Step : Text → Text → Prop
  | mustache {s b r t r' : Text} :
      Text.run Text.isAsciiBlank s = (b, '{' :: '{' :: r) → Text.through close2 r = (t, r') → Step s r'
  | stray {s b r r' : Text} {c : Char} :
      Text.run Text.isAsciiBlank s = (b, c :: r) → AtAttribute (c :: r) →
      attributeName (c :: r) = ([], r') → Step s r
  | valued {s b w name r gap sign gap' r' : Text} {v : Value} :
      Text.run Text.isAsciiBlank s = (b, w) → AtAttribute w →
      attributeName w = (name, r) → name ≠ [] →
      Text.run Text.isAsciiBlank r = (gap, '=' :: sign) →
      Text.run Text.isAsciiBlank sign = (gap', r') → value? r' = some v → Step s v.rest
  | bare {s b w name r : Text} :
      Text.run Text.isAsciiBlank s = (b, w) → AtAttribute w →
      attributeName w = (name, r) → name ≠ [] →
      (∀ sign, (Text.run Text.isAsciiBlank r).2 ≠ '=' :: sign) → Step s r

theorem suffix_of_run {p : Char → Bool} {x y : Text} (h : Text.run p s = (x, y)) : y <:+ s :=
  Text.eq_of_run h ▸ List.suffix_append x y

theorem suffix_of_through {mark x y : Text} (h : Text.through mark s = (x, y)) : y <:+ s :=
  Text.eq_of_through h ▸ List.suffix_append x y

theorem suffix_of_attributeName {x y : Text} (h : attributeName s = (x, y)) : y <:+ s :=
  eq_of_attributeName h ▸ List.suffix_append x y

theorem suffix_of_value? {v : Value} (h : value? s = some v) :
    v.text ++ (v.mark ++ v.rest) <:+ s := by
  rw [value?_eq h, List.append_assoc, List.append_assoc]
  exact List.suffix_append _ _

/-- The value of an attribute, with all after it, is the end of the text that the attribute is read from. -/
theorem suffix_of_valued {x w name r gap sign gap' r' : Text} {v : Value}
    (hb : Text.run Text.isAsciiBlank s = (x, w)) (hn : attributeName w = (name, r))
    (hg : Text.run Text.isAsciiBlank r = (gap, '=' :: sign))
    (hg' : Text.run Text.isAsciiBlank sign = (gap', r')) (hv : value? r' = some v) :
    v.text ++ (v.mark ++ v.rest) <:+ s := by
  have hsign : sign <:+ r := (List.suffix_cons _ _).trans (suffix_of_run hg)
  have hr : r <:+ s := (suffix_of_attributeName hn).trans (suffix_of_run hb)
  exact (suffix_of_value? hv).trans ((suffix_of_run hg').trans (hsign.trans hr))

theorem StartTag.Step.suffix (h : StartTag.Step s w) : w <:+ s := by
  cases h with
  | mustache hb ht =>
    exact ((suffix_of_through ht).trans ⟨['{', '{'], rfl⟩).trans (suffix_of_run hb)
  | stray hb _ _ => exact (List.suffix_cons _ _).trans (suffix_of_run hb)
  | valued hb _ hn _ hg hg' hv =>
    exact ((List.suffix_append _ _).trans (List.suffix_append _ _)).trans (suffix_of_valued hb hn hg hg' hv)
  | bare hb _ hn _ _ => exact (suffix_of_attributeName hn).trans (suffix_of_run hb)

/-- What is read of a start tag where a mustache tag is passed over. -/
theorem StartTag.Reads.passed {element r x r' : Text} {t : StartTag} (h : StartTag.Reads element s t)
    (hb : Text.run Text.isAsciiBlank s = (b, '{' :: '{' :: r)) (hx : Text.through close2 r = (x, r')) :
    ∃ v, StartTag.Reads element r' v ∧
      t = { v with pieces := append (text (b ++ open2 ++ x) nil) v.pieces } := by
  have hok := readAttributes_ok_iff.2 h
  rw [readAttributes_mustache hb hx] at hok
  obtain ⟨v, hv, rfl⟩ := StartTag.after_eq_ok hok
  exact ⟨v, readAttributes_ok_iff.1 hv, rfl⟩

/-- The pieces of a start tag are those of what a step passes over and those of what is read next. -/
theorem StartTag.Step.reads {element : Text} {t : StartTag} (h : StartTag.Step s w)
    (ht : StartTag.Reads element s t) :
    ∃ m v, StartTag.Reads element w v ∧ t = { v with pieces := append m v.pieces } := by
  have hok := readAttributes_ok_iff.2 ht
  cases h with
  | mustache hb hx =>
    obtain ⟨v, hv, rfl⟩ := ht.passed hb hx
    exact ⟨_, v, hv, rfl⟩
  | stray hb ha hn =>
    rw [readAttributes_stray hb ha hn] at hok
    obtain ⟨v, hv, rfl⟩ := StartTag.after_eq_ok hok
    exact ⟨_, v, readAttributes_ok_iff.1 hv, rfl⟩
  | valued hb ha hn hne hg hg' hval =>
    rw [readAttributes_valued hb ha hn hne hg hg' hval] at hok
    split at hok
    · cases hok
    · obtain ⟨v, hv, rfl⟩ := StartTag.after_eq_ok hok
      exact ⟨_, v, readAttributes_ok_iff.1 hv, rfl⟩
  | bare hb ha hn hne hg =>
    rw [readAttributes_bare hb ha hn hne hg] at hok
    obtain ⟨v, hv, rfl⟩ := StartTag.after_eq_ok hok
    exact ⟨_, v, readAttributes_ok_iff.1 hv, rfl⟩

/-- The borders of a start tag that lie in what is read next are borders of that. -/
theorem StartTag.Step.borders {element : Text} {t : StartTag} (h : StartTag.Step s w)
    (ht : StartTag.Reads element s t) :
    ∃ v, StartTag.Reads element w v ∧ v.rest = t.rest ∧
      ∀ b ∈ borders t.rest t.pieces, w.length ≤ b.length ∨ b ∈ Markup.borders v.rest v.pieces := by
  obtain ⟨m, v, hv, rfl⟩ := h.reads ht
  refine ⟨v, hv, rfl, fun b hb => ?_⟩
  rw [borders_append, ← hv.eq, List.mem_append] at hb
  exact hb.imp_left fun hb => (suffix_of_mem_borders hb).1.length_le

theorem StartTag.suffix_of_course (h : Relation.ReflTransGen StartTag.Step s w) : w <:+ s := by
  induction h with
  | refl => exact List.suffix_rfl
  | tail _ hstep ih => exact hstep.suffix.trans ih

theorem StartTag.borders_of_course {element : Text} {t : StartTag}
    (h : Relation.ReflTransGen StartTag.Step s w) (ht : StartTag.Reads element s t) :
    ∃ v, StartTag.Reads element w v ∧ v.rest = t.rest ∧
      ∀ b ∈ borders t.rest t.pieces, w.length ≤ b.length ∨ b ∈ borders v.rest v.pieces := by
  induction h with
  | refl => exact ⟨t, ht, rfl, fun b hb => .inr hb⟩
  | tail _ hstep ih =>
    obtain ⟨v, hv, hrest, hborders⟩ := ih
    obtain ⟨v', hv', hrest', hborders'⟩ := hstep.borders hv
    refine ⟨v', hv', hrest'.trans hrest, fun b hb => ?_⟩
    rcases hborders b hb with hl | hb
    · exact .inl (Nat.le_trans hstep.suffix.length_le hl)
    · exact hborders' b hb

/-! ## Markup -/

variable {tag : Text} {inside inside' : Bool} {m : Markup}

/-- Where the reader goes on in markup.  At a local template it goes into the body, and then on after the
end tag. -/
inductive Step (tag : Text) : Bool × Text → Bool × Text → Prop
  | verbatim {inside : Bool} {s t r : Text} :
      verbatim? s = some (t, r) → Step tag (inside, s) (inside, r)
  | single {inside : Bool} {s name : Text} {t : StartTag} :
      AtStartTag tag inside s → readStartTag s = .ok (some (name, t)) → t.selfClosing = true →
      Step tag (inside, s) (inside, t.rest)
  | body {inside : Bool} {s : Text} {t : StartTag} :
      AtStartTag tag inside s → readStartTag s = .ok (some (tag, t)) → t.selfClosing = false →
      Step tag (inside, s) (true, t.rest)
  | template {inside : Bool} {s left close r : Text} {t : StartTag} {body : Markup} :
      AtStartTag tag inside s → readStartTag s = .ok (some (tag, t)) → t.selfClosing = false →
      Reads tag true t.rest body left → Text.through ['>'] left = (close, r) →
      Step tag (inside, s) (inside, r)
  | element {inside : Bool} {s name content r : Text} {t : StartTag} :
      AtStartTag tag inside s → readStartTag s = .ok (some (name, t)) → t.selfClosing = false →
      name ≠ tag → plainContent name t.rest = (content, r) → Step tag (inside, s) (inside, r)
  | char {inside : Bool} {c : Char} {r : Text} :
      verbatim? (c :: r) = none → (inside && isEndTag tag (c :: r)) = false →
      opensTag (c :: r) = false → Step tag (inside, c :: r) (inside, r)

theorem Reads.unique {m' : Markup} {u' : Text} (h : Reads tag inside s m u)
    (h' : Reads tag inside s m' u') : m = m' ∧ u = u' :=
  Prod.mk.inj (Except.ok.inj ((read_of_reads h).symm.trans (read_of_reads h')))

/-- What is read where something is passed over whole. -/
theorem Reads.passed {t r : Text} (h : Reads tag inside s m u) (hv : verbatim? s = some (t, r)) :
    ∃ q, m = addText t q ∧ Reads tag inside r q u := by
  have hok := read_ok_iff.2 h
  rw [read_verbatim hv] at hok
  obtain ⟨p, hp, he⟩ := Except.map_eq_ok_iff.1 hok
  obtain ⟨rfl, rfl⟩ := Prod.mk.inj he
  exact ⟨p.1, rfl, read_ok_iff.1 hp⟩

/-- What is read at a start tag is the tag and what is read of the text after it. -/
theorem Reads.startTag {name : Text} {t : StartTag} (h : Reads tag inside s m u)
    (ha : AtStartTag tag inside s) (ht : readStartTag s = .ok (some (name, t))) :
    ∃ q, m = append t.pieces q ∧ t.rest = q.source ++ u ∧
      (t.selfClosing = true → Reads tag inside t.rest q u) ∧
      (t.selfClosing = false → name = tag → ∃ body left close r q', Reads tag true t.rest body left ∧
        Text.through ['>'] left = (close, r) ∧ Reads tag inside r q' u ∧ q = definition body close q') ∧
      (t.selfClosing = false → name ≠ tag → ∃ content r q', plainContent name t.rest = (content, r) ∧
        Reads tag inside r q' u ∧ q = addText content q') := by
  have hrest {q : Markup} (hm : m = append t.pieces q) : t.rest = q.source ++ u := by
    have he := h.eq
    rw [readStartTag_eq ht, hm, source_append, List.append_assoc] at he
    exact List.append_cancel_left he
  have hok := read_ok_iff.2 h
  rw [read_startTag ha ht] at hok
  split at hok
  · next hs =>
    obtain ⟨p, hp, he⟩ := Except.map_eq_ok_iff.1 hok
    obtain ⟨rfl, rfl⟩ := Prod.mk.inj he
    exact ⟨p.1, rfl, hrest rfl, fun _ => read_ok_iff.1 hp, by simp [hs], by simp [hs]⟩
  · next hs =>
    split at hok
    · next hn =>
      obtain ⟨q, hq, hok⟩ := Except.bind_eq_ok_iff.1 hok
      obtain ⟨p, hp, he⟩ := Except.map_eq_ok_iff.1 hok
      obtain ⟨rfl, rfl⟩ := Prod.mk.inj he
      exact ⟨_, rfl, hrest rfl, by simp [hs],
        fun _ _ => ⟨q.1, q.2, _, _, p.1, read_ok_iff.1 hq, rfl, read_ok_iff.1 hp, rfl⟩,
        fun _ h => absurd hn h⟩
    · next hn =>
      obtain ⟨p, hp, he⟩ := Except.map_eq_ok_iff.1 hok
      obtain ⟨rfl, rfl⟩ := Prod.mk.inj he
      exact ⟨_, rfl, hrest rfl, by simp [hs], fun _ h => absurd h hn,
        fun _ _ => ⟨_, _, p.1, rfl, read_ok_iff.1 hp, rfl⟩⟩

/-- Where a start tag is read, it ends, or it is all that is left. -/
theorem Reads.ends_or_unended (h : Reads tag inside s m u) (ha : AtStartTag tag inside s) :
    (∃ name t, readStartTag s = .ok (some (name, t))) ∨ m = text s nil ∧ u = [] := by
  cases h with
  | done => exact nomatch ha.2.2
  | verbatim hv _ => exact nomatch ha.1.symm.trans hv
  | stop _ he => exact nomatch he.symm.trans ha.2.1
  | unended _ _ => exact .inr ⟨rfl, rfl⟩
  | single _ ht _ _ => exact .inl ⟨_, _, ht⟩
  | template _ ht _ _ _ _ => exact .inl ⟨_, _, ht⟩
  | element _ ht _ _ _ _ => exact .inl ⟨_, _, ht⟩
  | char _ _ ho _ => exact nomatch ho.symm.trans ha.2.2

/-- A border of what is read at a start tag is one of the tag or lies in the text after it. -/
theorem border_of_startTag {t : StartTag} {q : Markup} (hrest : t.rest = q.source ++ u)
    (hb : b ∈ borders u (append t.pieces q)) :
    b ∈ borders t.rest t.pieces ∧ t.rest.length ≤ b.length ∨
      b ∈ borders u q ∧ b.length ≤ t.rest.length := by
  rw [borders_append, ← hrest, List.mem_append] at hb
  rcases hb with hb | hb
  · exact .inl ⟨hb, (suffix_of_mem_borders hb).1.length_le⟩
  · exact .inr ⟨hb, hrest ▸ (suffix_of_mem_borders hb).2.length_le⟩

/-- A border of what is read at a local template is one of the start tag, the beginning or the end of the
body, or one of the body or of what is read after the end tag. -/
theorem border_of_template {t : StartTag} {body q : Markup} {left close r : Text}
    (hbody : Reads tag true t.rest body left) (hc : Text.through ['>'] left = (close, r))
    (hq : Reads tag inside r q u) (hb : b ∈ borders u (append t.pieces (definition body close q))) :
    b ∈ borders t.rest t.pieces ∨ b = t.rest ∨ b = left ∨ b ∈ borders left body ∨ b ∈ borders u q := by
  have hleft : close ++ (q.source ++ u) = left := by rw [← hq.eq, ← Text.eq_of_through hc]
  have hrest : (definition body close q).source ++ u = t.rest := by
    rw [hbody.eq, ← hleft]
    simp [source]
  rw [borders_append, hrest, List.mem_append] at hb
  refine hb.imp_right fun hb => ?_
  have hmem := mem_borders_definition hb
  rwa [hleft, ← hbody.eq] at hmem

theorem suffix_of_readStartTag {name : Text} {t : StartTag} (h : readStartTag s = .ok (some (name, t))) :
    t.rest <:+ s :=
  readStartTag_eq h ▸ List.suffix_append _ _

theorem eq_of_plainContent {name x y : Text} (h : plainContent name s = (x, y)) : s = x ++ y := by
  rw [← plainContent_eq name s, h]

theorem suffix_of_plainContent {name x y : Text} (h : plainContent name s = (x, y)) : y <:+ s :=
  eq_of_plainContent h ▸ List.suffix_append x y

theorem suffix_of_verbatim? {t r : Text} (h : verbatim? s = some (t, r)) : r <:+ s :=
  (verbatim?_eq h).1 ▸ List.suffix_append _ _

theorem Step.suffix {p q : Bool × Text} (h : Step tag p q) : q.2 <:+ p.2 := by
  cases h with
  | verbatim hv => exact suffix_of_verbatim? hv
  | single _ ht _ => exact suffix_of_readStartTag ht
  | body _ ht _ => exact suffix_of_readStartTag ht
  | template _ ht _ hb hc =>
    have hleft := suffix_of_through hc
    exact (hleft.trans (hb.eq ▸ List.suffix_append _ _)).trans (suffix_of_readStartTag ht)
  | element _ ht _ _ hc => exact (suffix_of_plainContent hc).trans (suffix_of_readStartTag ht)
  | char _ _ _ => exact List.suffix_cons _ _

/-- What is read next in a step.  The borders in it that do not lie after it are its own. -/
theorem Step.borders (h : Step tag (inside, s) (inside', w)) (hr : Reads tag inside s m u) :
    ∃ m' u', Reads tag inside' w m' u' ∧ u.length ≤ u'.length ∧ ∀ b ∈ borders u m,
      w.length ≤ b.length ∨ b ∈ Markup.borders u' m' ∨ b.length ≤ u'.length := by
  cases h with
  | verbatim hv =>
    obtain ⟨q, rfl, hq⟩ := hr.passed hv
    exact ⟨q, u, hq, Nat.le_refl _, fun b hb => .inr (.inl (by simpa using hb))⟩
  | single ha ht hs =>
    obtain ⟨q, rfl, hrest, hsingle, -, -⟩ := hr.startTag ha ht
    refine ⟨q, u, hsingle hs, Nat.le_refl _, fun b hb => ?_⟩
    rcases border_of_startTag hrest hb with hb | hb
    · exact .inl hb.2
    · exact .inr (.inl hb.1)
  | body ha ht hs =>
    obtain ⟨q, rfl, -, -, htemplate, -⟩ := hr.startTag ha ht
    obtain ⟨body, left, close, r, q', hbody, hc, hq, rfl⟩ := htemplate hs rfl
    have hu := suffix_of_through hc
    have hr := hq.eq ▸ List.suffix_append q'.source u
    refine ⟨body, left, hbody, (hr.trans hu).length_le, fun b hb => ?_⟩
    rcases border_of_template hbody hc hq hb with hb | rfl | rfl | hb | hb
    · exact .inl (suffix_of_mem_borders hb).1.length_le
    · exact .inl (Nat.le_refl _)
    · exact .inr (.inr (Nat.le_refl _))
    · exact .inr (.inl hb)
    · exact .inr (.inr ((hq.eq ▸ (suffix_of_mem_borders hb).2).trans hu).length_le)
  | @template _ _ left close _ t body ha ht hs hbody hc =>
    obtain ⟨q, rfl, -, -, htemplate, -⟩ := hr.startTag ha ht
    obtain ⟨body', left', close', r, q', hbody', hc', hq, rfl⟩ := htemplate hs rfl
    obtain ⟨rfl, rfl⟩ := hbody.unique hbody'
    obtain ⟨rfl, rfl⟩ := Prod.mk.inj (hc.symm.trans hc')
    have hw : w <:+ left := suffix_of_through hc
    have ht : w <:+ t.rest := hw.trans (hbody.eq ▸ List.suffix_append _ _)
    refine ⟨q', u, hq, Nat.le_refl _, fun b hb => ?_⟩
    rcases border_of_template hbody hc hq hb with hb | rfl | rfl | hb | hb
    · exact .inl (ht.trans (suffix_of_mem_borders hb).1).length_le
    · exact .inl ht.length_le
    · exact .inl hw.length_le
    · exact .inl (hw.trans (suffix_of_mem_borders hb).1).length_le
    · exact .inr (.inl hb)
  | element ha ht hs hn hc =>
    obtain ⟨q, rfl, hrest, -, -, helement⟩ := hr.startTag ha ht
    obtain ⟨content, r, q', hc', hq, rfl⟩ := helement hs hn
    obtain ⟨rfl, rfl⟩ := Prod.mk.inj (hc.symm.trans hc')
    refine ⟨q', u, hq, Nat.le_refl _, fun b hb => ?_⟩
    rcases border_of_startTag hrest hb with hb | hb
    · exact .inl (Nat.le_trans (suffix_of_plainContent hc).length_le hb.2)
    · exact .inr (.inl (by simpa using hb.1))
  | char hv he ho =>
    have hok := read_ok_iff.2 hr
    rw [read_char hv he ho] at hok
    obtain ⟨p, hp, he⟩ := Except.map_eq_ok_iff.1 hok
    obtain ⟨rfl, rfl⟩ := Prod.mk.inj he
    exact ⟨p.1, p.2, read_ok_iff.1 hp, Nat.le_refl _, fun b hb => .inr (.inl (by simpa using hb))⟩

theorem suffix_of_course {p q : Bool × Text} (h : Relation.ReflTransGen (Step tag) p q) : q.2 <:+ p.2 := by
  induction h with
  | refl => exact List.suffix_rfl
  | tail _ hstep ih => exact hstep.suffix.trans ih

/-- What is read at the end of a course of steps.  The borders in it that do not lie after it are its
own. -/
theorem borders_of_course {p q : Bool × Text} (h : Relation.ReflTransGen (Step tag) p q)
    (hr : Reads tag p.1 p.2 m u) :
    ∃ m' u', Reads tag q.1 q.2 m' u' ∧ u.length ≤ u'.length ∧ ∀ b ∈ borders u m,
      q.2.length ≤ b.length ∨ b ∈ borders u' m' ∨ b.length ≤ u'.length := by
  induction h with
  | refl => exact ⟨m, u, hr, Nat.le_refl _, fun b hb => .inr (.inl hb)⟩
  | tail _ hstep ih =>
    obtain ⟨m', u', hr', hu', hborders⟩ := ih
    obtain ⟨m'', u'', hr'', hu'', hborders'⟩ := hstep.borders hr'
    refine ⟨m'', u'', hr'', Nat.le_trans hu' hu'', fun b hb => ?_⟩
    rcases hborders b hb with hl | hb | hl
    · exact .inl (Nat.le_trans hstep.suffix.length_le hl)
    · exact hborders' b hb
    · exact .inr (.inr (Nat.le_trans hl hu''))

end Stencil.Markup
