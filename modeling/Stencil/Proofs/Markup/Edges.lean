import Stencil.Proofs.Markup.Course
import Stencil.Proofs.Syntax.Place
/-!
What stands where a marker is put in.

Of markup that is read, each border is the beginning or the end of an invocation in an attribute value, the
beginning of the body of a local template or its end (`Reads.edge`).  So no border lies inside a tag that
holds no angle bracket (`Edge.clear`), and none of an invocation inside one that holds no opener of an
invocation (`InvocationEdge.clear`).
-/

namespace Stencil.Markup

variable {s t u w before after : Text}

/-! ## Borders of invocations -/

/-- What an invocation in an attribute value begins with. -/
def openers : List Text :=
  [open2 ++ ['>'], open2 ++ ['~', '>']]

/-- An invocation in `s` begins or ends before `b`. -/
def InvocationEdge (s b : Text) : Prop :=
  ∃ w o i rest, w <:+ s ∧ o ∈ openers ∧ closed? o w = some (i, rest) ∧ (b = w ∨ b = rest)

theorem InvocationEdge.mono (h : InvocationEdge w b) (hw : w <:+ s) : InvocationEdge s b := by
  obtain ⟨v, o, i, rest, hv, h⟩ := h
  exact ⟨v, o, i, rest, hv.trans hw, h⟩

theorem closed?_eq_some {o i rest : Text} (h : closed? o s = some (i, rest)) :
    ∃ x, s = o ++ x ++ close2 ++ rest ∧ i = o ++ x ++ close2 ∧ Closeless x := by
  obtain ⟨r, hr, h⟩ := Option.bind_eq_some_iff.1 h
  obtain ⟨⟨x, y⟩, hc, he⟩ := Option.map_eq_some_iff.1 h
  obtain ⟨rfl, rfl⟩ := Prod.mk.inj he
  refine ⟨x, ?_, rfl, .of_cut hc⟩
  rw [Text.after?_eq hr, Text.cut_eq hc]
  simp

theorem opener_eq {o : Text} (h : o ∈ openers) : ∃ y, o = open2 ++ y ∧ '}' ∉ y := by
  simp only [openers, List.mem_cons, List.not_mem_nil, or_false] at h
  rcases h with rfl | rfl
  · exact ⟨['>'], rfl, by decide⟩
  · exact ⟨['~', '>'], rfl, by decide⟩

theorem notMem_opener {o : Text} (h : o ∈ openers) : '}' ∉ o := by
  obtain ⟨y, rfl, hy⟩ := opener_eq h
  simpa [open2] using hy

theorem mem_of_close2_suffix {y z : Text} (h : close2 <:+ y ++ z) (hz : z ≠ []) : '}' ∈ z := by
  obtain ⟨p, hp⟩ := h
  have hl := congrArg List.getLast? hp
  rw [List.getLast?_append, List.getLast?_append_of_ne_nil y hz] at hl
  exact List.mem_of_getLast? hl.symm

/-- An invocation does not begin in a tag without an opener. -/
theorem clear_of_begins {o x : Text} (ho : o ∈ openers) (he : before ++ (t ++ after) = s ++ (o ++ x))
    (hclose : close2 <:+ t) (hmute : ¬ o <:+: t) : Clear t after (o ++ x) := by
  rcases clear_or_divides he with h | ⟨y, z, -, hz, rfl, rfl, hdiv⟩
  · exact h
  rcases List.append_eq_append_iff.1 hdiv with ⟨v, rfl, -⟩ | ⟨v, rfl, -⟩
  · exact absurd ⟨y, v, by simp⟩ hmute
  · -- the opener would go on over the closing braces of the tag
    exact absurd (List.mem_append_left v (mem_of_close2_suffix hclose hz)) (notMem_opener ho)

/-- An invocation does not end in a tag without an opener.  It would begin before the tag, and closing
braces before the tag would have ended it. -/
theorem clear_of_ends {o x rest : Text} (ho : o ∈ openers) (hx : Closeless x)
    (he : before ++ (t ++ after) = s ++ (o ++ x ++ close2) ++ rest) (hshut : Text.Shut before)
    (hmute : ¬ o <:+: t) : Clear t after rest := by
  rcases clear_or_divides he with h | ⟨y, z, hy, -, rfl, hdiv, rfl⟩
  · exact h
  obtain ⟨p, rfl, hp⟩ := opener_eq ho
  rcases List.append_eq_append_iff.1 hdiv with ⟨v, rfl, hv⟩ | ⟨v, -, rfl⟩
  · match v with
    | [] =>
      obtain rfl : y = open2 ++ p ++ x ++ close2 := hv.symm
      exact absurd ⟨[], x ++ close2 ++ z, by simp⟩ hmute
    | [c] =>
      obtain ⟨rfl, -⟩ := List.cons.inj hv
      exact absurd (by simp) hshut.last
    | c :: d :: v =>
      simp only [open2, List.cons_append, List.nil_append, List.cons.injEq] at hv
      obtain ⟨rfl, rfl, hv⟩ := hv
      obtain ⟨q, q', rfl⟩ := hshut.closed s v (by simp [open2])
      have hcut := cut_close2_iff (x := []) |>.2 ((Closeless.append_left hp).2 hx)
      have hfirst := Text.cut_first hcut (a := q) (b := q' ++ y) (by simp [hv])
      have hl := congrArg List.length hv
      have hy := List.length_pos_iff.2 hy
      simp only [List.length_append] at hl hfirst
      omega
  · exact absurd ⟨v, x ++ close2 ++ z, by simp⟩ hmute

theorem InvocationEdge.clear {b : Text} (h : InvocationEdge (before ++ (t ++ after)) b)
    (hshut : Text.Shut before) (hclose : close2 <:+ t) (hmute : ∀ o ∈ openers, ¬ o <:+: t) :
    Clear t after b := by
  obtain ⟨w, o, i, rest, ⟨a, hw⟩, ho, hi, hb⟩ := h
  obtain ⟨x, rfl, rfl, hx⟩ := closed?_eq_some hi
  rcases hb with rfl | rfl
  · rw [List.append_assoc, List.append_assoc] at hw ⊢
    exact clear_of_begins ho hw.symm hclose (hmute o ho)
  · rw [← List.append_assoc] at hw
    exact clear_of_ends ho hx hw.symm hshut (hmute o ho)

/-! ## What stands at a border -/

theorem closed?_append_right {o i rest : Text} (h : closed? o s = some (i, rest)) (x : Text) :
    closed? o (s ++ x) = some (i, rest ++ x) := by
  obtain ⟨r, hr, h⟩ := Option.bind_eq_some_iff.1 h
  obtain ⟨⟨a, c⟩, hc, he⟩ := Option.map_eq_some_iff.1 h
  obtain ⟨rfl, rfl⟩ := Prod.mk.inj he
  simp [closed?, Text.after?_append_right hr, Text.cut_append_right hc]

theorem exists_closed?_of_invocation? {i rest : Text} (h : invocation? s = some (i, rest)) :
    ∃ o ∈ openers, closed? o s = some (i, rest) := by
  unfold invocation? at h
  split at h
  · next p hp =>
    obtain rfl := Option.some.inj h
    exact ⟨_, List.mem_cons_self, hp⟩
  · exact ⟨_, List.mem_cons_of_mem _ List.mem_cons_self, h⟩

theorem edge_of_ofValue {b : Text} (h : b ∈ borders u (ofValue s)) : InvocationEdge (s ++ u) b := by
  fun_induction ofValue s with
  | case1 => exact absurd h List.not_mem_nil
  | case2 c r i rest hi ih =>
    obtain ⟨o, ho, hclosed⟩ := exists_closed?_of_invocation? hi
    have hs := (invocation?_eq hi).1
    rw [borders, source_ofValue, ← List.append_assoc, ← hs, List.mem_cons, List.mem_cons] at h
    rcases h with rfl | rfl | h
    · exact ⟨_, o, i, _, List.suffix_rfl, ho, closed?_append_right hclosed u, .inl rfl⟩
    · exact ⟨_, o, i, _, List.suffix_rfl, ho, closed?_append_right hclosed u, .inr rfl⟩
    · exact (ih h).mono (by rw [hs, List.append_assoc]; exact List.suffix_append _ _)
  | case3 c r hi ih =>
    rw [borders_addText] at h
    exact (ih h).mono (List.suffix_cons c _)

theorem edge_of_readValue {element name value b : Text} {m : Markup}
    (h : readValue element name value = .ok m) (hb : b ∈ borders u m) :
    InvocationEdge (value ++ u) b := by
  unfold readValue at h
  split at h
  · exact nomatch h
  · rw [← Except.ok.inj h] at hb
    exact edge_of_ofValue hb

/-- In a start tag markers are put in only around the invocations of attribute values. -/
theorem StartTag.Reads.edge {element b : Text} {t : StartTag} (h : StartTag.Reads element s t)
    (hb : b ∈ borders t.rest t.pieces) : InvocationEdge s b := by
  induction h with
  | close _ => exact absurd hb List.not_mem_nil
  | closeSelf _ => exact absurd hb List.not_mem_nil
  | mustache hrun ht _ ih =>
    simp only [append, borders_addText] at hb
    exact (ih hb).mono (StartTag.Step.mustache hrun ht).suffix
  | stray hrun ha hn _ ih =>
    simp only [append, borders_addText] at hb
    exact (ih hb).mono (StartTag.Step.stray hrun ha hn).suffix
  | valued hrun ha hn hne hg hg' hv hp hu ih =>
    simp only [borders_append, borders_addText, source_addText, source, List.append_nil, ← hu.eq] at hb
    rcases List.mem_append.1 hb with hb | hb
    · rcases List.mem_append.1 hb with hb | hb
      · exact (edge_of_readValue hp hb).mono (suffix_of_valued hrun hn hg hg' hv)
      · exact absurd hb List.not_mem_nil
    · exact (ih hb).mono (StartTag.Step.valued hrun ha hn hne hg hg' hv).suffix
  | bare hrun ha hn hne hg _ ih =>
    simp only [append, borders_addText] at hb
    exact (ih hb).mono (StartTag.Step.bare hrun ha hn hne hg).suffix

theorem edge_of_readStartTag {name b : Text} {t : StartTag} (h : readStartTag s = .ok (some (name, t)))
    (hb : b ∈ borders t.rest t.pieces) : InvocationEdge s b := by
  obtain ⟨n, r, v, hn, -, hv, rfl⟩ := readStartTag_ok_iff.1 h
  simp only [append, borders_addText] at hb
  exact (hv.edge hb).mono ((suffix_of_run hn).trans (List.drop_suffix 1 s))

/-- Each start tag ends with a `>`. -/
theorem StartTag.Reads.gt {element : Text} {t : StartTag} (h : StartTag.Reads element s t) :
    '>' :: t.rest <:+ s := by
  induction h with
  | close hb => exact suffix_of_run hb
  | closeSelf hb => exact (List.suffix_cons _ _).trans (suffix_of_run hb)
  | mustache hb ht _ ih => exact ih.trans (StartTag.Step.mustache hb ht).suffix
  | stray hb ha hn _ ih => exact ih.trans (StartTag.Step.stray hb ha hn).suffix
  | valued hb ha hn hne hg hg' hv _ _ ih =>
    exact ih.trans (StartTag.Step.valued hb ha hn hne hg hg' hv).suffix
  | bare hb ha hn hne hg _ ih => exact ih.trans (StartTag.Step.bare hb ha hn hne hg).suffix

theorem gt_of_readStartTag {name : Text} {t : StartTag} (h : readStartTag s = .ok (some (name, t))) :
    '>' :: t.rest <:+ s := by
  obtain ⟨n, r, v, hn, -, hv, rfl⟩ := readStartTag_ok_iff.1 h
  exact hv.gt.trans ((suffix_of_run hn).trans (List.drop_suffix 1 s))

/-- A border in `s` that lies before `b`: of an invocation, or at the beginning or the end of the body of a
local template. -/
inductive Edge (s : Text) : Text → Prop
  | invocation {b : Text} : InvocationEdge s b → Edge s b
  | bodyStart {b : Text} : '>' :: b <:+ s → Edge s b
  | bodyEnd {r : Text} : '<' :: r <:+ s → Edge s ('<' :: r)
  | unended : Edge s []

theorem Edge.mono {b : Text} (h : Edge w b) (hw : w <:+ s) : Edge s b := by
  cases h with
  | invocation h => exact .invocation (h.mono hw)
  | bodyStart h => exact .bodyStart (h.trans hw)
  | bodyEnd h => exact .bodyEnd (h.trans hw)
  | unended => exact .unended

/-- Markers are put in only around invocations and bodies of local templates. -/
theorem Reads.edge {tag b : Text} {inside : Bool} {m : Markup} (h : Reads tag inside s m u)
    (hb : b ∈ borders u m) : Edge s b := by
  induction h with
  | done => exact absurd hb List.not_mem_nil
  | stop _ _ => exact absurd hb List.not_mem_nil
  | unended _ _ => exact absurd hb List.not_mem_nil
  | verbatim hv _ ih =>
    rw [borders_addText] at hb
    exact (ih hb).mono (suffix_of_verbatim? hv)
  | single ha ht hs hm ih =>
    rcases border_of_startTag hm.eq hb with hb | hb
    · exact .invocation (edge_of_readStartTag ht hb.1)
    · exact (ih hb.1).mono (suffix_of_readStartTag ht)
  | @template inside s left close r u t body m ha ht hs hbody hc hm ihb ih =>
    have hl : left <:+ s := (hbody.eq ▸ List.suffix_append _ _).trans (suffix_of_readStartTag ht)
    rcases border_of_template hbody hc hm hb with hb | rfl | rfl | hb | hb
    · exact .invocation (edge_of_readStartTag ht hb)
    · exact .bodyStart (gt_of_readStartTag ht)
    · rcases hbody.rest with rfl | he
      · exact .unended
      · obtain ⟨w, rfl⟩ := lt_of_isEndTag he
        exact .bodyEnd hl
    · exact (ihb hb).mono (suffix_of_readStartTag ht)
    · exact (ih hb).mono ((suffix_of_through hc).trans hl)
  | @element inside s name content r u t m ha ht hs hn hc hm ih =>
    have hrest : t.rest = (addText content m).source ++ u := by
      rw [source_addText, List.append_assoc, ← hm.eq, ← eq_of_plainContent hc]
    rcases border_of_startTag hrest hb with hb | hb
    · exact .invocation (edge_of_readStartTag ht hb.1)
    · rw [borders_addText] at hb
      exact (ih hb.1).mono ((suffix_of_plainContent hc).trans (suffix_of_readStartTag ht))
  | char _ _ _ _ ih =>
    rw [borders_addText] at hb
    exact (ih hb).mono (List.suffix_cons _ _)

/-- Markers are put in a text only before a `<`, after a `>` or around an invocation. -/
theorem Edge.clear {b : Text} (h : Edge (before ++ (t ++ after)) b) (hshut : Text.Shut before)
    (hclose : close2 <:+ t) (hlt : '<' ∉ t) (hgt : '>' ∉ t) : Clear t after b := by
  cases h with
  | invocation h =>
    have hopeners : ∀ o ∈ openers, '>' ∈ o := by decide
    exact h.clear hshut hclose fun o ho hi => hgt (hi.subset (hopeners o ho))
  | bodyStart h =>
    obtain ⟨a, ha⟩ := h
    rw [← List.singleton_append, ← List.append_assoc] at ha
    rcases clear_or_divides ha.symm with h | ⟨x, y, hx, -, rfl, hdiv, -⟩
    · exact h
    · have hlast := congrArg List.getLast? hdiv
      rw [List.getLast?_append, List.getLast?_append_of_ne_nil before hx] at hlast
      exact absurd (List.mem_append_left y (List.mem_of_getLast? hlast.symm)) hgt
  | @bodyEnd r h =>
    obtain ⟨a, ha⟩ := h
    rcases clear_or_divides ha.symm with h | ⟨x, y, -, hy, rfl, -, hdiv⟩
    · exact h
    · obtain ⟨c, y, rfl⟩ := List.exists_cons_of_ne_nil hy
      obtain ⟨rfl, -⟩ := List.cons.inj hdiv
      simp at hlt
  | unended => exact .inl (Nat.zero_le _)

end Stencil.Markup
