import Mathlib
import Stencil.Proofs.Markup.Edges
/-!
Tags and raw blocks that escaping leaves alone.

No marker is put into a tag or a raw block that the reader passes over whole, nor into one in a start tag
that holds no opener of an invocation, nor into one without angle brackets (`Spared`).  Those stand in the
escaped markup as they were (`escape_spares`).

It is not so for every comment and raw block.  The reader takes the first closing braces for the end of a
comment in dashes, and in attribute values and between attributes it knows no comments and no raw blocks
(`escape_splits`).
-/

namespace Stencil

namespace Markup

variable {s u w before after : Text}

/-! ## Tokens that are left alone -/

/-- The first closing braces after the opening ones of a token that is closed once are its own. -/
theorem through_of_closedOnce {k : Token} (hk : k.ClosedOnce) (rest : Text) :
    ∃ v, k.whole.text = open2 ++ v ∧ Text.through close2 (v ++ rest) = (v, rest) := by
  obtain ⟨v, hv, hclosed⟩ := hk
  refine ⟨v ++ close2, by rw [hv, List.append_assoc], ?_⟩
  rw [Text.through, cut_close2_iff.2 hclosed]

/-- In text, a raw block is passed over whole, and a tag up to its first closing braces. -/
theorem verbatim?_of_next {k : Token} {i : Nat} {rest : Text} (hn : Token.next i s = .ok (k, rest))
    (hk : (∃ j b, k = .raw j b) ∨ (∃ t, k = .tag t) ∧ k.ClosedOnce) :
    verbatim? s = some (k.whole.text, rest) := by
  rcases hk with ⟨j, b, rfl⟩ | ⟨⟨t, rfl⟩, hclosed⟩
  · obtain ⟨hread, -⟩ := Token.next_raw.1 hn
    obtain ⟨r, -, -, hr, -⟩ := RawBlock.read_eq_some_iff.1 hread
    simp only [verbatim?, hr, hread]
    rfl
  · obtain ⟨r, -, h4, -⟩ := Token.next_tag.1 hn
    have h4 : Text.after? open4 s = none := by simpa [Text.startsWith] using h4
    obtain ⟨v, hv, hthrough⟩ := through_of_closedOnce hclosed rest
    have hs : s = open2 ++ (v ++ rest) := by
      rw [← (Token.next_eq hn).2, hv, List.append_assoc]
    have h2 : Text.after? open2 s = some (v ++ rest) := by rw [hs, Text.after?_append]
    simp only [verbatim?, h4, h2, hthrough, hv]

/-- Text that the reader, come to a place, passes over without a look into it: the text that begins at `s`
and ends before `r`. -/
inductive Unread (tag : Text) : Bool × Text → Text → Text → Prop
  | verbatim {inside : Bool} {s t r : Text} :
      verbatim? s = some (t, r) → Unread tag (inside, s) s r
  | rawText {inside : Bool} {s name content r : Text} {t : StartTag} :
      AtStartTag tag inside s → readStartTag s = .ok (some (name, t)) → t.selfClosing = false →
      name ≠ tag → plainContent name t.rest = (content, r) → Unread tag (inside, s) t.rest r
  | unended {inside : Bool} {s : Text} :
      AtStartTag tag inside s → readStartTag s = .ok none → Unread tag (inside, s) s []

/-- Where a token is left alone.  In text that is any raw block and a tag that is closed once; between
attributes a tag that is closed once; in a start tag whatever holds no opener of an invocation; whatever
lies in text that is passed over; and everywhere what holds no angle bracket. -/
inductive Spared (tag source : Text) (k : Token) : Prop
  | inText {inside : Bool} :
      Relation.ReflTransGen (Step tag) (false, source) (inside, k.onward source) →
      (∃ i b, k = .raw i b) ∨ (∃ t, k = .tag t) ∧ k.ClosedOnce → Spared tag source k
  | betweenAttributes {inside : Bool} {w n r v blanks : Text} :
      Relation.ReflTransGen (Step tag) (false, source) (inside, w) → AtStartTag tag inside w →
      Text.run isNameChar (w.drop 1) = (n, r) → Relation.ReflTransGen StartTag.Step r v →
      Text.run Text.isAsciiBlank v = (blanks, k.onward source) → k.ClosedOnce → Spared tag source k
  | inStartTag {inside : Bool} {w name : Text} {t : StartTag} :
      Relation.ReflTransGen (Step tag) (false, source) (inside, w) → AtStartTag tag inside w →
      readStartTag w = .ok (some (name, t)) → k.onward source <:+ w →
      k.whole.text.length + t.rest.length ≤ (k.onward source).length →
      (∀ o ∈ openers, ¬ o <:+: k.whole.text) → Spared tag source k
  | unread {p : Bool × Text} {v r : Text} :
      Relation.ReflTransGen (Step tag) (false, source) p → Unread tag p v r → k.onward source <:+ v →
      k.whole.text.length + r.length ≤ (k.onward source).length → Spared tag source k
  | noBracket : '<' ∉ k.whole.text → '>' ∉ k.whole.text → Spared tag source k

section

variable {tag source : Text} {k : Token} {inside : Bool} {m : Markup} {b : Text}

/-- No marker is put into text that is passed over. -/
theorem Unread.borders {p : Bool × Text} {v r : Text} (h : Unread tag p v r)
    (hr : Reads tag p.1 p.2 m u) :
    v.length ≤ p.2.length ∧ u.length ≤ r.length ∧
      ∀ b ∈ borders u m, v.length ≤ b.length ∨ b.length ≤ r.length := by
  cases h with
  | verbatim hv =>
    obtain ⟨q, rfl, hq⟩ := hr.passed hv
    refine ⟨Nat.le_refl _, hq.eq ▸ (List.suffix_append _ _).length_le, fun b hb => ?_⟩
    rw [borders_addText] at hb
    exact .inr (hq.eq ▸ (suffix_of_mem_borders hb).2.length_le)
  | rawText ha ht hs hn hc =>
    obtain ⟨q, rfl, hrest, -, -, helement⟩ := hr.startTag ha ht
    obtain ⟨content, r, q', hc', hq, rfl⟩ := helement hs hn
    obtain ⟨rfl, rfl⟩ := Prod.mk.inj (hc.symm.trans hc')
    refine ⟨(suffix_of_readStartTag ht).length_le, hq.eq ▸ (List.suffix_append _ _).length_le,
      fun b hb => ?_⟩
    rcases border_of_startTag hrest hb with hb | hb
    · exact .inl hb.2
    · rw [borders_addText] at hb
      exact .inr (hq.eq ▸ (suffix_of_mem_borders hb.1).2.length_le)
  | unended ha ht =>
    rcases hr.ends_or_unended ha with ⟨name, t, ht'⟩ | ⟨rfl, rfl⟩
    · cases ht.symm.trans ht'
    · exact ⟨Nat.le_refl _, Nat.le_refl _, fun b hb => absurd hb List.not_mem_nil⟩

theorem clear_of_unread {p : Bool × Text} {v r : Text} (hk : k.Stands source before after)
    (hm : Reads tag false source m []) (hb : b ∈ borders [] m)
    (hcourse : Relation.ReflTransGen (Step tag) (false, source) p) (hp : Unread tag p v r)
    (hv : k.onward source <:+ v) (hl : k.whole.text.length + r.length ≤ (k.onward source).length) :
    Clear k.whole.text after b := by
  obtain ⟨m', u', hr, -, hborders⟩ := borders_of_course hcourse hm
  obtain ⟨hstart, hstop, hamid⟩ := hp.borders hr
  have early (hle : v.length ≤ b.length) : Clear k.whole.text after b :=
    .inr (Nat.le_trans (hk.onward_eq ▸ hv.length_le) hle)
  have late (hle : b.length ≤ r.length) : Clear k.whole.text after b := by
    rw [hk.onward_eq, List.length_append] at hl
    exact .inl (by omega)
  rcases hborders b hb with hle | hb | hle
  · exact early (Nat.le_trans hstart hle)
  · exact (hamid b hb).elim early late
  · exact late (Nat.le_trans hle hstop)

theorem clear_of_inText (hk : k.Stands source before after) (hm : Reads tag false source m [])
    (hb : b ∈ borders [] m)
    (hcourse : Relation.ReflTransGen (Step tag) (false, source) (inside, k.onward source))
    (ht : (∃ i b, k = .raw i b) ∨ (∃ t, k = .tag t) ∧ k.ClosedOnce) :
    Clear k.whole.text after b :=
  clear_of_unread hk hm hb hcourse (.verbatim (verbatim?_of_next hk.next_eq ht)) List.suffix_rfl
    (by rw [hk.onward_eq, List.length_append])

/-- A border that lies in a start tag is a border of the tag. -/
theorem border_amid_startTag {name : Text} {t : StartTag} (hm : Reads tag false source m [])
    (hcourse : Relation.ReflTransGen (Step tag) (false, source) (inside, w))
    (ha : AtStartTag tag inside w) (ht : readStartTag w = .ok (some (name, t))) (hb : b ∈ borders [] m) :
    w.length ≤ b.length ∨ b ∈ borders t.rest t.pieces ∨ b.length ≤ t.rest.length := by
  obtain ⟨m', u', hr, -, hborders⟩ := borders_of_course hcourse hm
  obtain ⟨q, rfl, hrest, -⟩ := hr.startTag ha ht
  rcases hborders b hb with hl | hb | hl
  · exact .inl hl
  · exact .inr ((border_of_startTag hrest hb).imp And.left And.right)
  · refine .inr (.inr (Nat.le_trans hl ?_))
    rw [hrest, List.length_append]
    exact Nat.le_add_left _ _

theorem clear_of_inStartTag {name : Text} {t : StartTag} (hk : k.Stands source before after)
    (hm : Reads tag false source m []) (hb : b ∈ borders [] m)
    (hcourse : Relation.ReflTransGen (Step tag) (false, source) (inside, w))
    (ha : AtStartTag tag inside w) (ht : readStartTag w = .ok (some (name, t)))
    (hw : k.onward source <:+ w) (hl : k.whole.text.length + t.rest.length ≤ (k.onward source).length)
    (hclose : close2 <:+ k.whole.text) (hmute : ∀ o ∈ openers, ¬ o <:+: k.whole.text) :
    Clear k.whole.text after b := by
  rcases border_amid_startTag hm hcourse ha ht hb with hle | hb | hle
  · exact .inr (Nat.le_trans (hk.onward_eq ▸ hw.length_le) hle)
  · have hedge := (edge_of_readStartTag ht hb).mono (suffix_of_course hcourse)
    exact (hk.eq ▸ hedge).clear hk.shut hclose hmute
  · rw [hk.onward_eq, List.length_append] at hl
    exact .inl (by omega)

theorem clear_of_betweenAttributes {n r v blanks : Text} (hk : k.Stands source before after)
    (hm : Reads tag false source m []) (hb : b ∈ borders [] m)
    (hcourse : Relation.ReflTransGen (Step tag) (false, source) (inside, w))
    (ha : AtStartTag tag inside w) (hn : Text.run isNameChar (w.drop 1) = (n, r))
    (hcourse' : Relation.ReflTransGen StartTag.Step r v)
    (hblanks : Text.run Text.isAsciiBlank v = (blanks, k.onward source)) (hc : k.ClosedOnce) :
    Clear k.whole.text after b := by
  obtain ⟨m', u', hr, -, hborders⟩ := borders_of_course hcourse hm
  have hv : k.onward source <:+ v := suffix_of_run hblanks
  have hw : v <:+ w :=
    (StartTag.suffix_of_course hcourse').trans ((suffix_of_run hn).trans (List.drop_suffix 1 w))
  have early (hle : v.length ≤ b.length) : Clear k.whole.text after b :=
    .inr (Nat.le_trans (hk.onward_eq ▸ hv.length_le) hle)
  rcases hr.ends_or_unended ha with ⟨name, t, ht⟩ | ⟨rfl, rfl⟩
  · obtain ⟨x, hx, hthrough⟩ := through_of_closedOnce hc after
    rw [hk.onward_eq, hx] at hblanks
    obtain ⟨n', r', t', hn', -, ht', rfl⟩ := readStartTag_ok_iff.1 ht
    obtain ⟨rfl, rfl⟩ := Prod.mk.inj (hn.symm.trans hn')
    obtain ⟨t'', ht'', hrest, hborders'⟩ := StartTag.borders_of_course hcourse' ht'
    obtain ⟨q, hq, rfl⟩ := ht''.passed hblanks hthrough
    rcases border_amid_startTag hm hcourse ha ht hb with hle | hb | hle
    · exact early (Nat.le_trans hw.length_le hle)
    · simp only [append, borders_addText] at hb hborders'
      rcases hborders' b hb with hle | hb
      · exact early hle
      · exact .inl (hq.eq ▸ (suffix_of_mem_borders hb).2.length_le)
    · have hafter : t'.rest.length ≤ after.length :=
        hrest ▸ hq.eq ▸ (List.suffix_append _ _).length_le
      exact .inl (Nat.le_trans hle hafter)
  · rcases hborders b hb with hle | hb | hle
    · exact early (Nat.le_trans hw.length_le hle)
    · exact absurd hb List.not_mem_nil
    · exact .inl (Nat.le_trans hle (Nat.zero_le _))

/-- No marker is put into a token that is left alone. -/
theorem Spared.clear (h : Spared tag source k) (hk : k.Stands source before after)
    (hne : ∀ p, k ≠ .text p) (hm : Reads tag false source m []) (hb : b ∈ borders [] m) :
    Clear k.whole.text after b := by
  have hclose := Token.close2_suffix_of_next hk.next_eq hne
  cases h with
  | inText hcourse ht => exact clear_of_inText hk hm hb hcourse ht
  | betweenAttributes hcourse ha hn hcourse' hblanks hc =>
    exact clear_of_betweenAttributes hk hm hb hcourse ha hn hcourse' hblanks hc
  | inStartTag hcourse ha ht hw hl hmute =>
    exact clear_of_inStartTag hk hm hb hcourse ha ht hw hl hclose hmute
  | unread hcourse hp hv hl => exact clear_of_unread hk hm hb hcourse hp hv hl
  | noBracket hlt hgt => exact (hk.eq ▸ hm.edge hb).clear hk.shut hclose hlt hgt

end

end Markup

namespace Escaper

/-- Where no end of a range lies in a token, the token is passed on as it stands. -/
theorem infix_of_clear {source before after out : Text} {k : Token} {ranges : List ByteRange}
    (hk : k.Stands source before after) (hi : Inserted ranges 0 source out)
    (h : ∀ r ∈ ranges, r.Clear k.whole.start k.whole.stop) : k.whole.text <:+: out := by
  rw [hk.eq] at hi
  refine hi.infix fun r hr => ?_
  have := h r hr
  rwa [Slice.stop, hk.start_eq, ← Nat.zero_add (Text.size before)] at this

/-- Escaping puts no marker into the tags and raw blocks that are left alone, and passes them on as they
stand. -/
theorem escape_spares (e : Escaper) {source out : Text} {ts : List Token} (ht : tokens source = .ok ts)
    (he : e.escape source = .ok out) :
    ∃ ranges, Inserted ranges 0 source out ∧ ∀ k ∈ ts, (∀ p, k ≠ .text p) →
      Markup.Spared e.tag source k →
        (∀ r ∈ ranges, r.Clear k.whole.start k.whole.stop) ∧ k.whole.text <:+: out := by
  obtain ⟨m, hm, rfl⟩ := Except.map_eq_ok_iff.1 he
  have hreads := Markup.ofText_ok_iff.1 hm
  have hsource := Markup.source_ofText hm
  have hi := Markup.inserted 0 hreads.solid
  rw [hsource] at hi
  refine ⟨m.ranges 0, hi, fun k hk hne hspared => ?_⟩
  obtain ⟨before, after, hstands⟩ := Token.exists_stands_of_mem ht hk
  have hclear : ∀ r ∈ m.ranges 0, r.Clear k.whole.start k.whole.stop := by
    intro r hr
    rw [Slice.stop, hstands.start_eq]
    exact Markup.clear_of_borders (hsource.trans hstands.eq)
      (fun b hb => hspared.clear hstands hne hreads hb) hr
  exact ⟨hclear, infix_of_clear hstands hi hclear⟩

/-! A page with a raw block in text and with comments between attributes, in a value and in a comment of
the markup. -/

def block : Text := Markup.guard "{{> a}}".toList

def hint : Text := open2 ++ "! ".toList ++ "{{> b}}".toList

def note : Text := open2 ++ "!-- <i> --".toList ++ close2

def cellTag : Text :=
  "<p ".toList ++ hint ++ " title='".toList ++ note ++ "{{> c}}{{! d }}".toList ++ "'>".toList

def aside : Text := "<!--{{! <x> }}-->".toList

def page : Text := block ++ (cellTag ++ aside)

def cellStart : Markup.StartTag where
  pieces := .text ("<p ".toList ++ hint ++ " title='".toList ++ note)
    (.invocation "{{> c}}".toList (.text ("{{! d }}".toList ++ "'>".toList) .nil))
  selfClosing := false
  rest := aside

def blockToken : Token := .raw 0 ⟨RawBlock.protector, "{{> a}}".toList, '/' :: RawBlock.protector⟩

def hintToken : Token := .tag ⟨.comment, ⟨37, open2 ++ "> b".toList⟩, ⟨33, hint⟩⟩

def noteToken : Token := .tag ⟨.comment, ⟨57, " <i> ".toList⟩, ⟨52, note⟩⟩

def dToken : Token := .tag ⟨.comment, ⟨77, "d".toList⟩, ⟨73, "{{! d }}".toList⟩⟩

def asideToken : Token := .tag ⟨.comment, ⟨91, "<x>".toList⟩, ⟨87, "{{! <x> }}".toList⟩⟩

def pageTokens : List Token :=
  [blockToken, .text ⟨30, "<p ".toList⟩, hintToken, .text ⟨44, " title='".toList⟩, noteToken,
    .tag ⟨.invocation, ⟨70, "c".toList⟩, ⟨66, "{{> c}}".toList⟩⟩, dToken, .text ⟨81, "'><!--".toList⟩,
    asideToken, .text ⟨97, "-->".toList⟩]

def pageOut : Text :=
  block ++ ("<p ".toList ++ hint ++ " title='".toList ++ note ++ Markup.guard "{{> c}}".toList ++
    "{{! d }}".toList ++ "'>".toList ++ aside)

/-- The comments and the raw block of the page. -/
def pageVerbatim : List Token :=
  [blockToken, hintToken, noteToken, dToken, asideToken]

theorem spared_page : ∀ k ∈ pageVerbatim, Markup.Spared default.tag page k := by
  have cell : Markup.Step default.tag (false, page) (false, cellTag ++ aside) :=
    .verbatim (show Markup.verbatim? page = some (block, cellTag ++ aside) by decide +kernel)
  have hstart : Markup.AtStartTag default.tag false (cellTag ++ aside) :=
    ⟨by decide +kernel, by decide +kernel, by decide +kernel⟩
  have hread : Markup.readStartTag (cellTag ++ aside) = .ok (some (['p'], cellStart)) := by cbv
  have after : Markup.Step default.tag (false, cellTag ++ aside) (false, aside) :=
    .element hstart hread rfl (by decide) (show Markup.plainContent _ _ = ([], aside) by decide +kernel)
  simp only [pageVerbatim, List.forall_mem_cons]
  refine ⟨?_, ?_, ?_, ?_, ?_, fun k hk => absurd hk List.not_mem_nil⟩
  · have hplace : blockToken.onward page = page := by decide +kernel
    have here : Relation.ReflTransGen (Markup.Step default.tag) (false, page)
      (false, blockToken.onward page) := hplace ▸ .refl
    exact .inText here (.inl ⟨_, _, rfl⟩)
  · exact .betweenAttributes (.single cell) hstart
      (show Text.run _ _ = (['p'], (cellTag ++ aside).drop 2) by decide +kernel) .refl
      (show Text.run _ _ = ([' '], _) by decide +kernel)
      ⟨"! ".toList ++ open2 ++ "> b".toList, by decide, by unfold Closeless; decide⟩
  · exact .inStartTag (.single cell) hstart hread (by decide +kernel) (by decide +kernel)
      (by decide +kernel)
  · exact .noBracket (by decide) (by decide)
  · exact .unread (.tail (.single cell) after)
      (.verbatim (show Markup.verbatim? aside = some (aside, []) by decide +kernel))
      (by decide +kernel) (by decide +kernel)

theorem escape_spares_page : tokens page = .ok pageTokens ∧ default.escape page = .ok pageOut ∧
    ∃ ranges, Inserted ranges 0 page pageOut ∧ ∀ k ∈ pageVerbatim, k ∈ pageTokens ∧
      (∀ p, k ≠ .text p) ∧ Markup.Spared default.tag page k ∧
        (∀ r ∈ ranges, r.Clear k.whole.start k.whole.stop) ∧ k.whole.text <:+: pageOut := by
  have ht : tokens page = .ok pageTokens := by decide +kernel
  have he : default.escape page = .ok pageOut := by decide +kernel
  have hmem : ∀ k ∈ pageVerbatim, k ∈ pageTokens := by decide +kernel
  obtain ⟨ranges, hi, h⟩ := escape_spares default ht he
  refine ⟨ht, he, ranges, hi, fun k hk => ?_⟩
  have hne : ∀ p, k ≠ .text p := by
    rintro p rfl
    simp [pageVerbatim, blockToken, hintToken, noteToken, dToken, asideToken] at hk
  exact ⟨hmem k hk, hne, spared_page k hk, h k (hmem k hk) hne (spared_page k hk)⟩

/-! ## Comments and raw blocks with a marker in them -/

/-- Escaping puts a marker into a token of the markup. -/
def Splits (e : Escaper) (source : Text) (k : Token) : Prop :=
  ∃ ts out, tokens source = .ok ts ∧ k ∈ ts ∧ e.escape source = .ok out ∧
    ∀ ranges, Inserted ranges 0 source out → ∃ r ∈ ranges, ¬ r.Clear k.whole.start k.whole.stop

theorem splits_of_not_infix {e : Escaper} {source out : Text} {k : Token} {ts : List Token}
    (ht : tokens source = .ok ts) (hk : k ∈ ts) (he : e.escape source = .ok out)
    (hn : ¬ k.whole.text <:+: out) : e.Splits source k := by
  refine ⟨ts, out, ht, hk, he, fun ranges hi => ?_⟩
  obtain ⟨before, after, hstands⟩ := Token.exists_stands_of_mem ht hk
  by_contra hall
  exact hn (infix_of_clear hstands hi fun r hr => by_contra fun hr' => hall ⟨r, hr, hr'⟩)

/-- A comment in dashes with closing braces in it. -/
def dashed : Text :=
  open2 ++ "!-- ".toList ++ close2 ++ " <template>x</template> --".toList ++ close2

def dashedToken : Token :=
  .tag ⟨.comment, ⟨5, ' ' :: close2 ++ " <template>x</template> ".toList⟩, ⟨0, dashed⟩⟩

/-- A raw block in an attribute value. -/
def quotedBlock : Text :=
  "<p title=".toList ++ '"' :: Markup.guard "a {{> x}}".toList ++ ['"', '>']

def quotedBlockToken : Token :=
  .raw 10 ⟨RawBlock.protector, "a {{> x}}".toList, '/' :: RawBlock.protector⟩

/-- A comment in an attribute value. -/
def quotedHint : Text :=
  "<p title=".toList ++ '"' :: hint ++ ['"', '>']

def quotedHintToken : Token :=
  .tag ⟨.comment, ⟨14, open2 ++ "> b".toList⟩, ⟨10, hint⟩⟩

/-- A raw block between attributes. -/
def attributeBlock : Text :=
  "<p ".toList ++ Markup.guard "><template>x</template>".toList ++ ['>']

def attributeBlockToken : Token :=
  .raw 3 ⟨RawBlock.protector, "><template>x</template>".toList, '/' :: RawBlock.protector⟩

/-- A marker is put into a comment in dashes that holds closing braces, into a raw block and a comment that
hold an invocation in an attribute value, and into a raw block between attributes. -/
theorem escape_splits : default.Splits dashed dashedToken ∧ default.Splits quotedBlock quotedBlockToken ∧
    default.Splits quotedHint quotedHintToken ∧ default.Splits attributeBlock attributeBlockToken := by
  refine ⟨?_, ?_, ?_, ?_⟩
  · have ht : tokens dashed = .ok [dashedToken] := by decide +kernel
    have he : default.escape dashed = .ok (open2 ++ "!-- ".toList ++ close2 ++ " <template>".toList ++
        Markup.guard ['x'] ++ "</template> --".toList ++ close2) := by decide +kernel
    exact splits_of_not_infix ht (by decide) he (by decide +kernel)
  · have ht : tokens quotedBlock = .ok [.text ⟨0, "<p title=".toList ++ ['"']⟩, quotedBlockToken,
        .text ⟨42, ['"', '>']⟩] := by decide +kernel
    have he : default.escape quotedBlock = .ok ("<p title=".toList ++ '"' :: RawBlock.opening ++
        "a ".toList ++ Markup.guard "{{> x}}".toList ++ RawBlock.closing ++ ['"', '>']) := by
      decide +kernel
    exact splits_of_not_infix ht (by decide) he (by decide +kernel)
  · have ht : tokens quotedHint = .ok [.text ⟨0, "<p title=".toList ++ ['"']⟩, quotedHintToken,
        .text ⟨21, ['"', '>']⟩] := by decide +kernel
    have he : default.escape quotedHint = .ok ("<p title=".toList ++ '"' :: open2 ++ "! ".toList ++
        Markup.guard "{{> b}}".toList ++ ['"', '>']) := by
      decide +kernel
    exact splits_of_not_infix ht (by decide) he (by decide +kernel)
  · have ht : tokens attributeBlock = .ok [.text ⟨0, "<p ".toList⟩, attributeBlockToken,
        .text ⟨49, ['>']⟩] := by decide +kernel
    have he : default.escape attributeBlock = .ok ("<p ".toList ++ RawBlock.opening ++
        "><template>".toList ++ Markup.guard ['x'] ++ "</template>".toList ++ RawBlock.closing ++
          ['>']) := by
      decide +kernel
    exact splits_of_not_infix ht (by decide) he (by decide +kernel)

end Escaper

end Stencil
