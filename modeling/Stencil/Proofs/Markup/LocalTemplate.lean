import Mathlib
import Stencil.Proofs.Markup.Within
import Stencil.Proofs.Syntax.Stream
/-!
A local template, escaped and then parsed.

The body of a local template is read as it is read on its own, so escaping puts one pair of raw markers
around the escaped body (`escape_inElement`).  The parser takes the result for a start tag, one raw block
and an end tag exactly if the escaped body is sealed (`parse_escape_element_iff`).  A body that ends in an
opening brace is not: the brace runs into the closing marker (`parse_escape_element_brace`).
-/

namespace Stencil

/-! ## A guarded text between plain texts -/

section Guarded

variable {p s q : Text}

/-- A text that is not empty and neither opens a tag nor escapes one. -/
def Plain (p : Text) : Prop :=
  p ≠ [] ∧ p.all (fun c => c ≠ '{' && c ≠ '\\') = true

instance : DecidablePred Plain := fun p =>
  inferInstanceAs (Decidable (p ≠ [] ∧ p.all (fun c => c ≠ '{' && c ≠ '\\') = true))

theorem Plain.char (hp : Plain p) : ∀ c ∈ p, c ≠ '{' ∧ c ≠ '\\' := by
  intro c hc
  simpa using List.all_eq_true.1 hp.2 c hc

theorem Plain.not_open (hp : Plain p) (r : Text) : Text.after? open2 (p ++ r) = none := by
  obtain ⟨c, p, rfl⟩ := List.exists_cons_of_ne_nil hp.1
  have hc := (hp.char c List.mem_cons_self).1
  simp [open2, Text.after?, hc.symm]

theorem next_plain (hp : Plain p) (start : Nat) {r : Text} (hr : (Token.literal r).1 = []) :
    Token.next start (p ++ r) = .ok (.text ⟨start, p⟩, r) := by
  have hr' : (Token.literal r).2 = r := by
    have := Token.literal_eq r
    rwa [hr, List.nil_append] at this
  rw [Token.next, hp.not_open]
  simp only [Token.literal_append hp.char, hr, hr', List.append_nil]

theorem after?_guard (s r : Text) :
    Text.after? open2 (Markup.guard s ++ r) =
      some ('{' :: '{' :: (RawBlock.protector ++ close4 ++ s ++ RawBlock.closing ++ r)) := by
  simp [Markup.guard, RawBlock.opening, open4, open2, Text.after?]

theorem next_guard (start : Nat) (s r : Text) :
    Token.next start (Markup.guard s ++ r) =
      match RawBlock.read (Markup.guard s ++ r) with
      | none => .error .rawBlock
      | some (b, u) => .ok (.raw start b, u) := by
  have h4 : Text.startsWith open4 (Markup.guard s ++ r) = true := by
    simp [Markup.guard, RawBlock.opening, open4, Text.startsWith, Text.after?]
  rw [Token.next, after?_guard, h4]
  rfl

theorem parse_of_stream {ts : List Token} {source : Text} (h : Token.stream 0 source = .ok ts) :
    parse source = Parser.start.run ts >>= Parser.finish := by
  rw [parse, tokens, h]
  rfl

/-- The tokens of a guarded text between plain ones, as far as they do not depend on where the guarded
text is taken to end. -/
theorem stream_guarded (hp : Plain p) :
    Token.stream 0 (p ++ Markup.guard s ++ q) =
      match RawBlock.read (Markup.guard s ++ q) with
      | none => .error ⟨.rawBlock, Text.size p⟩
      | some (b, u) => (Token.stream (Text.size p + Text.size b.written) u).map fun ts =>
          .text ⟨0, p⟩ :: .raw (Text.size p) b :: ts := by
  have hg : (Token.literal (Markup.guard s ++ q)).1 = [] := by
    rw [Token.literal_of_open (after?_guard s q)]
  have hne : Markup.guard s ++ q ≠ [] := by simp [Markup.guard, RawBlock.opening, open4]
  have hn := next_guard (Text.size p) s q
  rw [List.append_assoc, Token.stream_of_next (by simp [hp.1]) (next_plain hp 0 hg)]
  simp only [Token.whole, Slice.stop, Nat.zero_add]
  cases hr : RawBlock.read (Markup.guard s ++ q) with
  | none =>
    simp only [hr] at hn
    rw [Token.stream_of_fault hne hn]
    rfl
  | some bu =>
    obtain ⟨b, u⟩ := bu
    simp only [hr] at hn
    rw [Token.stream_of_next hne hn]
    simp only [Token.whole, Slice.stop]
    cases Token.stream (Text.size p + Text.size b.written) u <;> rfl

/-- A guarded text between plain ones is parsed as one raw block exactly if it is sealed. -/
theorem parse_guarded_iff (hp : Plain p) (hq : Plain q) :
    parse (p ++ Markup.guard s ++ q) =
        .ok [.text p, .raw RawBlock.protector s ⟨Text.size p, Markup.guard s⟩, .text q] ↔
      RawBlock.Sealed RawBlock.protector 0 s := by
  have hstream := stream_guarded (s := s) (q := q) hp
  constructor
  · intro h
    cases hr : RawBlock.read (Markup.guard s ++ q) with
    | none =>
      simp only [hr] at hstream
      rw [parse, tokens, hstream] at h
      exact nomatch h
    | some bu =>
      obtain ⟨b, u⟩ := bu
      simp only [hr] at hstream
      cases hts : Token.stream (Text.size p + Text.size b.written) u with
      | error e =>
        rw [parse, tokens, hstream, hts] at h
        exact nomatch h
      | ok ts =>
        rw [hts] at hstream
        rw [parse_of_stream hstream] at h
        -- the two nodes that the tokens give lie outside all blocks, so they head the tree
        obtain ⟨t, ht⟩ := Parser.root_prefix_finish (p := ⟨[.text p,
          .raw b.helper b.content ⟨Text.size p, b.written⟩], []⟩) h
        simp only [List.cons_append, List.cons.injEq, Node.raw.injEq] at ht
        exact (RawBlock.read_guard_iff.1 ⟨hr, ht.2.1.2.1⟩).1
  · intro hs
    obtain ⟨hr, -⟩ := (RawBlock.read_guard_iff (x := q)).2 ⟨hs, rfl, rfl⟩
    have hw : (⟨RawBlock.protector, s, '/' :: RawBlock.protector⟩ : RawBlock).written =
        Markup.guard s := by
      simp [RawBlock.written, Markup.guard, RawBlock.opening, RawBlock.closing]
    have hh : (⟨RawBlock.protector, s, '/' :: RawBlock.protector⟩ : RawBlock).helper =
        RawBlock.protector :=
      show (Text.firstWord RawBlock.protector).getD [] = RawBlock.protector by decide
    have hn := next_plain hq (Text.size p + Text.size (Markup.guard s)) (r := []) (by rw [Token.literal])
    rw [List.append_nil] at hn
    have hq' := Token.stream_of_next hq.1 hn
    rw [Token.stream_nil] at hq'
    simp only [hr, hw, hq'] at hstream
    rw [parse_of_stream hstream]
    simp only [Parser.run, Parser.step, hh, hw]
    rfl

end Guarded

namespace Markup

/-! ## Elements -/

def openTag (tag : Text) : Text :=
  '<' :: tag ++ ['>']

def closeTag (tag : Text) : Text :=
  '<' :: '/' :: tag ++ ['>']

/-- A text in an element. -/
def inElement (tag b : Text) : Text :=
  openTag tag ++ b ++ closeTag tag

/-- The element is read as one local template with the text as its body. -/
def ReadsAsElement (tag b : Text) : Prop :=
  ∃ body, ofText tag (inElement tag b) = .ok (text (openTag tag) (definition body (closeTag tag) nil))

/-- The element is read as one local template with the text as its body when the local templates have the
name of the element, in any case of ASCII letters. -/
def ReadsAsBody (name b : Text) : Prop :=
  ∃ body, ofText (Text.lowerAscii name) (inElement name b) =
    .ok (text (openTag name) (definition body (closeTag name) nil))

/-- The name of an element that has no capitals. -/
structure TagName (tag : Text) : Prop extends ElementName tag where
  lower : Text.lowerAscii tag = tag

theorem tagName_defaultTag : TagName defaultTag :=
  ⟨⟨⟨'t', "emplate".toList, rfl, rfl⟩, List.all_eq_true.1 (by decide)⟩, by decide⟩

section Element

variable {name b : Text}

/-- What is not a small letter stands in a text if it does in the text in small letters. -/
theorem mem_of_mem_lowerAscii {s : Text} {c : Char} (hc : c.isLower = false)
    (h : c ∈ Text.lowerAscii s) : c ∈ s := by
  obtain ⟨d, hd, he⟩ := List.mem_map.1 h
  have hdc : d = c := by grind [Char.toLower, Char.isLower]
  exact hdc ▸ hd

theorem ElementName.lt_not_mem (h : ElementName name) : '<' ∉ Text.lowerAscii name :=
  fun hm => absurd (h.chars '<' (mem_of_mem_lowerAscii (by decide) hm)) (by decide)

theorem ElementName.gt_not_mem (h : ElementName name) : '>' ∉ Text.lowerAscii name :=
  fun hm => absurd (h.chars '>' (mem_of_mem_lowerAscii (by decide) hm)) (by decide)

theorem not_ends_of_isNameChar {c : Char} (h : isNameChar c = true) :
    (c = '>' || Text.isAsciiBlank c) = false := by
  rw [Bool.eq_false_iff]
  intro he
  simp only [Text.isAsciiBlank, Bool.or_eq_true, decide_eq_true_eq] at he
  rcases he with rfl | (((rfl | rfl) | rfl) | rfl) | rfl <;> revert h <;> decide

theorem readStartTag_openTag (h : ElementName name) (r : Text) :
    readStartTag (openTag name ++ r) =
      .ok (some (Text.lowerAscii name, ⟨text (openTag name) nil, false, r⟩)) := by
  refine readStartTag_ok_iff.2 ⟨name, '>' :: r, ⟨text ['>'] nil, false, r⟩, ?_, rfl, ?_, ?_⟩
  · rw [openTag, List.cons_append, List.cons_append, List.drop_one, List.tail_cons, List.append_assoc]
    exact h.run (by decide) r
  · exact .close (b := []) rfl
  · simp [append, addText, openTag]

theorem opensTag_openTag (h : ElementName name) (r : Text) : opensTag (openTag name ++ r) = true := by
  obtain ⟨c, t, rfl, hc⟩ := h.initial
  exact hc

theorem verbatim?_openTag (h : ElementName name) (r : Text) : verbatim? (openTag name ++ r) = none := by
  obtain ⟨c, t, rfl, hc⟩ := h.initial
  have : c ≠ '!' := by
    rintro rfl
    simp at hc
  simp [verbatim?, openTag, Text.after?, open4, open2, this.symm]

/-- An end tag ends the elements of its own name only. -/
theorem isEndTag_closeTag (h : ElementName name) {tag : Text} (htag : '>' ∉ tag)
    (he : isEndTag tag (closeTag name) = true) : tag = Text.lowerAscii name := by
  have ha : Text.after? ['<', '/'] (closeTag name) = some (name ++ ['>']) := by
    simp [closeTag, Text.after?]
  unfold isEndTag at he
  rw [ha] at he
  simp only [Bool.and_eq_true, decide_eq_true_eq] at he
  rcases Nat.lt_trichotomy tag.length name.length with hlt | heq | hgt
  · obtain ⟨d, w, hd⟩ := List.exists_cons_of_ne_nil (l := name.drop tag.length) (by simp; omega)
    have hmem : d ∈ name := List.mem_of_mem_drop (hd ▸ List.mem_cons_self)
    rw [List.drop_append_of_le_length (by omega), hd] at he
    have := not_ends_of_isNameChar (h.chars d hmem)
    simp [this] at he
  · rw [heq, List.take_left] at he
    exact he.1.symm
  · rw [List.take_of_length_le (by simp; omega)] at he
    refine absurd ?_ htag
    rw [← he.1, Text.lowerAscii, List.mem_map]
    exact ⟨'>', by simp, by decide⟩

theorem Reads.of_element (h : ElementName name) {body : Markup}
    (hr : Reads (Text.lowerAscii name) false (inElement name b)
      (text (openTag name) (definition body (closeTag name) nil)) []) :
    Reads (Text.lowerAscii name) true (b ++ closeTag name) body (closeTag name) := by
  have ht := readStartTag_openTag h (b ++ closeTag name)
  have hv := verbatim?_openTag h (b ++ closeTag name)
  have ho := opensTag_openTag h (b ++ closeTag name)
  rw [← List.append_assoc, ← inElement] at ht hv ho
  generalize inElement name b = z at hr ht hv ho
  generalize hm : text (openTag name) (definition body (closeTag name) nil) = m at hr
  cases hr with
  | done => simp [opensTag] at ho
  | verbatim hv' _ => simp [hv] at hv'
  | unended _ ht' => simp [ht] at ht'
  | single _ ht' hs _ =>
    rw [ht, Except.ok.injEq, Option.some.injEq, Prod.mk.injEq] at ht'
    simp [← ht'.2] at hs
  | template _ ht' _ hb hc hm' =>
    rw [ht, Except.ok.injEq, Option.some.injEq, Prod.mk.injEq] at ht'
    obtain ⟨-, rfl⟩ := ht'
    simp only [append, addText, openTag, List.cons_append, text.injEq, definition.injEq] at hm
    obtain ⟨-, rfl, rfl, rfl⟩ := hm
    have hr := hm'.eq
    have hl := Text.eq_of_through hc
    rw [hr, source, List.append_nil, List.append_nil] at hl
    rwa [hl] at hb
  | element _ ht' _ hn _ _ =>
    rw [ht, Except.ok.injEq, Option.some.injEq, Prod.mk.injEq] at ht'
    exact absurd ht'.1.symm hn
  | char _ _ ho' _ => simp [ho] at ho'

/-- The body of an element is read as it is read on its own. -/
theorem ofText_of_inElement (h : ElementName name) {body : Markup}
    (hr : ofText (Text.lowerAscii name) (inElement name b) =
      .ok (text (openTag name) (definition body (closeTag name) nil))) :
    ofText (Text.lowerAscii name) b = .ok body := by
  have hraw : ∀ tag ∈ rawTextElements, tag ≠ Text.lowerAscii name →
      isEndTag tag (closeTag name) = false := by
    intro tag hmem hne
    have hgt : ∀ n ∈ rawTextElements, '>' ∉ n := by decide
    rw [Bool.eq_false_iff]
    exact fun he => hne (isEndTag_closeTag h (hgt tag hmem) he)
  exact ofText_ok_iff.2
    ((Reads.of_element h (ofText_ok_iff.1 hr)).of_append (u := []) h.lt_not_mem hraw rfl rfl)

/-- A body that is not blank is escaped in its element as on its own, and guarded. -/
theorem escape_of_readsAsBody (h : ElementName name) (hr : ReadsAsBody name b) :
    ∃ b', escape (Text.lowerAscii name) b = .ok b' ∧
      escape (Text.lowerAscii name) (inElement name b) =
        .ok (openTag name ++ (if Text.allBlank b then b else guard b') ++ closeTag name) := by
  obtain ⟨body, hr⟩ := hr
  have hb := ofText_of_inElement h hr
  refine ⟨body.guarded, by rw [escape, hb]; rfl, ?_⟩
  rw [escape, hr, ← source_ofText hb]
  simp [Except.map, guarded]

theorem escape_inElement {tag : Text} (h : TagName tag) (hr : ReadsAsElement tag b) :
    ∃ b', escape tag b = .ok b' ∧ escape tag (inElement tag b) =
      .ok (openTag tag ++ (if Text.allBlank b then b else guard b') ++ closeTag tag) := by
  have hbody : ReadsAsBody tag b := by
    rw [ReadsAsBody, h.lower]
    exact hr
  have := escape_of_readsAsBody h.toElementName hbody
  rwa [h.lower] at this

end Element

/-! ## The parser on an escaped element -/

/-- A local template whose body is not blank is escaped to a start tag, the guarded escaped body and an
end tag.  The parser reads it as exactly these three parts if and only if the escaped body is sealed. -/
theorem parse_escape_element_iff {b b' : Text} (hb : Text.allBlank b = false)
    (hr : ReadsAsElement defaultTag b) (he : escape defaultTag b = .ok b') :
    ∃ out, escape defaultTag (inElement defaultTag b) = .ok out ∧
      (parse out =
          .ok [.text (openTag defaultTag),
            .raw RawBlock.protector b' ⟨Text.size (openTag defaultTag), guard b'⟩,
            .text (closeTag defaultTag)] ↔
        RawBlock.Sealed RawBlock.protector 0 b') := by
  obtain ⟨b'', he', hout⟩ := escape_inElement tagName_defaultTag hr
  obtain rfl := Except.ok.inj (he.symm.trans he')
  rw [hb, if_neg Bool.false_ne_true] at hout
  exact ⟨_, hout, parse_guarded_iff (by decide) (by decide)⟩

/-- A body that is a local template itself. -/
def nested : Text :=
  inElement defaultTag "{{> a}}".toList

def nestedEscaped : Text :=
  openTag defaultTag ++ guard "{{> a}}".toList ++ closeTag defaultTag

theorem parse_escape_element_nested :
    Text.allBlank nested = false ∧ ReadsAsElement defaultTag nested ∧
      escape defaultTag nested = .ok nestedEscaped ∧
      ∃ out, escape defaultTag (inElement defaultTag nested) = .ok out ∧
        (parse out =
            .ok [.text (openTag defaultTag),
              .raw RawBlock.protector nestedEscaped
                ⟨Text.size (openTag defaultTag), guard nestedEscaped⟩,
              .text (closeTag defaultTag)] ↔
          RawBlock.Sealed RawBlock.protector 0 nestedEscaped) := by
  have hb : Text.allBlank nested = false := by decide
  have hr : ReadsAsElement defaultTag nested := by
    refine ⟨text (openTag defaultTag) ?_, ?_⟩
    · exact definition (text "{{> a}}".toList nil) (closeTag defaultTag) nil
    · decide +kernel
  have he : escape defaultTag nested = .ok nestedEscaped := by decide +kernel
  exact ⟨hb, hr, he, parse_escape_element_iff hb hr he⟩

/-- The body `x{` is parsed, read and escaped, but its escaped element is not parsed: the brace and the
closing marker together are taken for a marker without an end. -/
theorem parse_escape_element_brace :
    Text.allBlank ['x', '{'] = false ∧ parse ['x', '{'] = .ok [.text ['x', '{']] ∧
      ReadsAsElement defaultTag ['x', '{'] ∧ escape defaultTag ['x', '{'] = .ok ['x', '{'] ∧
      escape defaultTag (inElement defaultTag ['x', '{']) =
        .ok (openTag defaultTag ++ guard ['x', '{'] ++ closeTag defaultTag) ∧
      parse (openTag defaultTag ++ guard ['x', '{'] ++ closeTag defaultTag) =
        .error ⟨.rawBlock, 10⟩ := by
  have hp : parse ['x', '{'] = .ok [.text ['x', '{']] := by cbv
  have hr : ReadsAsElement defaultTag ['x', '{'] := ⟨text ['x', '{'] nil, by decide +kernel⟩
  have ht : tokens (openTag defaultTag ++ guard ['x', '{'] ++ closeTag defaultTag) =
      .error ⟨.rawBlock, 10⟩ := by
    decide +kernel
  refine ⟨by decide, hp, hr, by decide +kernel, by decide +kernel, ?_⟩
  rw [parse, ht]
  rfl

end Markup

end Stencil
