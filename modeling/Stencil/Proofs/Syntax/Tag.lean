import Mathlib.Data.List.Chain
import Mathlib.Data.List.TakeWhile
import Stencil.Proofs.Syntax.RawBlock
import Stencil.Proofs.Syntax.Stream
/-!
Tokens in a text that goes on, and tags whose content is exchanged.

A token is read again wherever its text stands (`Token.next_of_written`), so long as a piece of literal
text is not followed by what would belong to it.  A tag that names a partial or closes a block is read
again, with the new content, when its content is exchanged for another that could stand in a tag
(`Tag.exists_exchange`).
-/

namespace Stencil

/-! ## Blanks at the ends -/

namespace Text

/-- No ASCII blank stands at either end. -/
def Trimmed (s : Text) : Prop :=
  (∀ c, s.head? = some c → isAsciiBlank c = false) ∧ ∀ c, s.getLast? = some c → isAsciiBlank c = false

end Text

namespace Slice

theorem trim_append (n : Nat) {a m b : Text} (ha : ∀ c ∈ a, Text.isAsciiBlank c = true)
    (hb : ∀ c ∈ b, Text.isAsciiBlank c = true) (hm : Text.Trimmed m) (hne : m ≠ []) :
    trim ⟨n, a ++ m ++ b⟩ = ⟨n + Text.size a, m⟩ := by
  have hrun : Text.run Text.isAsciiBlank (a ++ m ++ b) = (a, m ++ b) := by
    rw [List.append_assoc]
    refine Text.run_of_all ha fun c hc => hm.1 c ?_
    rwa [List.head?_append_of_ne_nil m hne] at hc
  simp only [trim, hrun, Text.trimEndBy_append hb hm.2]

theorem trim_eq (s : Slice) :
    ∃ a b, s.text = a ++ s.trim.text ++ b ∧ (∀ c ∈ a, Text.isAsciiBlank c = true) ∧
      (∀ c ∈ b, Text.isAsciiBlank c = true) ∧ s.trim.start = s.start + Text.size a := by
  obtain ⟨b, hb, hbl, -⟩ := Text.trimEndBy_eq Text.isAsciiBlank (Text.run Text.isAsciiBlank s.text).2
  refine ⟨(Text.run Text.isAsciiBlank s.text).1, b, ?_, fun c hc => List.mem_takeWhile_imp hc, hbl, rfl⟩
  rw [List.append_assoc, trim, ← hb, Text.run_eq]

theorem trimmed_trim (s : Slice) : Text.Trimmed s.trim.text :=
  ⟨fun _ hc => Text.head?_trimBy hc, fun _ hc => Text.getLast?_trimBy hc⟩

end Slice

/-! ## Closing braces -/

/-- Closing braces after the text are the first ones. -/
def Closeless (s : Text) : Prop :=
  (s ++ ['}']).IsChain fun c d => ¬ (c = '}' ∧ d = '}')

theorem closeless_cons {c : Char} {s : Text} :
    Closeless (c :: s) ↔ (c = '}' → (s ++ ['}']).head? ≠ some '}') ∧ Closeless s := by
  obtain ⟨d, r, hd⟩ := List.exists_cons_of_ne_nil (show s ++ ['}'] ≠ [] by simp)
  rw [Closeless, Closeless, List.cons_append, hd, List.isChain_cons_cons, not_and]
  simp

theorem cut_close2_iff {s x : Text} :
    Text.cut close2 (s ++ close2 ++ x) = some (s, x) ↔ Closeless s := by
  induction s with
  | nil => simp [Text.cut, close2, Text.after?, Closeless]
  | cons c s ih =>
    obtain ⟨d, r, hd⟩ := List.exists_cons_of_ne_nil (show s ++ ['}'] ≠ [] by simp)
    have hr : s ++ close2 ++ x = d :: (r ++ ['}'] ++ x) := by
      rw [show s ++ close2 ++ x = s ++ ['}'] ++ (['}'] ++ x) by simp [close2], hd]
      simp
    rw [closeless_cons, hd, List.cons_append, List.cons_append, Text.cut, ← ih]
    by_cases hcd : c = '}' ∧ d = '}'
    · obtain ⟨rfl, rfl⟩ := hcd
      rw [hr]
      simp [close2, Text.after?]
    · have ha : Text.after? close2 (c :: (s ++ close2 ++ x)) = none := by
        rw [hr]
        by_cases hc : '}' = c
        · subst hc
          simp only [true_and] at hcd
          simp [close2, Text.after?, Ne.symm hcd]
        · simp [close2, Text.after?, hc]
      rw [ha]
      simpa using fun _ => not_and.1 hcd

theorem Closeless.of_cut {s body rest : Text} (h : Text.cut close2 s = some (body, rest)) :
    Closeless body := by
  rw [Text.cut_eq h] at h
  exact cut_close2_iff.1 h

/-- A text without closing braces can be put before, after or between others. -/
theorem Closeless.append_left {a s : Text} (ha : '}' ∉ a) : Closeless (a ++ s) ↔ Closeless s := by
  induction a with
  | nil => rfl
  | cons c a ih =>
    rw [List.mem_cons, not_or] at ha
    rw [List.cons_append, closeless_cons, ih ha.2]
    exact and_iff_right fun hc => absurd hc.symm ha.1

theorem Closeless.of_append {a s : Text} (h : Closeless (a ++ s)) : Closeless s := by
  rw [Closeless, List.append_assoc] at h
  exact (List.isChain_append.1 h).2.1

/-! ## Marks in a text that goes on -/

namespace Text

variable {mark s t u x y : Text}

theorem after?_none_elsewhere (hs : s <+: mark → s = mark) (h : after? mark (s ++ y) = none) (x : Text) :
    after? mark (s ++ x) = none := by
  have not_longer (v : Text) (hv : s = mark ++ v) : False := by
    rw [hv, List.append_assoc, after?_append] at h
    exact nomatch h
  cases ha : after? mark (s ++ x) with
  | none => rfl
  | some u =>
    rcases List.append_eq_append_iff.1 (after?_eq ha) with ⟨v, hv, -⟩ | ⟨v, hv, -⟩
    · exact (not_longer [] (by rw [List.append_nil]; exact hs ⟨v, hv.symm⟩)).elim
    · exact (not_longer v hv).elim

theorem cut_elsewhere (h : cut mark s = some (t, u)) (x : Text) :
    cut mark (t ++ mark ++ x) = some (t, x) := by
  rw [cut_eq h] at h
  exact cut_append_right (cut_of_append (u := []) h) x

end Text

/-! ## Tags -/

namespace Tag

/-- The tilde that a tag begins with, if it does, before the text `s`. -/
def Tilde (tilde s : Text) : Prop :=
  tilde = ['~'] ∨ tilde = [] ∧ s.head? ≠ some '~'

theorem splitTilde_eq_iff {r tilde s : Text} :
    splitTilde r = (tilde, s) ↔ r = tilde ++ s ∧ Tilde tilde s := by
  unfold splitTilde
  split
  · next r =>
    constructor
    · rintro h
      obtain ⟨rfl, rfl⟩ := Prod.mk.inj h
      exact ⟨rfl, .inl rfl⟩
    · rintro ⟨h, rfl | ⟨rfl, hs⟩⟩
      · rw [List.cons.inj h |>.2]
        rfl
      · rw [List.nil_append] at h
        exact absurd (h ▸ rfl) hs
  · next hr =>
    constructor
    · rintro h
      obtain ⟨rfl, rfl⟩ := Prod.mk.inj h
      refine ⟨rfl, .inr ⟨rfl, fun hh => ?_⟩⟩
      obtain ⟨r', rfl⟩ := List.head?_eq_some_iff.1 hh
      exact hr r' rfl
    · rintro ⟨rfl, rfl | ⟨rfl, hs⟩⟩
      · exact absurd rfl (hr s)
      · rfl

/-- How a tag is read, by what follows its opening braces. -/
inductive Form (start : Nat) : Text → Except SyntaxFault (Tag × Text) → Prop
  | comment {tilde r : Text} : tilde = ['~'] ∨ tilde = [] →
      Form start (tilde ++ "!--".toList ++ r) (readComment start (open2 ++ tilde ++ "!--".toList) r)
  | triple {r : Text} : Form start ('{' :: r) (readTriple start (open2 ++ ['{']) r)
  | plain {tilde s : Text} : Tilde tilde s → Text.after? "!--".toList s = none →
      (tilde = [] → s.head? ≠ some '{') → Form start (tilde ++ s) (readPlain start (open2 ++ tilde) s)

theorem read_form (start : Nat) (r : Text) : Form start r (read start r) := by
  unfold read
  split
  next tilde r₁ ht =>
  obtain ⟨rfl, htilde⟩ := splitTilde_eq_iff.1 ht
  split
  · next r₂ ha =>
    rw [Text.after?_eq ha, ← List.append_assoc]
    exact .comment (htilde.imp_right And.left)
  · next hn =>
    split
    · exact .triple
    · next hs =>
      refine .plain htilde hn fun h0 hh => ?_
      obtain ⟨r₂, rfl⟩ := List.head?_eq_some_iff.1 hh
      exact hs r₂ h0 rfl

theorem Form.read_eq {start : Nat} {r : Text} {e : Except SyntaxFault (Tag × Text)}
    (h : Form start r e) : read start r = e := by
  cases h with
  | @comment tilde r ht =>
    have hs : splitTilde (tilde ++ "!--".toList ++ r) = (tilde, "!--".toList ++ r) :=
      splitTilde_eq_iff.2 ⟨List.append_assoc .., ht.imp_right fun h => ⟨h, by simp⟩⟩
    rw [read, hs]
    simp only [Text.after?_append]
  | triple => rfl
  | @plain tilde s ht hn hb =>
    rw [read, splitTilde_eq_iff.2 ⟨rfl, ht⟩]
    simp only [hn]
    split
    · next r₂ => exact absurd rfl (hb rfl)
    · rfl

/-- The tag at another place. -/
def moved (start : Nat) (t : Tag) : Tag :=
  ⟨t.kind, ⟨start + (t.inner.start - t.whole.start), t.inner.text⟩, ⟨start, t.whole.text⟩⟩

variable {start : Nat} {r s rest : Text} {t : Tag}

theorem readComment_elsewhere {lead : Text} (h : readComment start lead s = .ok (t, rest)) :
    ∃ inner, s = inner ++ '-' :: '-' :: close2 ++ rest ∧ ∀ start' x,
      readComment start' lead (inner ++ '-' :: '-' :: close2 ++ x) = .ok (t.moved start', x) := by
  unfold readComment at h
  split at h
  · simp at h
  · next inner rest' hc =>
    obtain ⟨rfl, rfl⟩ := Prod.mk.inj (Except.ok.inj h)
    refine ⟨inner, Text.cut_eq hc, fun start' x => ?_⟩
    rw [readComment, Text.cut_elsewhere hc]
    simp [moved]

theorem readTriple_elsewhere {lead : Text} (h : readTriple start lead s = .ok (t, rest)) :
    ∃ inner, s = inner ++ close3 ++ rest ∧ ∀ start' x,
      readTriple start' lead (inner ++ close3 ++ x) = .ok (t.moved start', x) := by
  unfold readTriple at h
  split at h
  · simp at h
  · next inner rest' hc =>
    obtain ⟨rfl, rfl⟩ := Prod.mk.inj (Except.ok.inj h)
    refine ⟨inner, Text.cut_eq hc, fun start' x => ?_⟩
    simp only [readTriple, Text.cut_elsewhere hc]
    simp [moved, Slice.trim, Nat.add_assoc]

theorem readPlain_elsewhere {lead : Text} (h : readPlain start lead s = .ok (t, rest)) :
    ∃ body, s = body ++ close2 ++ rest ∧ ∀ start' x,
      readPlain start' lead (body ++ close2 ++ x) = .ok (t.moved start', x) := by
  unfold readPlain at h
  split at h
  · simp at h
  · next body rest' hc =>
    refine ⟨body, ?_, fun start' x => ?_⟩
    · rw [← (Prod.mk.inj (Except.ok.inj h)).2, Text.cut_eq hc]
    · rw [readPlain, Text.cut_elsewhere hc]
      simp only [Slice.trim] at h ⊢
      generalize TagKind.classify _ = sorted at h ⊢
      obtain ⟨kind, n⟩ := sorted
      obtain ⟨rfl, rfl⟩ := Prod.mk.inj (Except.ok.inj h)
      simp [moved, Slice.drop, Nat.add_assoc]

/-- A tag is read wherever its text stands. -/
theorem read_elsewhere (h : read start r = .ok (t, rest)) :
    ∃ r₀, r = r₀ ++ rest ∧ '}' ∈ r₀ ∧
      ∀ start' x, read start' (r₀ ++ x) = .ok (t.moved start', x) := by
  have hf := read_form start r
  rw [h] at hf
  generalize he : Except.ok (t, rest) = e at hf
  cases hf with
  | @comment tilde r ht =>
    obtain ⟨inner, rfl, hx⟩ := readComment_elsewhere he.symm
    refine ⟨tilde ++ "!--".toList ++ (inner ++ '-' :: '-' :: close2), by simp, by simp [close2],
      fun start' x => ?_⟩
    rw [List.append_assoc, (Form.comment ht).read_eq]
    exact hx start' x
  | triple =>
    obtain ⟨inner, rfl, hx⟩ := readTriple_elsewhere he.symm
    refine ⟨'{' :: (inner ++ close3), by simp, by simp [close3], fun start' x => ?_⟩
    rw [List.cons_append, Form.triple.read_eq]
    exact hx start' x
  | @plain tilde s ht hn hb =>
    obtain ⟨body, rfl, hx⟩ := readPlain_elsewhere he.symm
    have head (x : Text) : (body ++ close2 ++ x).head? = (body ++ close2).head? := by
      cases body <;> rfl
    refine ⟨tilde ++ (body ++ close2), by simp, by simp [close2], fun start' x => ?_⟩
    have hn' : Text.after? "!--".toList (body ++ close2 ++ x) = none :=
      Text.after?_none_elsewhere (fun hp => absurd (hp.subset (by simp [close2]))
        (by decide : '}' ∉ "!--".toList)) hn x
    rw [Tilde, head, ← head x] at ht
    rw [head, ← head x] at hb
    rw [List.append_assoc tilde, (Form.plain ht hn' hb).read_eq]
    exact hx start' x

end Tag

/-! ## Tags with another content -/

/-- What begins the content of a tag that names a partial or closes a block. -/
inductive TagKind.Sigil : TagKind → Text → Prop
  | invocation : Sigil .invocation ['>']
  | openInvocation : Sigil .openInvocation ['#', '>']
  | close : Sigil .close ['/']

namespace TagKind

variable {k : TagKind} {sigil : Text}

theorem Sigil.classify (h : Sigil k sigil) (s : Text) :
    classify (sigil ++ s) = (k, sigil.length) := by
  cases h <;> rfl

theorem Sigil.of_classify {s : Text} {n : Nat} (h : TagKind.classify s = (k, n))
    (hk : k = .invocation ∨ k = .openInvocation ∨ k = .close) :
    ∃ sigil s', Sigil k sigil ∧ s = sigil ++ s' ∧ n = sigil.length := by
  unfold TagKind.classify at h
  split at h
  case h_2 r => 
    obtain ⟨rfl, rfl⟩ := Prod.mk.inj h
    exact ⟨_, r, .openInvocation, rfl, rfl⟩
  case h_6 r =>
    obtain ⟨rfl, rfl⟩ := Prod.mk.inj h
    exact ⟨_, r, .close, rfl, rfl⟩
  case h_7 r =>
    obtain ⟨rfl, rfl⟩ := Prod.mk.inj h
    exact ⟨_, r, .invocation, rfl, rfl⟩
  all_goals
    first
    | split at h
      all_goals
        obtain ⟨rfl, rfl⟩ := Prod.mk.inj h
        simp at hk
    | obtain ⟨rfl, rfl⟩ := Prod.mk.inj h
      simp at hk

theorem Sigil.head (h : Sigil k sigil) :
    ∃ c s, sigil = c :: s ∧ Text.isAsciiBlank c = false ∧ c ≠ '~' ∧ c ≠ '{' ∧ c ≠ '!' := by
  cases h <;> exact ⟨_, _, rfl, by decide, by decide, by decide, by decide⟩

theorem Sigil.noBrace (h : Sigil k sigil) : '}' ∉ sigil := by
  cases h <;> decide

end TagKind

theorem noBrace_of_blanks {a : Text} (ha : ∀ c ∈ a, Text.isAsciiBlank c = true) : '}' ∉ a :=
  fun h => absurd (ha _ h) (by decide)

namespace Tag

/-- A tag with a content, by what stands after its opening braces and the tilde: a beginning that tells
the kind, the content, and an end of blanks, perhaps a tilde, and the closing braces. -/
inductive Spelled (kind : TagKind) : Text → Text → Text → Prop
  | intro {before sigil between content blanks tilde : Text} :
      TagKind.Sigil kind sigil → (∀ c ∈ before, Text.isAsciiBlank c = true) →
      (∀ c ∈ between, Text.isAsciiBlank c = true) → (∀ c ∈ blanks, Text.isAsciiBlank c = true) →
      Text.Trimmed content → content ≠ [] → Closeless (content ++ (blanks ++ tilde)) →
      tilde = ['~'] ∨ tilde = [] ∧ (content ++ blanks).getLast? ≠ some '~' →
      Spelled kind (before ++ sigil ++ between) content (blanks ++ tilde ++ close2)

/-- The new text can stand in a tag as its content, in the place of the old one. -/
structure Exchange (old new : Text) : Prop where
  trimmed : Text.Trimmed new
  ne_nil : new ≠ []
  closeless : ∀ x, Closeless (old ++ x) → Closeless (new ++ x)
  tilde : new.getLast? = some '~' → old.getLast? = some '~'

variable {kind : TagKind} {a b content new : Text}

theorem Spelled.exchange (h : Spelled kind a content b) (hn : Exchange content new) :
    Spelled kind a new b := by
  cases h with
  | @intro before sigil between _ blanks tilde hs ha₁ ha₂ hb _ _ hcl htl =>
    refine .intro hs ha₁ ha₂ hb hn.trimmed hn.ne_nil (hn.closeless _ hcl)
      (htl.imp_right fun ⟨h0, hl⟩ => ⟨h0, fun hl' => hl ?_⟩)
    cases hbl : blanks.getLast? with
    | some d => rwa [List.getLast?_append, hbl] at hl' ⊢
    | none =>
      rw [List.getLast?_append, hbl, Option.none_or] at hl' ⊢
      exact hn.tilde hl'

theorem Spelled.head (h : Spelled kind a content b) :
    ∃ c a', a = c :: a' ∧ c ≠ '~' ∧ c ≠ '{' ∧ c ≠ '!' := by
  cases h with
  | @intro before sigil between _ _ _ hs ha =>
    obtain ⟨c, sg, hsg, -, hc⟩ := hs.head
    cases before with
    | nil => exact ⟨c, sg ++ between, by simp [hsg], hc⟩
    | cons d before =>
      refine ⟨d, before ++ sigil ++ between, rfl, ?_, ?_, ?_⟩ <;>
        exact fun hd => absurd (ha d List.mem_cons_self) (by rw [hd]; decide)

theorem dropEndTilde_eq (s : Text) :
    ∃ tl, s = dropEndTilde s ++ tl ∧ (tl = ['~'] ∨ tl = [] ∧ (dropEndTilde s).getLast? ≠ some '~') := by
  unfold dropEndTilde
  split
  · next h =>
    obtain ⟨a, rfl⟩ := List.getLast?_eq_some_iff.1 h
    exact ⟨['~'], by simp, .inl rfl⟩
  · next h => exact ⟨[], by simp, .inr ⟨rfl, h⟩⟩

theorem dropEndTilde_append {s tl : Text} (h : tl = ['~'] ∨ tl = [] ∧ s.getLast? ≠ some '~') :
    dropEndTilde (s ++ tl) = s := by
  unfold dropEndTilde
  rcases h with rfl | ⟨rfl, h⟩
  · simp
  · rw [List.append_nil, if_neg h]

theorem Spelled.readPlain (h : Spelled kind a content b) (start : Nat) (lead x : Text) :
    readPlain start lead (a ++ content ++ b ++ x) =
      .ok (⟨kind, ⟨start + Text.size (lead ++ a), content⟩, ⟨start, lead ++ a ++ content ++ b⟩⟩, x) := by
  cases h with
  | @intro before sigil between _ blanks tilde hs ha₁ ha₂ hb ht hne hcl htl =>
    have hbody : Closeless (before ++ (sigil ++ between ++ content) ++ blanks ++ tilde) := by
      have hpre : '}' ∉ before ++ sigil ++ between := by
        simp [noBrace_of_blanks ha₁, noBrace_of_blanks ha₂, hs.noBrace]
      simpa using (Closeless.append_left hpre).2 hcl
    have hcut := cut_close2_iff (x := x).2 hbody
    have hdrop : dropEndTilde (before ++ (sigil ++ between ++ content) ++ blanks ++ tilde) =
        before ++ (sigil ++ between ++ content) ++ blanks := by
      refine dropEndTilde_append (htl.imp_right fun ⟨h0, hl⟩ => ⟨h0, ?_⟩)
      rw [show before ++ (sigil ++ between ++ content) ++ blanks =
        before ++ (sigil ++ between) ++ (content ++ blanks) by simp,
        List.getLast?_append_of_ne_nil _ (by simp [hne])]
      exact hl
    have htrim : Text.Trimmed (sigil ++ between ++ content) := by
      obtain ⟨c, sg, hsg, hblank, -⟩ := hs.head
      refine ⟨fun d hd => ?_, fun d hd => ht.2 d ?_⟩
      · rw [hsg] at hd
        rw [← Option.some.inj hd, hblank]
      · rwa [List.getLast?_append_of_ne_nil _ hne] at hd
    rw [show before ++ sigil ++ between ++ content ++ (blanks ++ tilde ++ close2) ++ x =
      before ++ (sigil ++ between ++ content) ++ blanks ++ tilde ++ close2 ++ x by simp, Tag.readPlain,
      hcut]
    simp only [hdrop, Slice.trim_append _ ha₁ hb htrim (by simp [hne])]
    rw [List.append_assoc sigil, hs.classify]
    simp only [Slice.drop, List.drop_left, List.take_left]
    have := Slice.trim_append (start + Text.size lead + Text.size before + Text.size sigil) ha₂ (b := [])
      (by simp) ht hne
    rw [List.append_nil] at this
    rw [this]
    simp [Nat.add_assoc]

variable {start : Nat} {lead s rest : Text} {t : Tag}

/-- The parts of a tag that names a partial or closes a block: blanks, the sigil, what its content is cut
from, blanks, and perhaps a tilde. -/
theorem readPlain_sigil (h : readPlain start lead s = .ok (t, rest))
    (hk : t.kind = .invocation ∨ t.kind = .openInvocation ∨ t.kind = .close) :
    ∃ body before sigil content after tilde, Text.cut close2 s = some (body, rest) ∧
      body = before ++ sigil ++ content ++ after ++ tilde ∧ TagKind.Sigil t.kind sigil ∧
      (∀ c ∈ before, Text.isAsciiBlank c = true) ∧ (∀ c ∈ after, Text.isAsciiBlank c = true) ∧
      (tilde = ['~'] ∨ tilde = [] ∧ (before ++ sigil ++ content ++ after).getLast? ≠ some '~') ∧
      ∃ i, t.inner = Slice.trim ⟨i, content⟩ := by
  unfold readPlain at h
  split at h
  · simp at h
  next body rest' hc =>
  obtain ⟨tl, htl, htilde⟩ := dropEndTilde_eq body
  obtain ⟨a, b, h₁, ha, hb, -⟩ := Slice.trim_eq ⟨start + Text.size lead, dropEndTilde body⟩
  simp only at h h₁
  generalize Slice.trim ⟨start + Text.size lead, dropEndTilde body⟩ = content at *
  rcases hcl : TagKind.classify content.text with ⟨kind, n⟩
  simp only [hcl] at h
  obtain ⟨rfl, rfl⟩ := Prod.mk.inj (Except.ok.inj h)
  obtain ⟨sigil, s', hsig, hs', rfl⟩ := TagKind.Sigil.of_classify hcl hk
  have hdropped : dropEndTilde body = a ++ sigil ++ s' ++ b := by
    rw [h₁, hs', List.append_assoc a sigil]
  rw [hdropped] at htl htilde
  have hdrop : content.drop sigil.length = ⟨content.start + Text.size sigil, s'⟩ := by
    simp [Slice.drop, hs']
  exact ⟨body, a, sigil, s', b, tl, hc, htl, hsig, ha, hb, htilde, _, congrArg Slice.trim hdrop⟩

/-- A tag that names a partial or closes a block has a content, unless it is empty. -/
theorem readPlain_spelled (h : readPlain start lead s = .ok (t, rest))
    (hk : t.kind = .invocation ∨ t.kind = .openInvocation ∨ t.kind = .close) (hne : t.inner.text ≠ []) :
    ∃ a b, s = a ++ t.inner.text ++ b ++ rest ∧ Spelled t.kind a t.inner.text b := by
  obtain ⟨body, a₁, sigil, content, b₁, tl, hc, hbody, hsig, ha₁, hb₁, htilde, i, hi⟩ :=
    readPlain_sigil h hk
  have htrim : Text.Trimmed t.inner.text := hi ▸ Slice.trimmed_trim _
  obtain ⟨a₂, b₂, h₂, ha₂, hb₂, -⟩ := Slice.trim_eq ⟨i, content⟩
  rw [← hi] at h₂
  simp only at h₂
  generalize t.inner.text = inner at *
  have hparts : a₁ ++ sigil ++ content ++ b₁ = a₁ ++ sigil ++ a₂ ++ (inner ++ (b₂ ++ b₁)) := by
    rw [h₂]
    simp
  rw [hparts] at hbody htilde
  refine ⟨a₁ ++ sigil ++ a₂, b₂ ++ b₁ ++ tl ++ close2, ?_, .intro hsig ha₁ ha₂ ?_ htrim hne ?_ ?_⟩
  · rw [Text.cut_eq hc, hbody]
    simp
  · intro d hd
    exact (List.mem_append.1 hd).elim (hb₂ d) (hb₁ d)
  · have hpre : '}' ∉ a₁ ++ sigil ++ a₂ := by
      simp [noBrace_of_blanks ha₁, noBrace_of_blanks ha₂, hsig.noBrace]
    have := Closeless.of_cut hc
    rw [hbody, List.append_assoc, Closeless.append_left hpre] at this
    simpa using this
  · rwa [List.getLast?_append_of_ne_nil _ (by simp [hne])] at htilde

/-- The content of a tag can be exchanged. -/
theorem read_exchange {r : Text} (h : read start r = .ok (t, rest))
    (hk : t.kind = .invocation ∨ t.kind = .openInvocation ∨ t.kind = .close) (hne : t.inner.text ≠ []) :
    ∃ tilde a b, t.whole.text = open2 ++ (tilde ++ a) ++ t.inner.text ++ b ∧ (tilde ++ a).head? ≠ some '{' ∧
      t.inner.start = start + Text.size (open2 ++ (tilde ++ a)) ∧ Spelled t.kind a t.inner.text b ∧
      (tilde = ['~'] ∨ tilde = []) ∧
      ∀ new, Exchange t.inner.text new → ∀ start' x, ∃ t',
        read start' (tilde ++ a ++ new ++ b ++ x) = .ok (t', x) ∧ t'.kind = t.kind ∧
          t'.inner.text = new := by
  have hf := read_form start r
  rw [h] at hf
  generalize he : Except.ok (t, rest) = e at hf
  cases hf with
  | comment =>
    unfold readComment at he
    split at he
    · simp at he
    · obtain ⟨rfl, rfl⟩ := Prod.mk.inj (Except.ok.inj he)
      simp at hk
  | triple =>
    unfold readTriple at he
    split at he
    · simp at he
    · obtain ⟨rfl, rfl⟩ := Prod.mk.inj (Except.ok.inj he)
      simp at hk
  | @plain tilde s ht hn hb =>
    obtain ⟨a, b, rfl, hsp⟩ := readPlain_spelled he.symm hk hne
    obtain ⟨c, a', ha, hc₁, hc₂, hc₃⟩ := hsp.head
    have ht' (y : Text) : Tilde tilde (a ++ y) := by
      refine ht.imp_right fun h0 => ⟨h0.1, ?_⟩
      simp [ha, hc₁]
    have he' := (Prod.mk.inj (Except.ok.inj (he.trans (hsp.readPlain _ _ _)))).1
    refine ⟨tilde, a, b, ?_, ?_, ?_, hsp, ht.imp_right And.left, fun new hnew start' x => ?_⟩
    · rw [he']
      simp
    · rcases ht with rfl | ⟨rfl, -⟩ <;> simp [ha, hc₂]
    · rw [he']
      simp
    · have hform : Form start' (tilde ++ (a ++ (new ++ b ++ x))) _ :=
        .plain (ht' (new ++ b ++ x)) (by simp [ha, Text.after?, hc₃.symm]) (fun _ => by simp [ha, hc₂])
      have hread := hform.read_eq
      have hplain := (hsp.exchange hnew).readPlain start' (open2 ++ tilde) x
      rw [show tilde ++ a ++ new ++ b ++ x = tilde ++ (a ++ (new ++ b ++ x)) by simp, hread,
        show a ++ (new ++ b ++ x) = a ++ new ++ b ++ x by simp, hplain]
      exact ⟨_, rfl, rfl, rfl⟩

end Tag

/-! ## Tokens elsewhere -/

namespace Token

/-- The tokens differ at most in their places. -/
inductive Same : Token → Token → Prop
  | text {i j : Nat} {s : Text} : Same (.text ⟨i, s⟩) (.text ⟨j, s⟩)
  | tag {t t' : Tag} : t'.kind = t.kind → t'.inner.text = t.inner.text → Same (.tag t) (.tag t')
  | raw {i j : Nat} {b : RawBlock} : Same (.raw i b) (.raw j b)

/-- The token at another place. -/
def moved (start : Nat) : Token → Token
  | text p => text ⟨start, p.text⟩
  | tag t => tag (t.moved start)
  | raw _ b => raw start b

theorem same_moved (start : Nat) (t : Token) : Same t (t.moved start) := by
  cases t with
  | text => exact .text
  | tag => exact .tag rfl rfl
  | raw => exact .raw

theorem literal_escape {r inner rest : Text} (h' : Text.cut close2 r = some (inner, rest)) (x : Text) :
    literal (escape ++ inner ++ close2 ++ x) =
      (escape ++ inner ++ close2 ++ (literal x).1, (literal x).2) := by
  have ha : Text.after? escape (escape ++ inner ++ close2 ++ x) = some (inner ++ close2 ++ x) := by
    rw [List.append_assoc, List.append_assoc, Text.after?_append, ← List.append_assoc]
  have hcut := Text.cut_elsewhere h' x
  rw [show escape ++ inner ++ close2 ++ x = '\\' :: (open2 ++ inner ++ close2 ++ x) by
    simp [escape]] at ha ⊢
  rw [literal]
  split
  · next r₁ hr₁ =>
    rw [ha, Option.some.injEq] at hr₁
    subst hr₁
    split
    · next hn => cases hcut.symm.trans hn
    · next hc =>
      rw [hcut, Option.some.injEq, Prod.mk.injEq] at hc
      obtain ⟨rfl, rfl⟩ := hc
      rfl
  · next hn => cases ha.symm.trans hn

/-- Literal text up to a tag is read wherever it stands before a tag. -/
theorem literal_elsewhere {s y : Text} (h : (literal s).2 = open2 ++ y) (x : Text) :
    literal ((literal s).1 ++ (open2 ++ x)) = ((literal s).1, open2 ++ x) := by
  fun_induction literal s with
  | case1 => simp [open2] at h
  | case2 => simp [open2] at h
  | case3 c r r₁ ha inner r₂ hc p ih =>
    rw [List.append_assoc, literal_escape hc, ih h]
  | case4 => exact literal_of_open (Text.after?_append _ _)
  | case5 c r ha ho p ih =>
    have hs : c :: r = (c :: p.1 ++ open2) ++ y := by
      rw [← literal_eq r, show (literal r).2 = open2 ++ y from h]
      simp [p]
    have fits (mark : Text) (hm : mark.length ≤ 3) :
        (c :: p.1 ++ open2) <+: mark → c :: p.1 ++ open2 = mark :=
      fun hp => hp.eq_of_length_le (by simp [open2]; omega)
    have ha' : Text.after? escape (c :: (p.1 ++ (open2 ++ x))) = none := by
      have := Text.after?_none_elsewhere (fits escape (by decide)) (hs ▸ ha) x
      simpa using this
    have ho' : Text.startsWith open2 (c :: (p.1 ++ (open2 ++ x))) = false := by
      have hn : Text.after? open2 (c :: r) = none := by simpa [Text.startsWith] using ho
      have := Text.after?_none_elsewhere (fits open2 (by decide)) (hs ▸ hn) x
      simpa [Text.startsWith] using this
    rw [List.cons_append, literal]
    split
    · next h => simp [ha'] at h
    · rw [if_neg (by simp [ho']), ih h]

variable {start : Nat} {s rest : Text}

theorem literal_rest (s : Text) : (literal s).2 = [] ∨ ∃ y, (literal s).2 = open2 ++ y := by
  fun_induction literal s with
  | case1 => exact .inl rfl
  | case2 => exact .inl rfl
  | case3 _ _ _ _ _ _ _ _ ih => exact ih
  | case4 c r _ ho =>
    obtain ⟨y, hy⟩ := Option.isSome_iff_exists.1 ho
    exact .inr ⟨y, Text.after?_eq hy⟩
  | case5 _ _ _ _ _ ih => exact ih

theorem next_text {p : Slice} (h : next start s = .ok (.text p, rest)) :
    Text.after? open2 s = none ∧ p = ⟨start, (literal s).1⟩ ∧ rest = (literal s).2 := by
  unfold next at h
  split at h
  · next hn =>
    obtain ⟨ht, rfl⟩ := Prod.mk.inj (Except.ok.inj h)
    exact ⟨hn, (Token.text.inj ht).symm, rfl⟩
  · split at h <;> split at h <;> simp at h

theorem next_tag {t : Tag} :
    next start s = .ok (.tag t, rest) ↔
      ∃ r, s = open2 ++ r ∧ Text.startsWith open4 s = false ∧ Tag.read start r = .ok (t, rest) := by
  constructor
  · intro h
    unfold next at h
    split at h
    · simp at h
    · next r hr =>
      split at h
      · split at h <;> simp at h
      · next h4 =>
        split at h
        · simp at h
        · next hread =>
          obtain ⟨ht, rfl⟩ := Prod.mk.inj (Except.ok.inj h)
          rw [← Token.tag.inj ht]
          exact ⟨r, Text.after?_eq hr, by simpa using h4, hread⟩
  · rintro ⟨r, rfl, h4, hread⟩
    simp [next, Text.after?_append, h4, hread]

theorem next_raw {i : Nat} {b : RawBlock} :
    next start s = .ok (.raw i b, rest) ↔ RawBlock.read s = some (b, rest) ∧ i = start := by
  have opened {s : Text} (h : RawBlock.read s = some (b, rest)) : ∃ y, s = open4 ++ y := by
    rw [RawBlock.read_eq h, RawBlock.written, List.append_assoc, List.append_assoc, List.append_assoc,
      List.append_assoc, List.append_assoc]
    exact ⟨_, rfl⟩
  constructor
  · intro h
    unfold next at h
    split at h
    · simp at h
    · split at h
      · split at h
        · simp at h
        · next hread =>
          obtain ⟨ht, rfl⟩ := Prod.mk.inj (Except.ok.inj h)
          obtain ⟨rfl, rfl⟩ := Token.raw.inj ht
          exact ⟨hread, rfl⟩
      · split at h <;> simp at h
  · rintro ⟨h, rfl⟩
    obtain ⟨y, rfl⟩ := opened h
    have h2 : Text.after? open2 (open4 ++ y) = some (open2 ++ y) := Text.after?_append open2 (open2 ++ y)
    simp [next, h2, Text.startsWith, Text.after?_append, h]

/-- A token is read wherever its text stands; literal text has to end there too. -/
theorem next_elsewhere {t : Token} (h : next start s = .ok (t, rest)) (start' : Nat) {x : Text}
    (hx : ∀ p, t = .text p → rest = [] ∧ x = [] ∨ (∃ y, rest = open2 ++ y) ∧ ∃ y, x = open2 ++ y) :
    next start' (t.whole.text ++ x) = .ok (t.moved start', x) := by
  have hs := (next_eq h).2
  cases t with
  | text p =>
    obtain ⟨h2, rfl, rfl⟩ := next_text h
    have text_of {x : Text} (hn : Text.after? open2 ((literal s).1 ++ x) = none)
        (hl : literal ((literal s).1 ++ x) = ((literal s).1, x)) :
        next start' ((Token.text ⟨start, (literal s).1⟩).whole.text ++ x) =
          .ok (.text ⟨start', (literal s).1⟩, x) := by
      simp only [whole, next, hn, hl]
    rw [← literal_eq s] at h2
    rcases hx _ rfl with ⟨hr, rfl⟩ | ⟨⟨y, hy⟩, y', rfl⟩
    · rw [hr] at h2
      refine text_of h2 (Prod.ext ?_ ?_) <;>
        rw [← hr, literal_eq]
    · rw [hy, ← List.append_assoc] at h2
      have hn := Text.after?_none_elsewhere (fun hp => hp.eq_of_length_le (by simp)) h2 y'
      rw [List.append_assoc] at hn
      exact text_of hn (literal_elsewhere hy y')
  | tag t =>
    obtain ⟨r, rfl, h4, hread⟩ := next_tag.1 h
    obtain ⟨r₀, rfl, hbrace, helse⟩ := Tag.read_elsewhere hread
    have hw : (Token.tag t).whole.text = open2 ++ r₀ :=
      List.append_cancel_right (hs.trans (List.append_assoc ..).symm)
    refine next_tag.2 ⟨r₀ ++ x, by rw [hw, List.append_assoc], ?_, helse start' x⟩
    have h4' : Text.after? open4 ((open2 ++ r₀) ++ rest) = none := by
      simpa [Text.startsWith] using h4
    have := Text.after?_none_elsewhere (fun hp => absurd (hp.subset (List.mem_append_right _ hbrace))
      (by decide : '}' ∉ open4)) h4' x
    rw [hw, Text.startsWith, this]
    rfl
  | raw i b =>
    obtain ⟨hread, rfl⟩ := next_raw.1 h
    have hb : RawBlock.read b.written = some (b, []) := by
      rw [← hs] at hread
      exact RawBlock.read_of_append hread
    exact next_raw.2 ⟨RawBlock.read_append_right hb x, rfl⟩

/-- A tag that names a partial or closes a block is read with the content that it has been given. -/
theorem next_exchange {t : Tag} (h : next start s = .ok (.tag t, rest))
    (hk : t.kind = .invocation ∨ t.kind = .openInvocation ∨ t.kind = .close) (hne : t.inner.text ≠ []) :
    ∃ tilde a b, t.whole.text = open2 ++ (tilde ++ a) ++ t.inner.text ++ b ∧
      t.inner.start = start + Text.size (open2 ++ (tilde ++ a)) ∧ Tag.Spelled t.kind a t.inner.text b ∧
      (tilde = ['~'] ∨ tilde = []) ∧
      ∀ new, Tag.Exchange t.inner.text new → ∀ start' x, ∃ t',
        next start' (open2 ++ (tilde ++ a) ++ new ++ b ++ x) = .ok (.tag t', x) ∧ t'.kind = t.kind ∧
          t'.inner.text = new := by
  obtain ⟨r, rfl, -, hread⟩ := next_tag.1 h
  obtain ⟨tilde, a, b, hw, hhead, hi, hsp, htilde, hx⟩ := Tag.read_exchange hread hk hne
  refine ⟨tilde, a, b, hw, hi, hsp, htilde, fun new hnew start' x => ?_⟩
  obtain ⟨t', hread', hk', hi'⟩ := hx new hnew start' x
  refine ⟨t', next_tag.2 ⟨tilde ++ a ++ new ++ b ++ x, by simp, ?_, hread'⟩, hk', hi'⟩
  obtain ⟨c, a', ha, -⟩ := hsp.head
  cases hta : tilde ++ a with
  | nil => simp [ha] at hta
  | cons d y =>
    rw [hta] at hhead
    have hd : '{' ≠ d := fun h => hhead (by rw [h]; rfl)
    simp [Text.startsWith, open2, open4, Text.after?, hd]

theorem trimmed_of_next {t : Tag} (h : next start s = .ok (.tag t, rest))
    (hk : t.kind = .invocation ∨ t.kind = .openInvocation ∨ t.kind = .close) :
    Text.Trimmed t.inner.text := by
  by_cases hne : t.inner.text = []
  · rw [hne]
    simp [Text.Trimmed]
  · obtain ⟨_, _, _, -, -, hsp, -⟩ := next_exchange h hk hne
    cases hsp with
    | intro _ _ _ _ ht => exact ht

/-- A tag or a raw block begins with opening braces. -/
theorem whole_of_next {t : Token} (h : next start s = .ok (t, rest)) :
    (∃ p, t = .text p) ∨ ∃ w, t.whole.text = open2 ++ w := by
  cases t with
  | text p => exact .inl ⟨p, rfl⟩
  | tag t =>
    obtain ⟨r, rfl, -, hread⟩ := next_tag.1 h
    obtain ⟨r₀, rfl, -, -⟩ := Tag.read_elsewhere hread
    exact .inr ⟨r₀, List.append_cancel_right ((next_eq h).2.trans (List.append_assoc ..).symm)⟩
  | raw i b =>
    refine .inr ⟨open2 ++ (b.head ++ close4 ++ b.content ++ open4 ++ b.tail ++ close4), ?_⟩
    simp [whole, RawBlock.written, open4, open2]

end Token

end Stencil
