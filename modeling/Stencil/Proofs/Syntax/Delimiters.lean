import Stencil.Proofs.Syntax.Tag
/-!
The delimiters of a tag.

A tag is an opener, its content between ASCII blanks, and a closer (`Tag.delimited_of_read`).  The opener
is the braces with the tilde, and what tells the kind of the tag.
-/

namespace Stencil

namespace TagKind

/-- What the content of a tag of the kind can begin with, where the tag is no comment in double dashes and
not in triple braces. -/
def sigils (k : TagKind) : List Text :=
  match k with
  | comment => [['!']]
  | expression => [[]]
  | unescaped => [['&']]
  | decorator => [['*']]
  | invocation => [['>']]
  | openBlock => [['#']]
  | openInverse => [['^']]
  | openInvocation => [['#', '>']]
  | openDecorator => [['#', '*']]
  | otherwise => [['^'], []]
  | close => [['/']]

theorem take_classify_mem (s : Text) : s.take (classify s).2 ∈ (classify s).1.sigils := by
  unfold classify
  split
  case h_5 => split <;> simp [sigils]
  case h_10 => split <;> simp [sigils]
  all_goals simp [sigils]

end TagKind

namespace Tag

/-- An opener and a closer of a tag of the kind. -/
inductive Delimiters : TagKind → Text → Text → Prop
  | comment {tilde : Text} : tilde = ['~'] ∨ tilde = [] →
      Delimiters .comment (open2 ++ (tilde ++ "!--".toList)) ("--".toList ++ close2)
  | triple : Delimiters .unescaped (open2 ++ ['{']) (['}'] ++ close2)
  | plain {kind : TagKind} {tilde blanks sigil tilde' : Text} : tilde = ['~'] ∨ tilde = [] →
      (∀ c ∈ blanks, Text.isAsciiBlank c = true) → sigil ∈ kind.sigils → tilde' = ['~'] ∨ tilde' = [] →
      Delimiters kind (open2 ++ (tilde ++ blanks ++ sigil)) (tilde' ++ close2)

/-- The tag is the opener, its content between ASCII blanks, and the closer. -/
def Delimited (t : Tag) (opener closer : Text) : Prop :=
  ∃ a b, t.whole.text = opener ++ (a ++ t.inner.text ++ b) ++ closer ∧
    (∀ c ∈ a, Text.isAsciiBlank c = true) ∧ (∀ c ∈ b, Text.isAsciiBlank c = true) ∧
    t.inner.start = t.whole.start + Text.size (opener ++ a)

variable {kind : TagKind} {opener closer content r rest : Text} {start : Nat} {t : Tag}

theorem Delimiters.opener_eq (h : Delimiters kind opener closer) : ∃ x, opener = open2 ++ x := by
  cases h with
  | comment => exact ⟨_, rfl⟩
  | triple => exact ⟨_, rfl⟩
  | plain => exact ⟨_, rfl⟩

theorem Delimiters.closer_eq (h : Delimiters kind opener closer) : ∃ x, closer = x ++ close2 := by
  cases h with
  | comment => exact ⟨_, rfl⟩
  | triple => exact ⟨_, rfl⟩
  | plain => exact ⟨_, rfl⟩

/-- The content does not reach into the delimiters. -/
theorem Delimited.between (h : t.Delimited opener closer) :
    t.whole.start + Text.size opener ≤ t.inner.start ∧
      t.inner.stop + Text.size closer ≤ t.whole.stop := by
  obtain ⟨a, b, hw, -, -, hstart⟩ := h
  have hsize := congrArg Text.size hw
  simp only [Text.size_append] at hsize hstart
  simp only [Slice.stop]
  omega

/-- A content that has been cut from what stands between the delimiters. -/
theorem delimited_trim :
    Delimited ⟨kind, Slice.trim ⟨start + Text.size opener, content⟩, ⟨start, opener ++ content ++ closer⟩⟩
      opener closer := by
  obtain ⟨a, b, hab, ha, hb, hstart⟩ := Slice.trim_eq ⟨start + Text.size opener, content⟩
  refine ⟨a, b, congrArg (opener ++ · ++ closer) hab, ha, hb, ?_⟩
  rw [hstart, Text.size_append, ← Nat.add_assoc]

theorem delimited_of_readPlain {tilde : Text} (htilde : tilde = ['~'] ∨ tilde = [])
    (h : readPlain start (open2 ++ tilde) r = .ok (t, rest)) :
    ∃ opener closer, Delimiters t.kind opener closer ∧ t.Delimited opener closer := by
  unfold readPlain at h
  split at h
  · simp at h
  next body rest' _ =>
  obtain ⟨tilde', hbody, htilde'⟩ := dropEndTilde_eq body
  obtain ⟨a, b, hab, ha, hb, hstart⟩ := Slice.trim_eq ⟨start + Text.size (open2 ++ tilde), dropEndTilde body⟩
  simp only at h hab
  generalize Slice.trim ⟨start + Text.size (open2 ++ tilde), dropEndTilde body⟩ = content at *
  have hsigil := TagKind.take_classify_mem content.text
  generalize TagKind.classify content.text = sorted at *
  obtain ⟨kind, n⟩ := sorted
  obtain ⟨rfl, -⟩ := Prod.mk.inj (Except.ok.inj h)
  obtain ⟨a', b', hab', ha', hb', hstart'⟩ := Slice.trim_eq (content.drop n)
  have hcontent : content.text = content.text.take n ++ (a' ++ (content.drop n).trim.text ++ b') := by
    rw [← hab', Slice.drop, List.take_append_drop]
  refine ⟨_, _, .plain htilde ha hsigil (htilde'.imp_right And.left), a', b' ++ b, ?_, ha', ?_, ?_⟩
  · conv_lhs => rw [hbody, hab, hcontent]
    simp
  · intro c hc
    exact (List.mem_append.1 hc).elim (hb' c) (hb c)
  · rw [hstart', Slice.drop, hstart]
    simp only [Text.size_append, Nat.add_assoc]

/-- A tag that has been read is its content between its delimiters. -/
theorem delimited_of_read (h : read start r = .ok (t, rest)) :
    ∃ opener closer, Delimiters t.kind opener closer ∧ t.Delimited opener closer := by
  have hf := read_form start r
  rw [h] at hf
  generalize he : Except.ok (t, rest) = e at hf
  cases hf with
  | @comment tilde r ht =>
    unfold readComment at he
    split at he
    · simp at he
    · next inner rest' _ =>
      obtain ⟨rfl, -⟩ := Prod.mk.inj (Except.ok.inj he)
      exact ⟨_, _, .comment ht, [], [], by simp, by simp, by simp, by simp⟩
  | triple =>
    unfold readTriple at he
    split at he
    · simp at he
    · obtain ⟨rfl, -⟩ := Prod.mk.inj (Except.ok.inj he)
      exact ⟨_, _, .triple, delimited_trim⟩
  | plain ht _ _ => exact delimited_of_readPlain (ht.imp_right And.left) he.symm

/-- The content of a tag lies between its braces. -/
theorem inner_of_read (h : read start r = .ok (t, rest)) :
    ∃ a b, t.whole.text = (open2 ++ a) ++ (t.inner.text ++ (b ++ close2)) ∧
      t.inner.start = start + Text.size (open2 ++ a) := by
  obtain ⟨opener, closer, hd, a, b, hw, -, -, hstart⟩ := delimited_of_read h
  obtain ⟨x, rfl⟩ := hd.opener_eq
  obtain ⟨y, rfl⟩ := hd.closer_eq
  refine ⟨x ++ a, b ++ y, by simp [hw], ?_⟩
  rw [hstart, (read_eq h).1, List.append_assoc]

/-- A tag ends with closing braces. -/
theorem close2_suffix_of_read (h : read start r = .ok (t, rest)) : close2 <:+ t.whole.text := by
  obtain ⟨a, b, hw, -⟩ := inner_of_read h
  exact ⟨(open2 ++ a) ++ (t.inner.text ++ b), by simp [hw]⟩

end Tag

end Stencil
