import Mathlib
import Stencil.Proofs.Template.Harvest
import Stencil.Template
/-!
The runtime source of a template parses to the lowered tree.

Every edit lies in one token, so the lowered source is the source with its tokens rewritten one by one
(`Lowering.stream_splice`).  Each rewritten token is read as one token again, and the parser takes it to
the lowered node (`Lowering.Lowers.step`).
-/

namespace Stencil

namespace Lowering

variable (declared : List Text) (key : Text → Text)

/-- The text of the expression that stands for a raw block. -/
def literalContent (content : Text) : Text :=
  literalHelper ++ " \"".toList ++ Text.Hex.encode (Text.utf8 content) ++ ['"']

/-- The edits, by the part of the tree that each comes from. -/
def changes : Harvest Edit where
  name n := Edit.needed n.token (n.lowered declared key).token.text
  close n s := Edit.needed s (n.closing declared key s.text)
  raw content whole := [⟨whole, literalCall content⟩]

theorem needed_self (s : Slice) : Edit.needed s s.text = [] :=
  if_pos rfl

theorem nameEdits_eq (name : PartialName) (closing : List Slice) :
    nameEdits declared key name closing =
      (changes declared key).name name ++ closing.flatMap ((changes declared key).close name) := by
  cases name with
  | computed e =>
    simp [nameEdits, changes, PartialName.lowered, PartialName.closing, PartialName.token, needed_self]
  | fixed token =>
    cases h : Node.isFree declared (unquote token.text) <;>
      simp [nameEdits, changes, PartialName.lowered, PartialName.closing, PartialName.token,
        needed_self, h]

theorem edits_eq (nodes : List Node) :
    edits key nodes = (changes (Node.declaredNames nodes) key).ofNodes nodes := by
  refine congrArg (fun f => (Node.walk nodes).flatMap f) (funext fun n => ?_)
  cases n <;> simp [nodeEdits, Harvest.ofNode, nameEdits_eq, changes]

/-! ## Tokens of the lowered source -/

/-- What a tag has as its content in the lowered source. -/
inductive Content (stack : List Frame) (t : Tag) : Text → Prop
  | name {name : PartialName} {rest : Text} : keeps stack = true →
      t.kind = .invocation ∨ t.kind = .openInvocation →
      PartialName.Reads t.inner.start t.inner.text name rest →
      (∀ token, name = .fixed token → Node.isFree declared (unquote token.text) = true →
        PartialName.Apart rest) →
      Content stack t ((name.lowered declared key).token.text ++ rest)
  | close {name : PartialName} {params : Text} {i : Nat} {body : List Node}
      {inverse : Option (List Node)} {outer : List Frame} : keeps stack = true → t.kind = .close →
      stack = ⟨.invocation name params, i, body, inverse⟩ :: outer →
      Content stack t (name.closing declared key t.inner.text)
  | same : (keeps stack = true → t.kind ≠ .invocation ∧ t.kind ≠ .openInvocation ∧
        (t.kind = .close → ∀ f ∈ stack.head?, ∀ name params, f.opener ≠ .invocation name params)) →
      Content stack t t.inner.text

/-- What a token becomes in the lowered source. -/
inductive Lowers (stack : List Frame) : Token → Token → Prop
  | text {i j : Nat} {s : Text} : Lowers stack (.text ⟨i, s⟩) (.text ⟨j, s⟩)
  | tag {t t' : Tag} : t'.kind = t.kind → Content declared key stack t t'.inner.text →
      Lowers stack (.tag t) (.tag t')
  | raw {i j : Nat} {b : RawBlock} : keeps stack = false → Lowers stack (.raw i b) (.raw j b)
  | literal {i : Nat} {b : RawBlock} {t' : Tag} : keeps stack = true → t'.kind = .expression →
      t'.inner.text = literalContent b.content → Lowers stack (.raw i b) (.tag t')

variable {declared key}

/-! ## Reading them -/

theorem literalCall_eq (content : Text) :
    literalCall content = open2 ++ literalContent content ++ close2 := by
  simp [literalCall, callOf, literalContent]

theorem noBrace_literalContent (content : Text) : '}' ∉ literalContent content := by
  have hex : '}' ∉ Text.Hex.encode (Text.utf8 content) :=
    fun h => absurd (Alias.isPlainChar_encode h) (by decide)
  simp only [literalContent, List.mem_append, not_or]
  exact ⟨⟨⟨by decide, by decide⟩, hex⟩, by decide⟩

/-- The call that stands for a raw block is read as an expression. -/
theorem next_literalCall (start : Nat) (content x : Text) :
    ∃ t, Token.next start (literalCall content ++ x) = .ok (.tag t, x) ∧ t.kind = .expression ∧
      t.inner.text = literalContent content := by
  have hbrace := noBrace_literalContent content
  have hlast : (literalContent content).getLast? = some '"' := by
    rw [literalContent, List.getLast?_append_of_ne_nil _ (by simp)]
    rfl
  obtain ⟨r, hr⟩ : ∃ r, literalContent content = '_' :: r := ⟨_, rfl⟩
  rw [literalCall_eq]
  generalize literalContent content = lit at *
  have htrim (n : Nat) : Slice.trim ⟨n, lit⟩ = ⟨n, lit⟩ := by
    have htrimmed : Text.Trimmed lit := by
      refine ⟨fun c hc => ?_, fun c hc => ?_⟩
      · rw [hr] at hc
        rw [← Option.some.inj hc]
        rfl
      · rw [← Option.some.inj (hlast.symm.trans hc)]
        rfl
    simpa using Slice.trim_append n (a := []) (b := []) (by simp) (by simp) htrimmed (by simp [hr])
  have hclass : TagKind.classify lit = (.expression, 0) := by
    rw [hr]
    rfl
  have hcut : Text.cut close2 (lit ++ close2 ++ x) = some (lit, x) := by
    have := (Closeless.append_left (s := []) hbrace).2 (List.isChain_singleton _)
    rw [List.append_nil] at this
    exact cut_close2_iff.2 this
  have hplain : Tag.readPlain start open2 (lit ++ close2 ++ x) =
      .ok (⟨.expression, ⟨start + Text.size open2, lit⟩, ⟨start, open2 ++ lit ++ close2⟩⟩, x) := by
    rw [Tag.readPlain, hcut]
    have hdrop : Tag.dropEndTilde lit = lit := by simp [Tag.dropEndTilde, hlast]
    have hdrop0 (n : Nat) : Slice.drop 0 ⟨n, lit⟩ = ⟨n, lit⟩ := by simp [Slice.drop]
    simp only [hdrop, htrim]
    simp only [hclass, hdrop0, htrim]
  have hform : Tag.Form start ([] ++ (lit ++ close2 ++ x)) (Tag.readPlain start (open2 ++ []) _) :=
    .plain (.inr ⟨rfl, by simp [hr]⟩) (by simp [hr, Text.after?]) (fun _ => by simp [hr])
  have hread := hform.read_eq
  rw [List.append_nil, hplain] at hread
  refine ⟨_, Token.next_tag.2 ⟨lit ++ close2 ++ x, by simp, ?_, hread⟩, rfl, rfl⟩
  simp [hr, Text.startsWith, open2, open4, Text.after?]

/-- The text of a token in the lowered source. -/
def rewritten (declared : List Text) (key : Text → Text) (stack : List Frame) (t : Token) : Text :=
  Edit.splice t.whole.start t.whole.text ((changes declared key).ofToken stack t)

/-- The text is read as what the token becomes in the lowered source. -/
structure Rereads (declared : List Text) (key : Text → Text) (stack : List Frame) (t : Token)
    (rest w : Text) : Prop where
  opens : (∃ p, t = .text p ∧ w = p.text) ∨ ∃ w', w = open2 ++ w'
  next : ∀ start x,
    (∀ p, t = .text p → rest = [] ∧ x = [] ∨ (∃ y, rest = open2 ++ y) ∧ ∃ y, x = open2 ++ y) →
    ∃ t', Token.next start (w ++ x) = .ok (t', x) ∧ Lowers declared key stack t t'

variable {start : Nat} {s rest : Text} {stack : List Frame}

/-- A token that is not changed. -/
theorem rereads_same {t : Token} (h : Token.next start s = .ok (t, rest))
    (hl : ∀ t', Token.Same t t' → Lowers declared key stack t t') :
    Rereads declared key stack t rest t.whole.text := by
  refine ⟨(Token.whole_of_next h).imp_left fun ⟨p, hp⟩ => ⟨p, hp, hp ▸ rfl⟩, fun start' x hx => ?_⟩
  exact ⟨_, Token.next_elsewhere h start' hx, hl _ (Token.same_moved start' t)⟩

/-- A tag in which the head of the content is changed. -/
theorem rereads_head {t : Tag} {old new more : Text} (h : Token.next start s = .ok (.tag t, rest))
    (hk : t.kind = .invocation ∨ t.kind = .openInvocation ∨ t.kind = .close)
    (hne : old ≠ []) (hi : t.inner.text = old ++ more) (hx : Tag.Exchange (old ++ more) (new ++ more))
    (hc : Content declared key stack t (new ++ more)) :
    Rereads declared key stack (.tag t) rest
      (Edit.splice start t.whole.text (Edit.needed ⟨t.inner.start, old⟩ new)) := by
  obtain ⟨tilde, a, b, hw, hstart, -, -, hread⟩ := Token.next_exchange h hk (by simp [hi, hne])
  rw [hi, ← List.append_assoc, List.append_assoc] at hw
  rw [hw, hstart, Edit.splice_needed]
  refine ⟨.inr ⟨_, by simp only [List.append_assoc]; rfl⟩, fun start' x _ => ?_⟩
  obtain ⟨t', hn, hk', hi'⟩ := hread _ (hi ▸ hx) start' x
  refine ⟨.tag t', ?_, .tag hk' (hi' ▸ hc)⟩
  rw [← hn]
  simp

/-- A free name in the tag has a blank after it, or nothing. -/
def NameApart (declared : List Text) (stack : List Frame) (t : Tag) : Prop :=
  keeps stack = true → t.kind = .invocation ∨ t.kind = .openInvocation → ∀ token rest,
    PartialName.Reads t.inner.start t.inner.text (.fixed token) rest →
      Node.isFree declared (unquote token.text) = true → PartialName.Apart rest

variable {p q : Parser}

theorem read_of_stepTag {t : Tag} (hp : p.stepTag t = .ok q)
    (hk : t.kind = .invocation ∨ t.kind = .openInvocation) :
    ∃ name params, PartialName.read t.inner = .ok (name, params) := by
  unfold Parser.stepTag at hp
  rcases hk with hk | hk <;> rw [hk] at hp <;>
    obtain ⟨⟨name, params⟩, hr, -⟩ := Except.bind_eq_ok_iff.1 hp <;>
    exact ⟨name, params, hr⟩

theorem closedBy_of_stepTag {t : Tag} (hp : p.stepTag t = .ok q) (hk : t.kind = .close) :
    ∃ f outer, p.stack = f :: outer ∧ f.opener.closedBy t.inner.text = true := by
  unfold Parser.stepTag at hp
  rw [hk] at hp
  obtain ⟨f, outer, hs, hc, -⟩ := Parser.close_eq_ok_iff.1 hp
  exact ⟨f, outer, hs, hc⟩

/-! ### Where the edits lie -/

/-- An edit of the head of its content lies in the tag. -/
theorem inPlace_head {t : Tag} {old more : Text} (new : Text)
    (h : Token.next start s = .ok (.tag t, rest))
    (hk : t.kind = .invocation ∨ t.kind = .openInvocation ∨ t.kind = .close)
    (hne : old ≠ []) (hi : t.inner.text = old ++ more) :
    Edit.InPlace start t.whole.text (Edit.needed ⟨t.inner.start, old⟩ new) := by
  obtain ⟨tilde, a, b, hw, hstart, -⟩ := Token.next_exchange h hk (by simp [hi, hne])
  rw [hi, ← List.append_assoc, List.append_assoc] at hw
  rw [hw, hstart]
  exact Edit.inPlace_needed hne

variable (declared key) in
theorem inPlace_name {t : Tag} {name : PartialName} {more : Text}
    (h : Token.next start s = .ok (.tag t, rest))
    (hk : t.kind = .invocation ∨ t.kind = .openInvocation)
    (hname : PartialName.Reads t.inner.start t.inner.text name more) :
    Edit.InPlace start t.whole.text ((changes declared key).name name) := by
  obtain ⟨hi, hstart, hne⟩ := hname.eq
  have htoken : name.token = ⟨t.inner.start, name.token.text⟩ := hstart ▸ rfl
  have := inPlace_head (name.lowered declared key).token.text h (hk.imp_right .inl) hne hi
  rwa [← htoken] at this

variable (declared key) in
theorem inPlace_close {t : Tag} {f : Frame} {outer : List Frame}
    (h : Token.next start s = .ok (.tag t, rest)) (hk : t.kind = .close)
    (hc : f.opener.closedBy t.inner.text = true) (hnamed : Parser.Named (f :: outer)) :
    Edit.InPlace start t.whole.text ((changes declared key).ofClose (f :: outer) t.inner) := by
  have hk' : t.kind = .invocation ∨ t.kind = .openInvocation ∨ t.kind = .close := .inr (.inr hk)
  obtain ⟨o, i, body, inverse⟩ := f
  cases o with
  | block => exact .none
  | decorator => exact .none
  | invocation name params =>
    simp only [Harvest.ofClose, changes]
    rcases PartialName.exchange_closing declared key hc
      (hnamed _ List.mem_cons_self name params rfl) (Token.trimmed_of_next h hk') with he | ⟨hne, -⟩
    · rw [he, needed_self]
      exact .none
    · exact inPlace_head _ h hk' hne (List.append_nil _).symm

/-- What is taken from a tag that names a partial is taken from the name. -/
theorem ofTag_name {β : Type} {t : Tag} {name : PartialName} {params : Text} (g : Harvest β)
    (hk : t.kind = .invocation ∨ t.kind = .openInvocation)
    (hr : PartialName.read t.inner = .ok (name, params)) : g.ofTag stack t = g.name name := by
  rcases hk with hk | hk <;> simp [Harvest.ofTag, hk, hr]

/-- Nothing is taken from a tag that neither names a partial nor closes a block. -/
theorem ofTag_nameless {β : Type} {t : Tag} (g : Harvest β) (stack : List Frame)
    (hk : ¬ (t.kind = .invocation ∨ t.kind = .openInvocation)) (hclose : t.kind ≠ .close) :
    g.ofTag stack t = [] := by
  rcases g.ofTag_cases stack t with ⟨_, _, hk', -⟩ | ⟨hk', -⟩ | he
  · exact absurd hk' hk
  · exact absurd hk' hclose
  · exact he

theorem names_ofClose (stack : List Frame) (inner : Slice) : Harvest.names.ofClose stack inner = [] := by
  unfold Harvest.ofClose
  split <;> rfl

/-- No name is taken from a tag that names no partial. -/
theorem names_ofTag_nameless {t : Tag} (stack : List Frame)
    (hk : ¬ (t.kind = .invocation ∨ t.kind = .openInvocation)) : Harvest.names.ofTag stack t = [] := by
  rcases Harvest.names.ofTag_cases stack t with ⟨_, _, hk', -⟩ | ⟨-, he⟩ | he
  · exact absurd hk' hk
  · rw [he, names_ofClose]
  · exact he

variable (declared key) in
/-- The edits of a token lie in it. -/
theorem inPlace_token {t : Token} (h : Token.next start s = .ok (t, rest)) (hp : p.step t = .ok q)
    (hnamed : Parser.Named p.stack) :
    Edit.InPlace start t.whole.text ((changes declared key).ofToken p.stack t) := by
  have hstart := (Token.next_eq h).1
  unfold Harvest.ofToken
  split
  · cases t with
    | text piece => exact .none
    | raw i b =>
      obtain rfl : i = start := hstart
      exact Edit.inPlace_whole (List.ne_nil_of_length_pos b.written_length_pos)
    | tag t =>
      have hp := Parser.step_tag_eq_ok_iff.1 hp
      simp only
      rcases (changes declared key).ofTag_cases p.stack t with
        ⟨name, params, hk, hr, he⟩ | ⟨hk, he⟩ | he <;> rw [he]
      · obtain ⟨more, hname, -⟩ := PartialName.read_eq_ok_iff.1 hr
        exact inPlace_name declared key h hk hname
      · obtain ⟨f, outer, hs, hc⟩ := closedBy_of_stepTag hp hk
        rw [hs] at hnamed ⊢
        exact inPlace_close declared key h hk hc hnamed
      · exact .none
  · exact .none

/-! ### How the rewritten tokens are read -/

/-- A tag that names a partial is rewritten in its name. -/
theorem rereads_name {t : Tag} {name : PartialName} {more : Text}
    (h : Token.next start s = .ok (.tag t, rest))
    (hkeep : keeps stack = true) (hk : t.kind = .invocation ∨ t.kind = .openInvocation)
    (hname : PartialName.Reads t.inner.start t.inner.text name more) (hap : NameApart declared stack t) :
    Rereads declared key stack (.tag t) rest
      (Edit.splice start t.whole.text ((changes declared key).name name)) := by
  obtain ⟨hi, hstart, hne⟩ := hname.eq
  have htoken : name.token = ⟨t.inner.start, name.token.text⟩ := hstart ▸ rfl
  have hx := PartialName.exchange_lowered declared key hname
    (Token.trimmed_of_next h (hk.imp_right .inl))
  have hcontent : Content declared key stack t ((name.lowered declared key).token.text ++ more) :=
    .name hkeep hk hname fun token ht hfree => hap hkeep hk token more (ht ▸ hname) hfree
  rw [hi] at hx
  have := rereads_head h (hk.imp_right .inl) hne hi hx hcontent
  rwa [← htoken] at this

/-- A closing tag is rewritten as a whole. -/
theorem rereads_close {t : Tag} {f : Frame} {outer : List Frame}
    (h : Token.next start s = .ok (.tag t, rest))
    (hkeep : keeps (f :: outer) = true) (hk : t.kind = .close)
    (hc : f.opener.closedBy t.inner.text = true)
    (hnamed : Parser.Named (f :: outer)) :
    Rereads declared key (f :: outer) (.tag t) rest
      (Edit.splice start t.whole.text ((changes declared key).ofClose (f :: outer) t.inner)) := by
  have same (he : (changes declared key).ofClose (f :: outer) t.inner = [])
      (hcontent : Content declared key (f :: outer) t t.inner.text) :
      Rereads declared key (f :: outer) (.tag t) rest
        (Edit.splice start t.whole.text ((changes declared key).ofClose (f :: outer) t.inner)) := by
    rw [he]
    refine rereads_same h fun t' ht' => ?_
    cases ht' with
    | tag hk' hi' => exact .tag hk' (hi' ▸ hcontent)
  have hk' : t.kind = .invocation ∨ t.kind = .openInvocation ∨ t.kind = .close := .inr (.inr hk)
  obtain ⟨o, i, body, inverse⟩ := f
  cases o with
  | block => exact same rfl (.same (by simp [hk]))
  | decorator => exact same rfl (.same (by simp [hk]))
  | invocation name params =>
    have hcontent : Content declared key (⟨.invocation name params, i, body, inverse⟩ :: outer) t
        (name.closing declared key t.inner.text) := .close hkeep hk rfl
    rcases PartialName.exchange_closing declared key hc
      (hnamed _ List.mem_cons_self name params rfl) (Token.trimmed_of_next h hk') with he | ⟨hne, hx⟩
    · refine same ?_ (he ▸ hcontent)
      simp only [Harvest.ofClose, changes]
      rw [he, needed_self]
    · have hx' : Tag.Exchange (t.inner.text ++ []) (name.closing declared key t.inner.text ++ []) := by
        simpa using hx
      have hcontent' := (List.append_nil (name.closing declared key t.inner.text)).symm ▸ hcontent
      exact rereads_head h hk' hne (List.append_nil _).symm hx' hcontent'

/-- A tag is rewritten where it names a partial. -/
theorem rereads_tag {t : Tag} (h : Token.next start s = .ok (.tag t, rest)) (hp : p.stepTag t = .ok q)
    (hkeep : keeps p.stack = true) (hnamed : Parser.Named p.stack) (hap : NameApart declared p.stack t) :
    Rereads declared key p.stack (.tag t) rest
      (Edit.splice start t.whole.text ((changes declared key).ofTag p.stack t)) := by
  by_cases hk : t.kind = .invocation ∨ t.kind = .openInvocation
  · obtain ⟨name, params, hr⟩ := read_of_stepTag hp hk
    obtain ⟨more, hname, -⟩ := PartialName.read_eq_ok_iff.1 hr
    rw [ofTag_name _ hk hr]
    exact rereads_name h hkeep hk hname hap
  by_cases hk' : t.kind = .close
  · have htag : (changes declared key).ofTag p.stack t =
        (changes declared key).ofClose p.stack t.inner := by
      simp [Harvest.ofTag, hk']
    obtain ⟨f, outer, hs, hc⟩ := closedBy_of_stepTag hp hk'
    rw [htag]
    rw [hs] at hkeep hnamed ⊢
    exact rereads_close h hkeep hk' hc hnamed
  · rw [ofTag_nameless _ p.stack hk hk']
    refine rereads_same h fun t' ht' => ?_
    cases ht' with
    | tag hkind hi =>
      refine .tag hkind (hi ▸ .same fun _ => ?_)
      exact ⟨fun h => hk (.inl h), fun h => hk (.inr h), fun h => absurd h hk'⟩

/-- The rewritten token is read as what it becomes. -/
theorem rereads {t : Token} (h : Token.next start s = .ok (t, rest)) (hp : p.step t = .ok q)
    (hnamed : Parser.Named p.stack) (hap : ∀ tag, t = .tag tag → NameApart declared p.stack tag) :
    Rereads declared key p.stack t rest (rewritten declared key p.stack t) := by
  have hstart := (Token.next_eq h).1
  have same (he : (changes declared key).ofToken p.stack t = [])
      (hl : ∀ t', Token.Same t t' → Lowers declared key p.stack t t') :
      Rereads declared key p.stack t rest (rewritten declared key p.stack t) := by
    rw [rewritten, he]
    exact rereads_same h hl
  cases hkeep : keeps p.stack with
  | false =>
    refine same (by simp [Harvest.ofToken, hkeep]) fun t' ht' => ?_
    cases ht' with
    | text => exact .text
    | raw => exact .raw hkeep
    | tag hk hi => exact .tag hk (hi ▸ .same (by simp [hkeep]))
  | true =>
  cases t with
  | text p =>
    refine same (by simp [Harvest.ofToken]) fun t' ht' => ?_
    cases ht'
    exact .text
  | raw i b =>
    obtain rfl : i = start := hstart
    have he : (changes declared key).ofToken p.stack (.raw i b) =
        [⟨⟨i, b.written⟩, literalCall b.content⟩] := by
      simp [Harvest.ofToken, hkeep, changes]
    rw [rewritten, he]
    simp only [Token.whole, Edit.splice_whole]
    refine ⟨.inr ⟨_, literalCall_eq _ ▸ List.append_assoc ..⟩, fun start' x _ => ?_⟩
    obtain ⟨t', hn, hk', hi'⟩ := next_literalCall start' b.content x
    exact ⟨.tag t', hn, .literal hkeep hk' hi'⟩
  | tag t =>
    have htoken : (changes declared key).ofToken p.stack (.tag t) =
        (changes declared key).ofTag p.stack t := by
      simp [Harvest.ofToken, hkeep]
    rw [rewritten, htoken, hstart]
    exact rereads_tag h (Parser.step_tag_eq_ok_iff.1 hp) hkeep hnamed (hap t rfl)

/-! ## The whole source -/

/-- Each free name in a tag of the run has a blank after it, or nothing. -/
def NamesApart (declared : List Text) (p : Parser) : List Token → Prop
  | [] => True
  | t :: ts => (∀ tag, t = .tag tag → NameApart declared p.stack tag) ∧
    ∀ p', p.step t = .ok p' → NamesApart declared p' ts

/-- What the tokens of a run become in the lowered source. -/
inductive LowersAll (declared : List Text) (key : Text → Text) : Parser → List Token → List Token → Prop
  | nil {p : Parser} : LowersAll declared key p [] []
  | cons {p p' : Parser} {t t' : Token} {ts ts' : List Token} : p.step t = .ok p' →
      Lowers declared key p.stack t t' → LowersAll declared key p' ts ts' →
      LowersAll declared key p (t :: ts) (t' :: ts')

/-- The edits of a run are in order, and carrying them out rewrites each token. -/
structure Relexes (declared : List Text) (key : Text → Text) (p : Parser) (start : Nat) (s : Text)
    (ts : List Token) : Prop where
  within : ∀ e ∈ (changes declared key).ofRun p ts, start ≤ e.slice.start
  sorted : ((changes declared key).ofRun p ts).Pairwise fun d e => d.slice.start < e.slice.start
  opens : ∀ y, s = open2 ++ y →
    ∃ y', Edit.splice start s ((changes declared key).ofRun p ts) = open2 ++ y'
  stream : ∀ start', ∃ ts',
    Token.stream start' (Edit.splice start s ((changes declared key).ofRun p ts)) = .ok ts' ∧
      LowersAll declared key p ts ts'

theorem rewritten_ne_nil {t : Token} (hs : s ≠ []) (h : Token.next start s = .ok (t, rest))
    (hre : Rereads declared key stack t rest (rewritten declared key stack t)) :
    rewritten declared key stack t ≠ [] := by
  rcases hre.opens with ⟨piece, rfl, hw⟩ | ⟨w, hw⟩
  · have hlength := Token.next_rest_length hs h
    rw [← (Token.next_eq h).2, List.length_append] at hlength
    rw [hw]
    exact List.ne_nil_of_length_pos (by simp only [Token.whole] at hlength; omega)
  · simp [hw, open2]

/-- Literal text is followed by what opens a tag, or ends both sources. -/
theorem Relexes.after_text {stop : Nat} {piece : Slice} {ts : List Token}
    (h : Token.next start s = .ok (.text piece, rest)) (hrest : Token.stream stop rest = .ok ts)
    (hmore : Relexes declared key p stop rest ts) :
    rest = [] ∧ Edit.splice stop rest ((changes declared key).ofRun p ts) = [] ∨
      (∃ y, rest = open2 ++ y) ∧
        ∃ y, Edit.splice stop rest ((changes declared key).ofRun p ts) = open2 ++ y := by
  rcases Token.literal_rest s with hl | ⟨y, hy⟩
  · obtain rfl : rest = [] := (Token.next_text h).2.2.trans hl
    rcases Token.stream_eq_ok hrest with ⟨-, rfl⟩ | ⟨hne, -⟩
    · exact .inl ⟨rfl, rfl⟩
    · exact absurd rfl hne
  · have hy' : rest = open2 ++ y := (Token.next_text h).2.2.trans hy
    exact .inr ⟨⟨y, hy'⟩, hmore.opens y hy'⟩

theorem relexes {ts : List Token} (h : Token.stream start s = .ok ts) (hr : p.run ts = .ok q)
    (hnamed : Parser.Named p.stack) (hap : NamesApart declared p ts) :
    Relexes declared key p start s ts := by
  induction ts generalizing p start s with
  | nil =>
    rcases Token.stream_eq_ok h with ⟨rfl, -⟩ | ⟨-, _, _, _, he, -⟩
    · exact ⟨by simp [Harvest.ofRun], by simp [Harvest.ofRun], by simp [open2],
        fun start' => ⟨[], Token.stream_nil start', .nil⟩⟩
    · cases he
  | cons t ts ih =>
    obtain ⟨hs, rest, hn, hrest⟩ := Token.stream_cons_eq_ok h
    obtain ⟨p', hp, hr⟩ := Parser.run_cons_eq_ok_iff.1 hr
    have hfits := (inPlace_token declared key hn hp hnamed).fits
    have hre : Rereads declared key p.stack t rest _ := rereads hn hp hnamed hap.1
    have hmore := ih hrest hr (Parser.named_step hp hnamed) (hap.2 p' hp)
    obtain ⟨hstart, hwhole⟩ := Token.next_eq hn
    have hstop : t.whole.stop = start + Text.size t.whole.text := by rw [Slice.stop, hstart]
    have hsplice : Edit.splice start s ((changes declared key).ofRun p (t :: ts)) =
        rewritten declared key p.stack t ++
          Edit.splice t.whole.stop rest ((changes declared key).ofRun p' ts) := by
      have hlater : ∀ e, ((changes declared key).ofRun p' ts).head? = some e →
          start + Text.size t.whole.text ≤ e.slice.start :=
        fun e he => hstop ▸ hmore.within e (List.mem_of_head? he)
      rw [Harvest.ofRun_cons _ hp, ← hwhole, hfits.splice_append hlater, rewritten, hstart, hstop]
    refine ⟨fun e he => ?_, ?_, fun y hy => ?_, fun start' => ?_⟩
    · rw [Harvest.ofRun_cons _ hp] at he
      rcases List.mem_append.1 he with he | he
      · exact (hfits.bounds he).1
      · have := hmore.within e he
        omega
    · rw [Harvest.ofRun_cons _ hp]
      refine List.pairwise_append.2 ⟨hfits.ordered, hmore.sorted, fun d hd e he => ?_⟩
      have := hfits.bounds hd
      have := hmore.within e he
      omega
    · rcases hre.opens with ⟨piece, rfl, -⟩ | ⟨w, hw⟩
      · have := (Token.next_text hn).1
        rw [hy, Text.after?_append] at this
        cases this
      · exact ⟨w ++ Edit.splice t.whole.stop rest _, by rw [hsplice, hw, List.append_assoc]⟩
    · obtain ⟨t', hn', hl⟩ := hre.next start' _ fun piece ht =>
        Relexes.after_text (ht ▸ hn) hrest hmore
      obtain ⟨ts', hts, hall⟩ := hmore.stream t'.whole.stop
      have hne := rewritten_ne_nil hs hn hre
      refine ⟨t' :: ts', ?_, .cons hp hl hall⟩
      rw [hsplice, Token.stream_of_next (by simp [hne]) hn', hts]
      rfl

/-! ## Names set apart in the source -/

/-- The name is in quotation marks or brackets. -/
def IsMarked (token : Slice) : Prop :=
  ∃ q ∈ ['"', '\'', '['], token.text.head? = some q

/-- What follows a piece of the source. -/
def after (source : Text) (piece : Slice) : Text :=
  (Text.splitAtByte piece.stop source).2

/-- What stands after a name in the source tells whether the name is set apart in its tag. -/
theorem apart_of_endsName {source before more : Text} {t : Tag} {token : Slice}
    (hsource : source = before ++ s) (hbefore : Text.size before = start)
    (h : Token.next start s = .ok (.tag t, rest))
    (hk : t.kind = .invocation ∨ t.kind = .openInvocation)
    (hreads : PartialName.Reads t.inner.start t.inner.text (.fixed token) more)
    (hends : endsName (after source token) = true) : PartialName.Apart more := by
  obtain ⟨hi, htoken, hne⟩ := hreads.eq
  obtain ⟨tilde, a, b, hw, hinner, hsp, -⟩ :=
    Token.next_exchange h (hk.imp_right .inl) (by simp [hi, hne])
  have hsplit : source =
      before ++ (open2 ++ (tilde ++ a)) ++ token.text ++ (more ++ (b ++ rest)) := by
    rw [hsource, ← (Token.next_eq h).2, show (Token.tag t).whole.text = t.whole.text from rfl, hw, hi]
    simp [PartialName.token]
  have hstop : token.stop = Text.size (before ++ (open2 ++ (tilde ++ a)) ++ token.text) := by
    have htoken : token.start = t.inner.start := htoken
    simp [Slice.stop, htoken, hinner, ← hbefore, Nat.add_assoc]
  rw [after, hsplit, hstop, Text.splitAtByte_size] at hends
  exact (hi ▸ hsp).apart hends

theorem namesApart_of_source {source before : Text} {ts : List Token} (hsource : source = before ++ s)
    (hbefore : Text.size before = start) (h : Token.stream start s = .ok ts) (hr : p.run ts = .ok q)
    (hap : ∀ token, .fixed token ∈ Harvest.names.ofRun p ts →
      Node.isFree declared (unquote token.text) = true → IsMarked token →
      endsName (after source token) = true) :
    NamesApart declared p ts := by
  induction ts generalizing p start s before with
  | nil => trivial
  | cons t ts ih =>
    obtain ⟨-, rest, hn, hrest⟩ := Token.stream_cons_eq_ok h
    obtain ⟨p', hp, hr⟩ := Parser.run_cons_eq_ok_iff.1 hr
    rw [Harvest.ofRun_cons _ hp] at hap
    obtain ⟨hstart, hwhole⟩ := Token.next_eq hn
    refine ⟨?_, fun p'' hp' => ?_⟩
    · rintro t rfl hkeep hk token more hreads hfree
      by_cases hmark : IsMarked token
      · have hread : PartialName.read t.inner = .ok (.fixed token, Text.trim more) :=
          PartialName.read_eq_ok_iff.2 ⟨more, hreads, rfl⟩
        have hmem : .fixed token ∈ Harvest.names.ofToken p.stack (.tag t) := by
          rcases hk with hk | hk <;>
            simp [Harvest.ofToken, hkeep, Harvest.ofTag, hk, hread, Harvest.names]
        exact apart_of_endsName hsource hbefore hn hk hreads
          (hap token (List.mem_append_left _ hmem) hfree hmark)
      · exact hreads.apart_of_bare fun q hq hh => hmark ⟨q, hq, hh⟩
    · obtain rfl := Except.ok.inj (hp.symm.trans hp')
      have hsource' : source = (before ++ t.whole.text) ++ rest := by
        rw [hsource, List.append_assoc, hwhole]
      have hbefore' : Text.size (before ++ t.whole.text) = t.whole.stop := by
        rw [Text.size_append, hbefore, Slice.stop, hstart]
      exact ih hsource' hbefore' hrest hr fun token hm => hap token (List.mem_append_right _ hm)

/-! ## The parser on the lowered source -/

open Node Rewriting

/-- A name reads as its lowered form, or as it is in what is dropped. -/
theorem read_content {t t' : Tag} {name : PartialName} {params : Text}
    (hk : t.kind = .invocation ∨ t.kind = .openInvocation)
    (hc : Content declared key stack t t'.inner.text)
    (hr : PartialName.read t.inner = .ok (name, params)) :
    ∃ name', PartialName.read t'.inner = .ok (name', params) ∧
      unplaced.name name' = ((lowered declared key).under stack).name name := by
  generalize hi : t'.inner.text = s' at hc
  cases hc with
  | @name name₁ more hkeep _ hreads hap =>
    have hr₁ := hr.symm.trans (PartialName.read_eq_ok_iff.2 ⟨more, hreads, rfl⟩)
    obtain ⟨rfl, rfl⟩ := Prod.mk.inj (Except.ok.inj hr₁)
    refine ⟨_, PartialName.read_eq_ok_iff.2 ⟨more, hi ▸ hreads.lowered hap t'.inner.start, rfl⟩, ?_⟩
    simp [Rewriting.under, hkeep, unplaced, Rewriting.lowered]
  | close _ hk' => simp [hk'] at hk
  | same hsame =>
    have hkeep : keeps stack = false := by
      cases hkeep : keeps stack with
      | false => rfl
      | true =>
        have := hsame hkeep
        rcases hk with hk | hk <;> simp [hk] at this
    obtain ⟨more, hreads, rfl⟩ := PartialName.read_eq_ok_iff.1 hr
    refine ⟨_, PartialName.read_eq_ok_iff.2 ⟨more, hi ▸ hreads.moved t'.inner.start, rfl⟩, ?_⟩
    simp [Rewriting.under, hkeep, unplaced]

/-- The content of a tag that names nothing stays. -/
theorem Content.eq_inner {t : Tag} {s : Text} (hc : Content declared key stack t s)
    (hname : ¬ (t.kind = .invocation ∨ t.kind = .openInvocation))
    (hclose : t.kind = .close → ∀ f ∈ stack.head?, ∀ name params, f.opener ≠ .invocation name params) :
    s = t.inner.text := by
  cases hc with
  | same => rfl
  | name _ hk => exact absurd hk hname
  | close _ hk hs =>
    subst hs
    exact absurd rfl (hclose hk _ rfl _ _)

/-- The content of a tag that closes an invocation is the closing name, or stays in what is dropped. -/
theorem Content.closing {t : Tag} {s : Text} {f : Frame} {outer : List Frame} {name : PartialName}
    {params : Text} (hc : Content declared key (f :: outer) t s) (hk : t.kind = .close)
    (hf : f.opener = .invocation name params) :
    keeps outer = true ∧ s = name.closing declared key t.inner.text ∨
      keeps outer = false ∧ s = t.inner.text := by
  cases hc with
  | name _ hk' => simp [hk] at hk'
  | close hkeep _ hs =>
    obtain ⟨rfl, rfl⟩ := List.cons.inj hs
    obtain ⟨rfl, rfl⟩ := Opener.invocation.inj hf
    rw [keeps_cons, Bool.and_eq_true] at hkeep
    exact .inl ⟨hkeep.2, rfl⟩
  | same hsame =>
    refine .inr ⟨?_, rfl⟩
    cases hkeep : keeps outer with
    | false => rfl
    | true =>
      have hkeeps : keeps (f :: outer) = true := by simp [hkeep, Frame.drops, Frame.isDecorator, hf]
      exact absurd hf ((hsame hkeeps).2.2 hk f rfl name params)

/-- The lowered closing tag closes the lowered block. -/
theorem closedBy_content {t t' : Tag} {f f' : Frame} {outer : List Frame} (hk : t.kind = .close)
    (hc : Content declared key (f :: outer) t t'.inner.text)
    (hf : Frame.Matches ((lowered declared key).under outer) f f')
    (hclosed : f.opener.closedBy t.inner.text = true) :
    f'.opener.closedBy t'.inner.text = true := by
  have ho := hf.opener
  cases hopen : f.opener with
  | invocation name params =>
    rw [hopen] at ho hclosed
    obtain ⟨name', hopen', hname⟩ := Opener.eq_of_rewrite_invocation ho
    rw [hopen']
    rcases hc.closing hk hopen with ⟨hkeep, hs⟩ | ⟨hkeep, hs⟩
    · rw [Rewriting.under, if_pos hkeep] at hname
      rw [hs, PartialName.closedBy_congr hname]
      exact PartialName.closedBy_lowered hclosed
    · rw [Rewriting.under, hkeep] at hname
      rw [hs, PartialName.closedBy_congr hname]
      exact hclosed
  | _ =>
    have hs := hc.eq_inner (by simp [hk]) (by simp [hopen])
    rw [hs, Opener.eq_of_rewrite ho (by simp [hopen])]
    exact hclosed

theorem Lowers.stepTag {p' : Parser} {t t' : Tag} (hkind : t'.kind = t.kind)
    (hc : Content declared key p.stack t t'.inner.text) (hm : Parser.Matches (lowered declared key) p p')
    (hp : p.stepTag t = .ok q) :
    ∃ q', p'.stepTag t' = .ok q' ∧ Parser.Matches (lowered declared key) q q' := by
  by_cases hname : t.kind = .invocation ∨ t.kind = .openInvocation
  · obtain ⟨name, params, hr⟩ := read_of_stepTag hp hname
    obtain ⟨name', hr', hn⟩ := read_content hname hc hr
    unfold Parser.stepTag at hp ⊢
    rcases hname with hk | hk
    · simp only [hk, hr, hkind, hr'] at hp ⊢
      obtain rfl := Except.ok.inj hp
      exact ⟨_, rfl, hm.push (by simp only [rewrite, hn])⟩
    · simp only [hk, hr, hkind, hr'] at hp ⊢
      obtain rfl := Except.ok.inj hp
      exact ⟨_, rfl, hm.enter (by simp only [Opener.rewrite, hn]) _ _⟩
  by_cases hclose : t.kind = .close
  · unfold Parser.stepTag at hp ⊢
    simp only [hclose, hkind] at hp ⊢
    refine hm.close hp fun f f' hf hmatch hcl => ?_
    obtain ⟨outer, hs⟩ := List.head?_eq_some_iff.1 hf
    rw [hs] at hc hmatch
    exact closedBy_content hclose hc hmatch hcl
  have hi := hc.eq_inner hname fun hk => absurd hk hclose
  unfold Parser.stepTag at hp ⊢
  rw [hkind, hi]
  cases hk : t.kind <;> simp only [hk] at hp ⊢ hname hclose
  case otherwise => exact hm.otherwise hp
  case openBlock =>
    obtain ⟨hne, rfl⟩ := Parser.openBlock_eq_ok_iff.1 hp
    exact ⟨_, Parser.openBlock_eq_ok_iff.2 ⟨hi ▸ hne, rfl⟩, hm.enter (by rw [hi]; rfl) _ _⟩
  case openInverse =>
    obtain ⟨hne, rfl⟩ := Parser.openBlock_eq_ok_iff.1 hp
    exact ⟨_, Parser.openBlock_eq_ok_iff.2 ⟨hi ▸ hne, rfl⟩, hm.enter (by rw [hi]; rfl) _ _⟩
  case openDecorator =>
    obtain rfl := Except.ok.inj hp
    exact ⟨_, rfl, hm.enter rfl _ _⟩
  case invocation => simp at hname
  case openInvocation => simp at hname
  case close => simp at hclose
  all_goals
    obtain rfl := Except.ok.inj hp
    exact ⟨_, rfl, hm.push rfl⟩

/-- A step on the lowered source does what the step on the source does. -/
theorem Lowers.step {p' : Parser} {t t' : Token} (hl : Lowers declared key p.stack t t')
    (hm : Parser.Matches (lowered declared key) p p') (hp : p.step t = .ok q) :
    ∃ q', p'.step t' = .ok q' ∧ Parser.Matches (lowered declared key) q q' := by
  cases hl with
  | text =>
    obtain rfl := Except.ok.inj hp
    exact ⟨_, rfl, hm.push rfl⟩
  | raw hkeep =>
    obtain rfl := Except.ok.inj hp
    exact ⟨_, rfl, hm.push (by simp [Rewriting.under, hkeep, rewrite, unplaced])⟩
  | literal hkeep hk hi =>
    obtain rfl := Except.ok.inj hp
    refine ⟨_, Parser.step_tag_eq_ok_iff.2 (by rw [Parser.stepTag, hk]), hm.push ?_⟩
    simp [Rewriting.under, hkeep, rewrite, Rewriting.lowered, hi, literalContent]
  | tag hkind hc =>
    obtain ⟨q', hq, hmq⟩ := Lowers.stepTag hkind hc hm (Parser.step_tag_eq_ok_iff.1 hp)
    exact ⟨q', Parser.step_tag_eq_ok_iff.2 hq, hmq⟩

theorem LowersAll.run {p' : Parser} {ts ts' : List Token} (hl : LowersAll declared key p ts ts')
    (hm : Parser.Matches (lowered declared key) p p') (hp : p.run ts = .ok q) :
    ∃ q', p'.run ts' = .ok q' ∧ Parser.Matches (lowered declared key) q q' := by
  induction hl generalizing p' with
  | nil =>
    obtain rfl := Except.ok.inj hp
    exact ⟨p', rfl, hm⟩
  | cons hstep ht _ ih =>
    rw [Parser.run, hstep] at hp
    obtain ⟨p'', hstep', hm'⟩ := ht.step hm hstep
    obtain ⟨q', hr, hq⟩ := ih hm' hp
    refine ⟨q', ?_, hq⟩
    rw [Parser.run, hstep']
    exact hr

end Lowering

namespace Template

/-- Each free name in quotation marks or brackets has a blank or the end of its tag after it. -/
def MarkedNamesEnd (t : Template) : Prop :=
  ∀ token, .fixed token ∈ Node.invokedNames t.nodes →
    Node.isFree (Node.declaredNames t.nodes) (unquote token.text) = true → Lowering.IsMarked token →
    endsName (Lowering.after t.source token) = true

/-- The runtime source of a template parses, and gives the tree of the template with each free name as
a registry name, each computed name spelled for the runtime and each raw block as a call of the literal
helper, and with nothing else changed but places, provided that nothing stands right after a free name in
quotation marks or brackets. -/
theorem parse_runtimeSource {e : Expander} {source : Text} {t : Template} (h : parse e source = .ok t)
    (hends : t.MarkedNamesEnd) :
    ∃ nodes, Stencil.parse t.runtimeSource = .ok nodes ∧
      Node.rewriteAll .unplaced nodes =
        Node.rewriteAll (.lowered (Node.declaredNames t.nodes) (key e)) t.nodes := by
  obtain ⟨nodes, hparse, ht⟩ := Except.bind_eq_ok_iff.1 h
  obtain rfl := Except.ok.inj ht
  obtain ⟨ts, hts, hrest⟩ := Except.bind_eq_ok_iff.1 hparse
  obtain ⟨q, hrun, hfinish⟩ := Except.bind_eq_ok_iff.1 hrest
  have hnamed : Parser.Named Parser.start.stack := fun o ho => nomatch ho
  have hap : Lowering.NamesApart (Node.declaredNames nodes) Parser.start ts := by
    refine Lowering.namesApart_of_source (List.nil_append source).symm rfl hts hrun
      fun token hm => hends token ?_
    have := (Harvest.names.perm_parse hrun hfinish).mem_iff.2 hm
    rwa [Harvest.ofNodes_names] at this
  have hre : Lowering.Relexes (Node.declaredNames nodes) (key e) Parser.start 0 source ts :=
    Lowering.relexes hts hrun hnamed hap
  have hlower : lower (key e) source nodes =
      Edit.splice 0 source
        ((Lowering.changes (Node.declaredNames nodes) (key e)).ofRun Parser.start ts) := by
    have hperm := (Lowering.changes (Node.declaredNames nodes) (key e)).perm_parse hrun hfinish
    rw [lower, Edit.applyAll, Lowering.edits_eq, Edit.sorted_of_perm hperm hre.sorted]
  obtain ⟨ts', hts', hall⟩ := hre.stream 0
  obtain ⟨q', hrun', hmatch⟩ := hall.run Parser.matches_start hrun
  obtain ⟨nodes', hfinish', hnodes⟩ := hmatch.finish hfinish
  refine ⟨nodes', ?_, hnodes⟩
  rw [hlower, Stencil.parse, tokens, hts']
  change Parser.start.run ts' >>= Parser.finish = _
  rw [hrun']
  exact hfinish'

/-- A partial with a body, its name in quotation marks and a blank after it. -/
def quotedSource : Text :=
  open2 ++ "#>\"a\" x".toList ++ close2 ++ 'y' :: open2 ++ "/a".toList ++ close2

theorem parse_runtimeSource_quoted :
    ∃ t nodes, parse .identity quotedSource = .ok t ∧
      Stencil.parse t.runtimeSource = .ok nodes ∧
      Node.rewriteAll .unplaced nodes =
        [.blockInvocation (.fixed ⟨0, ['a']⟩) ['x'] ⟨0, []⟩ [.text ['y']]] := by
  have hparse : Stencil.parse quotedSource =
      .ok [.blockInvocation (.fixed ⟨4, "\"a\"".toList⟩) ['x'] ⟨15, ['a']⟩ [.text ['y']]] := by cbv
  obtain ⟨t, ht, hsource, hnodes⟩ : ∃ t, parse .identity quotedSource = .ok t ∧
      t.source = quotedSource ∧
      t.nodes = [.blockInvocation (.fixed ⟨4, "\"a\"".toList⟩) ['x'] ⟨15, ['a']⟩ [.text ['y']]] := by
    rw [parse, hparse]
    exact ⟨_, rfl, rfl, rfl⟩
  have hends : t.MarkedNamesEnd := by
    intro token hm _ _
    rw [hnodes] at hm
    simp only [Node.invokedNames, Node.walk, Node.descendants, List.filterMap_cons, Node.invoked?,
      List.append_nil, List.filterMap_nil, List.mem_singleton, PartialName.fixed.injEq] at hm
    rw [hsource, hm]
    decide
  obtain ⟨nodes, hnodes', hrewrite⟩ := parse_runtimeSource ht hends
  refine ⟨t, nodes, ht, hnodes', hrewrite.trans ?_⟩
  rw [hnodes]
  cbv

/-- A partial with its name in quotation marks and a parameter right after it. -/
def mergedSource : Text :=
  open2 ++ ">\"a\"x".toList ++ close2

/-- What stands right after a name in quotation marks becomes a part of the name. -/
theorem parse_runtimeSource_merged :
    ∃ t, parse .identity mergedSource = .ok t ∧
      Node.rewriteAll (.lowered (Node.declaredNames t.nodes) (key .identity)) t.nodes =
        [.invocation (.fixed ⟨0, ['a']⟩) ['x']] ∧
      Stencil.parse t.runtimeSource = .ok [.invocation (.fixed ⟨3, ['a', 'x']⟩) []] := by
  have hparse : Stencil.parse mergedSource = .ok [.invocation (.fixed ⟨3, "\"a\"".toList⟩) ['x']] := by
    cbv
  have hlower : lower (key .identity) mergedSource [.invocation (.fixed ⟨3, "\"a\"".toList⟩) ['x']] =
      "{{>ax}}".toList := by cbv
  have hagain : Stencil.parse "{{>ax}}".toList = .ok [.invocation (.fixed ⟨3, ['a', 'x']⟩) []] := by cbv
  obtain ⟨t, ht, hruntime, hnodes⟩ : ∃ t, parse .identity mergedSource = .ok t ∧
      t.runtimeSource = "{{>ax}}".toList ∧
        t.nodes = [.invocation (.fixed ⟨3, "\"a\"".toList⟩) ['x']] := by
    rw [parse, hparse]
    exact ⟨_, rfl, hlower, rfl⟩
  refine ⟨t, ht, ?_, hruntime ▸ hagain⟩
  rw [hnodes]
  cbv

end Template

end Stencil
