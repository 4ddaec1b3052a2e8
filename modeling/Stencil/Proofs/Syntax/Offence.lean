import Stencil.Proofs.Syntax.Place
import Stencil.Proofs.Syntax.Position
import Stencil.Proofs.Template.Rewriting
import Stencil.TemplateError
/-!
Where a malformed source goes wrong.

The frames of the parser are the opening tags that no closing tag has been read for
(`Unclosed`, kept by every step), so the frame on top belongs to the innermost open block.  A source that
does not parse has a tag or a raw block that cannot be read, a tag that the open blocks do not allow, or
a block that is left open, and the position of the error is where that tag or raw block starts
(`offence_of_parse`).
-/

namespace Stencil

/-! ## Open blocks -/

namespace Tag

/-- Whether the tag opens a block. -/
def opens (t : Tag) : Bool :=
  match t.kind with
  | .openBlock | .openInverse | .openInvocation | .openDecorator => true
  | _ => false

/-- The name of the block that the tag opens, which the closing tag has to repeat. -/
def blockName? (t : Tag) : Option Text :=
  match t.kind with
  | .openBlock | .openInverse | .openDecorator => some (Text.splitHead t.inner.text).1
  | .openInvocation => (PartialName.read t.inner).toOption.map fun p => p.1.token.text
  | _ => none

end Tag

namespace Token

/-- The token neither opens nor closes a block. -/
def Level : Token → Prop
  | tag t => t.opens = false ∧ t.kind ≠ .close
  | _ => True

/-- Tokens among which every block that is opened is closed. -/
inductive Balanced : List Token → Prop
  | nil : Balanced []
  | level {t : Token} : t.Level → Balanced [t]
  | block {o c : Tag} {inner : List Token} : o.opens = true → Balanced inner → c.kind = .close →
      Balanced (tag o :: inner ++ [tag c])
  | append {a b : List Token} : Balanced a → Balanced b → Balanced (a ++ b)

/-- The tag opens a block that is open after the tokens, and no block that is opened later is. -/
def Innermost (o : Tag) (ts : List Token) : Prop :=
  o.opens = true ∧ ∃ before after, ts = before ++ tag o :: after ∧ Balanced after

/-- The blocks that are open after the tokens, the innermost first, each with its name and the offset of
its opening tag. -/
inductive Unclosed : List (Text × Nat) → List Token → Prop
  | none {ts : List Token} : Balanced ts → Unclosed [] ts
  | block {outer : List (Text × Nat)} {before after : List Token} {o : Tag} {name : Text} :
      Unclosed outer before → o.opens = true → o.blockName? = some name → Balanced after →
      Unclosed ((name, o.whole.start) :: outer) (before ++ tag o :: after)

theorem Unclosed.append {opened : List (Text × Nat)} {ts b : List Token} (h : Unclosed opened ts)
    (hb : Balanced b) : Unclosed opened (ts ++ b) := by
  cases h with
  | none hts => exact .none (hts.append hb)
  | block houter ho hname hafter =>
    rw [List.append_assoc, List.cons_append]
    exact .block houter ho hname (hafter.append hb)

/-- A closing tag closes the innermost open block. -/
theorem Unclosed.close {b : Text × Nat} {outer : List (Text × Nat)} {ts : List Token} {c : Tag}
    (h : Unclosed (b :: outer) ts) (hc : c.kind = .close) : Unclosed outer (ts ++ [tag c]) := by
  cases h with
  | block houter ho hname hafter =>
    rw [List.append_assoc]
    exact houter.append (.block ho hafter hc)

theorem Unclosed.innermost {name : Text} {i : Nat} {outer : List (Text × Nat)} {ts : List Token}
    (h : Unclosed ((name, i) :: outer) ts) :
    ∃ o : Tag, Innermost o ts ∧ o.blockName? = some name ∧ o.whole.start = i := by
  cases h with
  | block _ ho hname hafter => exact ⟨_, ⟨ho, _, _, rfl, hafter⟩, hname, rfl⟩

end Token

/-! ## The parser -/

namespace Parser

variable {p q : Parser} {t : Tag} {fault : SyntaxFault} {e : SyntaxError}

/-- The names of the open blocks and the offsets of their opening tags, the innermost first. -/
def opened (p : Parser) : List (Text × Nat) :=
  p.stack.map fun f => (f.opener.closingName, f.openedAt)

theorem opened_push (p : Parser) (n : Node) : (p.push n).opened = p.opened := by
  refine map_stack_push (fun f n => ?_) p n
  obtain ⟨o, i, body, inverse⟩ := f
  cases inverse <;> rfl

/-- A tag leaves the open blocks alone, opens a block or closes the innermost one. -/
theorem opened_stepTag (h : p.stepTag t = .ok q) :
    ((Token.tag t).Level ∧ q.opened = p.opened) ∨
      (t.opens = true ∧
        ∃ name, t.blockName? = some name ∧ q.opened = (name, t.whole.start) :: p.opened) ∨
      (t.kind = .close ∧ ∃ b, p.opened = b :: q.opened) := by
  have level (ho : t.opens = false) (hk : t.kind ≠ .close) (n : Node) :
      (Token.tag t).Level ∧ (p.push n).opened = p.opened := ⟨⟨ho, hk⟩, opened_push p n⟩
  cases takes_of_stepTag h with
  | @leaf n hn =>
    refine .inl (level ?_ (fun hk => by simp [leaf?, hk] at hn) n)
    unfold leaf? at hn
    split at hn <;> simp_all [Tag.opens]
  | invocation hk => exact .inl (level (by simp [Tag.opens, hk]) (by simp [hk]) _)
  | @openInvocation name params hk hr =>
    exact .inr (.inl ⟨by simp [Tag.opens, hk], name.token.text,
      by simp [Tag.blockName?, hk, hr, Except.toOption], rfl⟩)
  | @openBlock inverted hk =>
    refine .inr (.inl ⟨?_, (Text.splitHead t.inner.text).1, ?_, rfl⟩)
    · cases inverted <;> simp [Tag.opens, hk]
    · cases inverted <;> simp [Tag.blockName?, hk]
  | openDecorator hk =>
    exact .inr (.inl ⟨by simp [Tag.opens, hk], _, by rw [Tag.blockName?, hk]; rfl, rfl⟩)
  | otherwise hk h =>
    refine .inl ⟨⟨by simp [Tag.opens, hk], by simp [hk]⟩, ?_⟩
    obtain ⟨f, outer, hs, rfl⟩ := otherwise_eq_ok_iff.1 h
    simp [opened, hs]
  | close hk h =>
    obtain ⟨f, outer, hs, -, rfl⟩ := close_eq_ok_iff.1 h
    exact .inr (.inr ⟨hk, (f.opener.closingName, f.openedAt), by rw [opened_push, opened, hs]; rfl⟩)

theorem unclosed_step {ts : List Token} {t : Token} (hp : Token.Unclosed p.opened ts)
    (h : p.step t = .ok q) : Token.Unclosed q.opened (ts ++ [t]) := by
  cases t with
  | text piece =>
    rw [← Except.ok.inj h, opened_push]
    exact hp.append (.level trivial)
  | raw i b =>
    rw [← Except.ok.inj h, opened_push]
    exact hp.append (.level trivial)
  | tag t =>
    rcases opened_stepTag (step_tag_eq_ok_iff.1 h) with ⟨hl, hq⟩ | ⟨ho, name, hn, hq⟩ | ⟨hc, b, hb⟩
    · rw [hq]
      exact hp.append (.level hl)
    · rw [hq]
      exact .block hp ho hn .nil
    · rw [hb] at hp
      exact hp.close hc

/-- The open blocks of a parser are those that its tokens leave open. -/
theorem unclosed_run {ts us : List Token} (hp : Token.Unclosed p.opened ts) (h : p.run us = .ok q) :
    Token.Unclosed q.opened (ts ++ us) := by
  induction us generalizing p ts with
  | nil =>
    obtain rfl := Except.ok.inj h
    rwa [List.append_nil]
  | cons t us ih =>
    obtain ⟨p', hs, hr⟩ := run_cons_eq_ok_iff.1 h
    have htail := ih (unclosed_step hp hs) hr
    rwa [List.append_assoc] at htail

theorem unclosed_start {ts : List Token} (h : start.run ts = .ok q) : Token.Unclosed q.opened ts := by
  have hnil : Token.Unclosed start.opened [] := .none .nil
  exact unclosed_run hnil h

/-- A run that fails fails at a tag, after the tokens before it have been taken. -/
theorem run_eq_error {ts : List Token} (h : p.run ts = .error e) :
    ∃ ts₁ t ts₂ q, ts = ts₁ ++ .tag t :: ts₂ ∧ p.run ts₁ = .ok q ∧ q.stepTag t = .error e.fault ∧
      t.whole.start = e.offset := by
  induction ts generalizing p with
  | nil => exact nomatch h
  | cons t ts ih =>
    rw [run] at h
    cases hs : p.step t with
    | ok p' =>
      rw [hs] at h
      obtain ⟨ts₁, t', ts₂, q, rfl, hr, ht, he⟩ := ih h
      exact ⟨t :: ts₁, t', ts₂, q, rfl, run_cons_eq_ok_iff.2 ⟨p', hs, hr⟩, ht, he⟩
    | error e' =>
      rw [hs] at h
      obtain rfl := Except.error.inj h
      cases t with
      | text => simp [step] at hs
      | raw => simp [step] at hs
      | tag t =>
        unfold step at hs
        cases ht : p.stepTag t with
        | ok p' => simp [ht] at hs
        | error fault =>
          simp only [ht, Except.error.injEq] at hs
          subst hs
          exact ⟨[], t, ts, p, rfl, rfl, ht, rfl⟩

/-- What a tag can be refused for. -/
theorem fault_stepTag (h : p.stepTag t = .error fault) :
    PartialName.read t.inner = .error fault ∨ fault = .blockWithoutHelper ∨
      (t.kind = .otherwise ∧ p.opened = [] ∧ fault = .strayElse) ∨
      (t.kind = .close ∧ p.opened = [] ∧ fault = .strayClose t.inner.text) ∨
      (t.kind = .close ∧ ∃ name i outer, p.opened = (name, i) :: outer ∧
        fault = .mismatchedClose name t.inner.text) := by
  have read {name : Except SyntaxFault (PartialName × Text)} {f : PartialName × Text → Parser}
      (hr : (do let n ← name; return f n) = .error fault) : name = .error fault := by
    cases name with
    | ok n => exact nomatch hr
    | error e => exact congrArg Except.error (Except.error.inj hr)
  have openBlock {inverted : Bool} (hb : stepTag.openBlock p t inverted = .error fault) :
      fault = .blockWithoutHelper := by
    unfold stepTag.openBlock at hb
    simp only at hb
    split at hb
    · exact (Except.error.inj hb).symm
    · simp at hb
  unfold stepTag at h
  cases hk : t.kind <;> simp only [hk] at h
  case invocation => exact .inl (read h)
  case openInvocation => exact .inl (read h)
  case openBlock => exact .inr (.inl (openBlock h))
  case openInverse => exact .inr (.inl (openBlock h))
  case otherwise =>
    unfold Parser.otherwise at h
    split at h
    · next hs => exact .inr (.inr (.inl ⟨rfl, by rw [opened, hs]; rfl, (Except.error.inj h).symm⟩))
    · simp at h
  case close =>
    unfold Parser.close at h
    split at h
    · next hs =>
      exact .inr (.inr (.inr (.inl ⟨rfl, by rw [opened, hs]; rfl, (Except.error.inj h).symm⟩)))
    · next f outer hs =>
      split at h
      · simp at h
      · refine .inr (.inr (.inr (.inr ⟨rfl, f.opener.closingName, f.openedAt,
          opened ⟨p.root, outer⟩, ?_, (Except.error.inj h).symm⟩)))
        rw [opened, hs]
        rfl
  all_goals exact nomatch h

theorem finish_eq_error (h : p.finish = .error e) :
    ∃ name outer, p.opened = (name, e.offset) :: outer ∧ e.fault = .unclosed name := by
  obtain ⟨root, stack⟩ := p
  cases stack with
  | nil => exact nomatch h
  | cons f outer =>
    obtain rfl := Except.error.inj h
    exact ⟨_, _, rfl, rfl⟩

end Parser

/-! ## Faults -/

theorem PartialName.read_fault {inner : Slice} {fault : SyntaxFault} (h : read inner = .error fault) :
    fault ∈ [.invocationWithoutName, .unbalancedName, .unterminatedName, .emptyName] := by
  have splitToken_fault {s : Text} {fault : SyntaxFault} (hs : splitToken s = .error fault) :
      fault = .unterminatedName := by
    unfold splitToken at hs
    split at hs <;> simp only at hs
    · split at hs <;> simp_all
    · split at hs <;> simp_all
    · split at hs <;> simp_all
    · simp at hs
  unfold read at h
  split at h
  · simp_all
  · split at h <;> simp_all
  · split at h
    · next hs => simp [← Except.error.inj h, splitToken_fault hs]
    · split at h <;> simp_all

namespace Token

variable {start : Nat} {s : Text} {fault : SyntaxFault} {e : SyntaxError}

/-- Only a tag or a raw block cannot be read. -/
theorem next_fault (h : next start s = .error fault) :
    (∃ r, s = open2 ++ r) ∧
      fault ∈ [.rawBlock, .unterminatedComment, .unterminatedTriple, .unterminatedTag] := by
  unfold next at h
  split at h
  · simp at h
  · next r hr =>
    refine ⟨⟨r, Text.after?_eq hr⟩, ?_⟩
    split at h
    · split at h <;> simp_all
    · split at h
      · next hread =>
        obtain rfl := Except.error.inj h
        have hform := Tag.read_form start r
        rw [hread] at hform
        generalize hx : (Except.error _ : Except SyntaxFault (Tag × Text)) = x at hform
        cases hform with
        | comment =>
          unfold Tag.readComment at hx
          split at hx <;> simp_all
        | triple =>
          unfold Tag.readTriple at hx
          split at hx <;> simp_all
        | plain =>
          unfold Tag.readPlain at hx
          split at hx <;> simp_all
      · simp at h

theorem stream_eq_error (h : stream start s = .error e) :
    ∃ before rest, s = before ++ rest ∧ e.offset = start + Text.size before ∧
      next e.offset rest = .error e.fault := by
  induction hn : s.length using Nat.strong_induction_on generalizing start s with
  | _ n ih =>
    by_cases hs : s = []
    · subst hs
      rw [stream_nil] at h
      exact nomatch h
    · cases hnext : next start s with
      | error fault =>
        rw [stream_of_fault hs hnext] at h
        obtain rfl := Except.error.inj h
        exact ⟨[], s, rfl, rfl, hnext⟩
      | ok p =>
        obtain ⟨t, rest⟩ := p
        rw [stream_of_next hs hnext] at h
        obtain ⟨hstart, hwhole⟩ := next_eq hnext
        obtain ⟨before, rest', rfl, hsize, hfault⟩ :=
          ih rest.length (hn ▸ next_rest_length hs hnext) (Except.map_eq_error_iff.1 h) rfl
        refine ⟨t.whole.text ++ before, rest', by rw [← hwhole, List.append_assoc], ?_, hfault⟩
        rw [hsize, Slice.stop, hstart, Text.size_append, Nat.add_assoc]

end Token

/-! ## Sources -/

/-- What is wrong with the tag or raw block that begins a rest of the source, the one from the offset of
an error. -/
inductive Offends (source : Text) (e : SyntaxError) (onward : Text) : Prop
  | unreadable : Token.next e.offset onward = .error e.fault → Offends source e onward
  | refused {ts₁ ts₂ : List Token} {t : Tag} {rest : Text} {p : Parser} :
      tokens source = .ok (ts₁ ++ .tag t :: ts₂) → Token.next e.offset onward = .ok (.tag t, rest) →
      Parser.start.run ts₁ = .ok p → p.stepTag t = .error e.fault → Offends source e onward
  | unclosed {ts : List Token} {o : Tag} {rest name : Text} :
      tokens source = .ok ts → Token.next e.offset onward = .ok (.tag o, rest) →
      Token.Innermost o ts → o.blockName? = some name → e.fault = .unclosed name →
      Offends source e onward

/-- Where a tag of the source stands. -/
theorem exists_onward_of_mem {source : Text} {ts : List Token} {t : Tag} (h : tokens source = .ok ts)
    (ht : .tag t ∈ ts) :
    ∃ before r rest, source = before ++ (open2 ++ r) ∧ t.whole.start = Text.size before ∧
      Token.next t.whole.start (open2 ++ r) = .ok (.tag t, rest) := by
  obtain ⟨before, after, hst⟩ := Token.exists_stands_of_mem h ht
  have hn := hst.next_eq
  obtain ⟨r, hr, -⟩ := Token.next_tag.1 hn
  rw [hr] at hn
  exact ⟨before, r, after, hr ▸ hst.source_eq, hst.start_eq, hn⟩

namespace Offends

variable {source onward name expected found : Text} {e : SyntaxError}

/-- A block that is left open is the innermost one. -/
theorem of_unclosed (h : Offends source e onward) (he : e.fault = .unclosed name) :
    ∃ ts o, tokens source = .ok ts ∧ Token.Innermost o ts ∧ o.blockName? = some name ∧
      o.whole.start = e.offset := by
  cases h with
  | unreadable hn => simpa [he] using (Token.next_fault hn).2
  | refused _ _ _ ht =>
    rw [he] at ht
    rcases Parser.fault_stepTag ht with hf | hf | ⟨-, -, hf⟩ | ⟨-, -, hf⟩ | ⟨-, _, _, _, -, hf⟩
    · simpa using PartialName.read_fault hf
    all_goals exact nomatch hf
  | @unclosed ts o rest name' hts hn ho hname hfault =>
    obtain rfl := SyntaxFault.unclosed.inj (hfault.symm.trans he)
    exact ⟨ts, o, hts, ho, hname, (Token.next_eq hn).1⟩

/-- A closing tag is refused for the innermost block that is open before it. -/
theorem of_mismatched (h : Offends source e onward) (he : e.fault = .mismatchedClose expected found) :
    ∃ ts₁ t ts₂ o, tokens source = .ok (ts₁ ++ .tag t :: ts₂) ∧ t.kind = .close ∧
      t.inner.text = found ∧ t.whole.start = e.offset ∧
      Token.Innermost o ts₁ ∧ o.blockName? = some expected := by
  cases h with
  | unreadable hn => simpa [he] using (Token.next_fault hn).2
  | @refused ts₁ ts₂ t rest p hts hn hp ht =>
    rw [he] at ht
    rcases Parser.fault_stepTag ht with hf | hf | ⟨-, -, hf⟩ | ⟨-, -, hf⟩ | ⟨hk, name, i, outer, ho, hf⟩
    · simpa using PartialName.read_fault hf
    · exact nomatch hf
    · exact nomatch hf
    · exact nomatch hf
    · obtain ⟨rfl, rfl⟩ := SyntaxFault.mismatchedClose.inj hf
      have hopen := Parser.unclosed_start hp
      rw [ho] at hopen
      obtain ⟨o, hinner, hname, -⟩ := hopen.innermost
      exact ⟨ts₁, t, ts₂, o, hts, hk, rfl, (Token.next_eq hn).1, hinner, hname⟩
  | unclosed _ _ _ _ hfault => exact nomatch hfault.symm.trans he

end Offends

/-- A source that does not parse has an offending tag or raw block where the error is. -/
theorem exists_offends {source : Text} {e : SyntaxError} (h : parse source = .error e) :
    ∃ before rest, source = before ++ (open2 ++ rest) ∧ e.offset = Text.size before ∧
      Offends source e (open2 ++ rest) := by
  cases hts : tokens source with
  | error e' =>
    rw [parse, hts] at h
    obtain rfl : e' = e := Except.error.inj h
    obtain ⟨before, rest, hs, hsize, hfault⟩ := Token.stream_eq_error hts
    obtain ⟨⟨r, rfl⟩, -⟩ := Token.next_fault hfault
    rw [Nat.zero_add] at hsize
    exact ⟨before, r, hs, hsize, .unreadable hfault⟩
  | ok ts =>
    rw [parse, hts] at h
    change Parser.start.run ts >>= Parser.finish = .error e at h
    cases hrun : Parser.start.run ts with
    | error e' =>
      rw [hrun] at h
      obtain rfl : e' = e := Except.error.inj h
      obtain ⟨ts₁, t, ts₂, q, rfl, hq, ht, hstart⟩ := Parser.run_eq_error hrun
      obtain ⟨before, r, rest, hs, hsize, hn⟩ := exists_onward_of_mem hts (t := t) (by simp)
      rw [hstart] at hsize hn
      exact ⟨before, r, hs, hsize, .refused hts hn hq ht⟩
    | ok q =>
      rw [hrun] at h
      obtain ⟨name, outer, ho, hfault⟩ := Parser.finish_eq_error h
      have hopen := Parser.unclosed_start hrun
      rw [ho] at hopen
      obtain ⟨o, hinner, hname, hstart⟩ := hopen.innermost
      have hmem : Token.tag o ∈ ts := by
        obtain ⟨-, a, b, rfl, -⟩ := hinner
        simp
      obtain ⟨before, r, rest, hs, hsize, hn⟩ := exists_onward_of_mem hts hmem
      rw [hstart] at hsize hn
      exact ⟨before, r, hs, hsize, .unclosed hts hn hinner hname hfault⟩

/-- The position of an error is that of opening braces, where the offending tag or raw block starts.  A
block that is left open is named by its opening tag, the innermost one without a closing tag; a closing
tag that does not close the innermost open block stands where the error is, and the error names that
block. -/
theorem offence_of_parse {source : Text} {e : SyntaxError} (h : parse source = .error e) :
    (∃ before rest, source = before ++ (open2 ++ rest) ∧ e.offset = Text.size before ∧
      TemplateError.ofSyntax source e = .malformed e.fault.message (Position.after before) ∧
      Offends source e (open2 ++ rest)) ∧
    (∀ name, e.fault = .unclosed name →
      ∃ ts o, tokens source = .ok ts ∧ Token.Innermost o ts ∧ o.blockName? = some name ∧
        o.whole.start = e.offset) ∧
    (∀ expected found, e.fault = .mismatchedClose expected found →
      ∃ ts₁ t ts₂ o, tokens source = .ok (ts₁ ++ .tag t :: ts₂) ∧ t.kind = .close ∧
        t.inner.text = found ∧ t.whole.start = e.offset ∧
        Token.Innermost o ts₁ ∧ o.blockName? = some expected) := by
  obtain ⟨before, rest, hs, hsize, ho⟩ := exists_offends h
  refine ⟨⟨before, rest, hs, hsize, ?_, ho⟩, fun name he => ho.of_unclosed he,
    fun expected found he => ho.of_mismatched he⟩
  rw [TemplateError.ofSyntax, hsize, hs, Position.ofOffset_size]

/-- A block that is left open in another one, and a block that is closed under the name of the one around
it. -/
theorem offence_of_parse_blocks :
    parse "{{#a}}{{#b}}".toList = .error ⟨.unclosed ['b'], 6⟩ ∧
    (∃ ts o, tokens "{{#a}}{{#b}}".toList = .ok ts ∧ Token.Innermost o ts ∧
      o.blockName? = some ['b'] ∧ o.whole.start = 6) ∧
    parse "{{#a}}{{#b}}{{/a}}".toList = .error ⟨.mismatchedClose ['b'] ['a'], 12⟩ ∧
    ∃ ts₁ t ts₂ o, tokens "{{#a}}{{#b}}{{/a}}".toList = .ok (ts₁ ++ .tag t :: ts₂) ∧ t.kind = .close ∧
      t.inner.text = ['a'] ∧ t.whole.start = 12 ∧ Token.Innermost o ts₁ ∧ o.blockName? = some ['b'] := by
  have hopen : parse "{{#a}}{{#b}}".toList = .error ⟨.unclosed ['b'], 6⟩ := by cbv
  have hclose : parse "{{#a}}{{#b}}{{/a}}".toList = .error ⟨.mismatchedClose ['b'] ['a'], 12⟩ := by cbv
  exact ⟨hopen, (offence_of_parse hopen).2.1 _ rfl, hclose, (offence_of_parse hclose).2.2 _ _ rfl⟩

end Stencil
