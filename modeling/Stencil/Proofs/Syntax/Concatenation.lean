import Stencil.Proofs.Syntax.Tag
import Stencil.Proofs.Template.Rewriting
import Stencil.TemplateError
/-!
Sources that are put one after the other.

Nothing that is read depends on where a text starts but for the places that are recorded, which are
shifted with it (`Token.next_shift`, `Parser.step_shift`).  A token that ends in closing braces ends
there whatever follows, so the tokens of a source that does not end in literal text are those of every
longer one (`Token.stream_append`).  A source that parses leaves no block open, and so the tree of what
follows it is read as if it stood alone (`parse_append`).
-/

namespace Stencil

/-! ## Places shifted -/

namespace Slice

/-- The slice in a source with `k` more bytes before it. -/
def shift (k : Nat) (s : Slice) : Slice :=
  ⟨k + s.start, s.text⟩

@[simp] theorem shift_text (k : Nat) (s : Slice) : (s.shift k).text = s.text := rfl

@[simp] theorem shift_start (k : Nat) (s : Slice) : (s.shift k).start = k + s.start := rfl

@[simp] theorem shift_stop (k : Nat) (s : Slice) : (s.shift k).stop = k + s.stop :=
  Nat.add_assoc ..

theorem trim_shift (k : Nat) (s : Slice) : (s.shift k).trim = s.trim.shift k := by
  simp [trim, shift, Nat.add_assoc]

theorem drop_shift (k n : Nat) (s : Slice) : (s.shift k).drop n = (s.drop n).shift k := by
  simp [drop, shift, Nat.add_assoc]

end Slice

def PartialName.shift (k : Nat) : PartialName → PartialName
  | fixed token => fixed (token.shift k)
  | computed expression => computed (expression.shift k)

namespace Node

mutual

/-- The node in a source with `k` more bytes before it. -/
def shift (k : Nat) : Node → Node
  | text content => text content
  | comment content => comment content
  | expression content escaped => expression content escaped
  | decorator content => decorator content
  | invocation name params => invocation (name.shift k) params
  | block helper params inverted body inverse =>
    block helper params inverted (shiftAll k body) (shiftOption k inverse)
  | blockInvocation name params close body =>
    blockInvocation (name.shift k) params (close.shift k) (shiftAll k body)
  | decoratorBlock name params body => decoratorBlock name params (shiftAll k body)
  | raw helper content whole => raw helper content (whole.shift k)

/-- A forest, shifted. -/
def shiftAll (k : Nat) : List Node → List Node
  | [] => []
  | n :: rest => shift k n :: shiftAll k rest

/-- A forest that may be absent, shifted. -/
def shiftOption (k : Nat) : Option (List Node) → Option (List Node)
  | none => none
  | some nodes => some (shiftAll k nodes)

end

theorem shiftAll_append (k : Nat) (a b : List Node) :
    shiftAll k (a ++ b) = shiftAll k a ++ shiftAll k b := by
  induction a with
  | nil => rfl
  | cons n a ih => rw [List.cons_append, shiftAll, shiftAll, ih, List.cons_append]

theorem shiftAll_getD (k : Nat) (nodes : Option (List Node)) :
    shiftAll k (nodes.getD []) = (shiftOption k nodes).getD [] := by
  cases nodes <;> rfl

end Node

def Tag.shift (k : Nat) (t : Tag) : Tag :=
  ⟨t.kind, t.inner.shift k, t.whole.shift k⟩

/-- The token in a source with `k` more bytes before it. -/
def Token.shift (k : Nat) : Token → Token
  | text piece => text (piece.shift k)
  | tag t => tag (t.shift k)
  | raw start block => raw (k + start) block

def SyntaxError.shift (k : Nat) (e : SyntaxError) : SyntaxError :=
  ⟨e.fault, k + e.offset⟩

/-! ## Tokens -/

namespace Tag

variable (k start : Nat) (lead r : Text)

theorem readComment_shift :
    readComment (k + start) lead r = (readComment start lead r).map fun p => (p.1.shift k, p.2) := by
  unfold readComment
  split
  · rfl
  · simp [Except.map, shift, Slice.shift, Nat.add_assoc]

theorem readTriple_shift :
    readTriple (k + start) lead r = (readTriple start lead r).map fun p => (p.1.shift k, p.2) := by
  have hinner (s : Text) : (⟨k + start + Text.size lead, s⟩ : Slice) =
      Slice.shift k ⟨start + Text.size lead, s⟩ := by simp [Slice.shift, Nat.add_assoc]
  unfold readTriple
  split
  · rfl
  · rw [hinner, Slice.trim_shift]
    rfl

theorem readPlain_shift :
    readPlain (k + start) lead r = (readPlain start lead r).map fun p => (p.1.shift k, p.2) := by
  have hbody (s : Text) : (⟨k + start + Text.size lead, s⟩ : Slice) =
      Slice.shift k ⟨start + Text.size lead, s⟩ := by simp [Slice.shift, Nat.add_assoc]
  unfold readPlain
  split
  · rfl
  · simp only [hbody, Slice.trim_shift, Slice.shift_text, Slice.drop_shift]
    rfl

theorem read_shift : read (k + start) r = (read start r).map fun p => (p.1.shift k, p.2) := by
  unfold read
  split
  split
  · exact readComment_shift ..
  · split
    · exact readTriple_shift ..
    · exact readPlain_shift ..

end Tag

namespace Token

variable {start : Nat} {s rest x : Text} {t : Token} {ts : List Token}

theorem shift_whole (k : Nat) (t : Token) : (t.shift k).whole = t.whole.shift k := by
  cases t <;> rfl

theorem next_shift (k start : Nat) (s : Text) :
    next (k + start) s = (next start s).map fun p => (p.1.shift k, p.2) := by
  unfold next
  split
  · rfl
  · split
    · split <;> rfl
    · rw [Tag.read_shift]
      cases Tag.read start _ <;> rfl

/-- The tokens of a source stay the same, but for their places, when the source starts elsewhere. -/
theorem stream_shift (k start : Nat) (s : Text) :
    stream (k + start) s =
      ((stream start s).map (List.map (shift k))).mapError (SyntaxError.shift k) := by
  induction hn : s.length using Nat.strong_induction_on generalizing start s with
  | _ n ih =>
    by_cases hs : s = []
    · subst hs
      rw [stream_nil, stream_nil]
      rfl
    · cases hnext : next start s with
      | error fault =>
        have hnext' := next_shift k start s
        rw [hnext] at hnext'
        rw [stream_of_fault hs hnext, stream_of_fault hs hnext']
        rfl
      | ok p =>
        obtain ⟨t, rest⟩ := p
        have hnext' := next_shift k start s
        rw [hnext] at hnext'
        have hlen := next_rest_length hs hnext
        rw [stream_of_next hs hnext, stream_of_next hs hnext', shift_whole, Slice.shift_stop,
          ih rest.length (hn ▸ hlen) _ rest rfl]
        cases stream t.whole.stop rest <;> rfl

/-- A token that is followed by another one is read in every longer text. -/
theorem next_append_right (h : next start s = .ok (t, rest)) (ht : ∀ p, t = .text p → rest ≠ [])
    (x : Text) : next start (s ++ x) = .ok (t, rest ++ x) := by
  have hs := (next_eq h).2
  have helse {y : Text} (hy : ∃ z, y = rest ++ z) :
      next start (t.whole.text ++ y) = .ok (t.moved start, y) := by
    refine next_elsewhere h start fun p hp => ?_
    obtain ⟨z, rfl⟩ := hy
    obtain ⟨-, -, hr⟩ := next_text (hp ▸ h)
    obtain ⟨w, hw⟩ := (literal_rest s).resolve_left (hr ▸ ht p hp)
    exact .inr ⟨⟨w, hr.trans hw⟩, w ++ z, by rw [hr, hw, List.append_assoc]⟩
  have hmoved : t.moved start = t := by
    have hself := helse ⟨[], (List.append_nil rest).symm⟩
    rw [hs, h] at hself
    exact (Prod.mk.inj (Except.ok.inj hself)).1.symm
  have hlonger := helse ⟨x, rfl⟩
  rwa [← List.append_assoc, hs, hmoved] at hlonger

/-- The tokens of a source that does not end in literal text are the first of every longer source. -/
theorem stream_append (h : stream start s = .ok ts) (hlast : ∀ p, ts.getLast? ≠ some (.text p)) (x : Text) :
    stream start (s ++ x) = (stream (start + Text.size s) x).map (ts ++ ·) := by
  induction ts generalizing start s with
  | nil =>
    obtain ⟨rfl, -⟩ | ⟨-, _, _, _, he, -⟩ := stream_eq_ok h
    · cases hx : stream start x <;> simp [hx, Except.map]
    · exact nomatch he
  | cons t ts ih =>
    obtain ⟨hs, rest, hn, hrest⟩ := stream_cons_eq_ok h
    obtain ⟨hstart, hwhole⟩ := next_eq hn
    -- a piece of text at the end of the source would be the last token
    have ht (p : Slice) (hp : t = .text p) : rest ≠ [] := by
      rintro rfl
      obtain rfl : ts = [] := Except.ok.inj (hrest.symm.trans (stream_nil _))
      exact hlast p (by rw [hp]; rfl)
    have hlast' (p : Slice) : ts.getLast? ≠ some (.text p) := by
      intro hp
      refine hlast p ?_
      rw [List.getLast?_cons, hp]
      rfl
    have hsize : t.whole.stop + Text.size rest = start + Text.size s := by
      rw [Slice.stop, hstart, ← hwhole, Text.size_append, Nat.add_assoc]
    rw [stream_of_next (by simp [hs]) (next_append_right hn ht x), ih hrest hlast', hsize]
    cases stream (start + Text.size s) x <;> rfl

end Token

/-! ## The parser -/

def Opener.shift (k : Nat) : Opener → Opener
  | .block helper params inverted => .block helper params inverted
  | .invocation name params => .invocation (name.shift k) params
  | .decorator name params => .decorator name params

namespace PartialName

theorem read_shift (k : Nat) (inner : Slice) :
    read (inner.shift k) = (read inner).map fun p => (p.1.shift k, p.2) := by
  unfold read
  rw [Slice.shift_text]
  split
  · rfl
  · split <;> rfl
  · split
    · rfl
    · split <;> rfl

end PartialName

namespace Opener

variable (k : Nat) (o : Opener)

@[simp] theorem shift_closingName : (o.shift k).closingName = o.closingName := by
  cases o with
  | invocation name => cases name <;> rfl
  | _ => rfl

@[simp] theorem shift_closedBy (found : Text) : (o.shift k).closedBy found = o.closedBy found := by
  cases o with
  | invocation name => cases name <;> rfl
  | _ => rfl

end Opener

namespace Frame

def shift (k : Nat) (f : Frame) : Frame :=
  ⟨f.opener.shift k, k + f.openedAt, Node.shiftAll k f.body, Node.shiftOption k f.inverse⟩

theorem push_shift (k : Nat) (f : Frame) (n : Node) :
    (f.shift k).push (n.shift k) = (f.push n).shift k := by
  obtain ⟨o, i, body, inverse⟩ := f
  cases inverse <;> simp [push, shift, Node.shiftOption, Node.shiftAll_append, Node.shiftAll]

theorem toNode_shift (k : Nat) (f : Frame) (close : Slice) :
    (f.shift k).toNode (close.shift k) = (f.toNode close).shift k := by
  obtain ⟨o, i, body, inverse⟩ := f
  cases o <;>
    simp [toNode, shift, Opener.shift, Node.shift, Node.shiftAll_append, Node.shiftAll_getD]

end Frame

namespace Parser

/-- The parser that has read what `p` has read, with `k` more bytes before it, after a source with the
tree `nodes`. -/
def behind (nodes : List Node) (k : Nat) (p : Parser) : Parser :=
  ⟨nodes ++ Node.shiftAll k p.root, p.stack.map (Frame.shift k)⟩

variable (nodes : List Node) (k : Nat) (p : Parser)

theorem push_behind (n : Node) : (p.behind nodes k).push (n.shift k) = (p.push n).behind nodes k := by
  obtain ⟨root, stack⟩ := p
  cases stack with
  | nil => simp [push, behind, Node.shiftAll_append, Node.shiftAll]
  | cons f outer => simp [push, behind, Frame.push_shift]

theorem otherwise_behind :
    (p.behind nodes k).otherwise = p.otherwise.map (behind nodes k) := by
  obtain ⟨root, stack⟩ := p
  cases stack with
  | nil => rfl
  | cons f outer =>
    simp [otherwise, behind, Except.map, Frame.shift, Node.shiftOption, Node.shiftAll_getD]

theorem close_behind (inner : Slice) :
    (p.behind nodes k).close (inner.shift k) = (p.close inner).map (behind nodes k) := by
  obtain ⟨root, stack⟩ := p
  cases stack with
  | nil => rfl
  | cons f outer =>
    have hopener : (f.shift k).opener = f.opener.shift k := rfl
    have hpush := push_behind nodes k ⟨root, outer⟩ (f.toNode inner)
    simp only [close, behind, List.map_cons, hopener, Opener.shift_closedBy, Slice.shift_text,
      Opener.shift_closingName, Frame.toNode_shift] at hpush ⊢
    split
    · exact congrArg Except.ok hpush
    · rfl

theorem openBlock_behind (t : Tag) (inverted : Bool) :
    stepTag.openBlock (p.behind nodes k) (t.shift k) inverted =
      (stepTag.openBlock p t inverted).map (behind nodes k) := by
  unfold stepTag.openBlock
  simp only [Tag.shift, Slice.shift_text]
  by_cases hempty : (Text.splitHead t.inner.text).1.isEmpty = true
  · simp only [hempty, if_true]
    rfl
  · simp only [hempty]
    rfl

/-- A tag is taken in the same way after another source. -/
theorem stepTag_behind (t : Tag) :
    (p.behind nodes k).stepTag (t.shift k) = (p.stepTag t).map (behind nodes k) := by
  have push (n : Node) : (Except.ok ((p.behind nodes k).push (n.shift k)) : Except SyntaxFault Parser) =
      (Except.ok (p.push n)).map (behind nodes k) := by
    rw [push_behind]
    rfl
  have hkind : (t.shift k).kind = t.kind := rfl
  have hinner : (t.shift k).inner = t.inner.shift k := rfl
  unfold stepTag
  rw [hkind, hinner, PartialName.read_shift]
  cases hk : t.kind with
  | invocation =>
    cases hr : PartialName.read t.inner with
    | error fault => rfl
    | ok name => exact push (.invocation name.1 name.2)
  | openInvocation => cases hr : PartialName.read t.inner <;> rfl
  | openBlock => exact openBlock_behind ..
  | openInverse => exact openBlock_behind ..
  | openDecorator => rfl
  | otherwise => exact otherwise_behind ..
  | close => exact close_behind ..
  | comment => exact push (.comment _)
  | expression => exact push (.expression _ true)
  | unescaped => exact push (.expression _ false)
  | decorator => exact push (.decorator _)

theorem step_shift (t : Token) :
    (p.behind nodes k).step (t.shift k) =
      ((p.step t).map (behind nodes k)).mapError (SyntaxError.shift k) := by
  cases t with
  | text piece => exact congrArg Except.ok (push_behind nodes k p (.text piece.text))
  | raw i b =>
    exact congrArg Except.ok (push_behind nodes k p (.raw b.helper b.content ⟨i, b.written⟩))
  | tag t =>
    unfold step
    simp only [Token.shift, stepTag_behind]
    cases p.stepTag t <;> rfl

theorem run_shift (ts : List Token) :
    (p.behind nodes k).run (ts.map (Token.shift k)) =
      ((p.run ts).map (behind nodes k)).mapError (SyntaxError.shift k) := by
  induction ts generalizing p with
  | nil => rfl
  | cons t ts ih =>
    rw [List.map_cons, run, run, step_shift]
    cases p.step t with
    | error e => rfl
    | ok q => exact ih q

theorem finish_behind :
    (p.behind nodes k).finish =
      (p.finish.map fun more => nodes ++ Node.shiftAll k more).mapError (SyntaxError.shift k) := by
  obtain ⟨root, stack⟩ := p
  cases stack with
  | nil => rfl
  | cons f outer =>
    have hname := Opener.shift_closingName k f.opener
    simp [finish, behind, Except.map, Except.mapError, SyntaxError.shift, Frame.shift]

end Parser

/-! ## Sources -/

/-- The last token of the source, if it has one, is a tag or a raw block. -/
def EndsInTag (source : Text) : Prop :=
  ∃ ts, tokens source = .ok ts ∧ ∀ piece, ts.getLast? ≠ some (.text piece)

/-- The tokens of a source that follows one that does not end in literal text. -/
theorem tokens_append {s₁ : Text} {ts : List Token} (h : tokens s₁ = .ok ts)
    (hlast : ∀ piece, ts.getLast? ≠ some (.text piece)) (s₂ : Text) :
    tokens (s₁ ++ s₂) =
      ((tokens s₂).map fun us => ts ++ us.map (Token.shift (Text.size s₁))).mapError
        (SyntaxError.shift (Text.size s₁)) := by
  have hshift := Token.stream_shift (Text.size s₁) 0 s₂
  rw [tokens, Token.stream_append h hlast, Nat.zero_add, ← Nat.add_zero (Text.size s₁), hshift,
    Nat.add_zero, tokens]
  cases Token.stream 0 s₂ <;> rfl

/-- At the end of a source that parses the parser has the tree and no open block. -/
theorem Parser.eq_of_finish {q : Parser} {nodes : List Node} (h : q.finish = .ok nodes) (k : Nat) :
    q = Parser.start.behind nodes k := by
  rw [finish_eq_ok_iff.1 h]
  simp [behind, start, Node.shiftAll]

/-- A source that follows one that parses and does not end in literal text parses as it does alone: it
adds its tree, or fails with its fault, with all places shifted by what stands before it. -/
theorem parse_append {s₁ s₂ : Text} {nodes : List Node} (h : parse s₁ = .ok nodes)
    (hend : EndsInTag s₁) :
    parse (s₁ ++ s₂) =
        ((parse s₂).map fun more => nodes ++ Node.shiftAll (Text.size s₁) more).mapError
          (SyntaxError.shift (Text.size s₁)) ∧
      ∀ e, parse s₂ = .error e →
        (parse (s₁ ++ s₂)).mapError (TemplateError.ofSyntax (s₁ ++ s₂)) =
          .error (.malformed e.fault.message
            (Position.ofOffset (s₁ ++ s₂) (Text.size s₁ + e.offset))) := by
  have hparse : parse (s₁ ++ s₂) =
      ((parse s₂).map fun more => nodes ++ Node.shiftAll (Text.size s₁) more).mapError
        (SyntaxError.shift (Text.size s₁)) := by
    obtain ⟨ts, hts, hlast⟩ := hend
    obtain ⟨_, hts', h⟩ := Except.bind_eq_ok_iff.1 h
    obtain rfl := Except.ok.inj (hts.symm.trans hts')
    obtain ⟨q, hrun, hfinish⟩ := Except.bind_eq_ok_iff.1 h
    have hq := Parser.eq_of_finish hfinish (Text.size s₁)
    unfold parse
    rw [tokens_append hts hlast]
    cases tokens s₂ with
    | error e => rfl
    | ok us =>
      change Parser.start.run (ts ++ us.map (Token.shift (Text.size s₁))) >>= Parser.finish =
        ((Parser.start.run us >>= Parser.finish).map _).mapError _
      rw [Parser.run_append, hrun, hq]
      change (Parser.start.behind nodes (Text.size s₁)).run (us.map (Token.shift (Text.size s₁))) >>=
        Parser.finish = _
      rw [Parser.run_shift]
      cases Parser.start.run us with
      | error e => rfl
      | ok p => exact Parser.finish_behind nodes (Text.size s₁) p
  refine ⟨hparse, fun e he => ?_⟩
  rw [hparse, he]
  rfl

/-- A block, and an invocation after it or a closing tag without a block. -/
theorem parse_append_block :
    (parse "{{#a}}x{{/a}}".toList =
        .ok [.block ['a'] [] false [.text ['x']] none] ∧
      EndsInTag "{{#a}}x{{/a}}".toList) ∧
    parse ("{{#a}}x{{/a}}".toList ++ "é{{> y}}".toList) =
      .ok [.block ['a'] [] false [.text ['x']] none, .text ['é'],
        .invocation (.fixed ⟨19, ['y']⟩) []] ∧
    parse ("{{#a}}x{{/a}}".toList ++ "é{{/y}}".toList) = .error ⟨.strayClose ['y'], 15⟩ := by
  have hparse : parse "{{#a}}x{{/a}}".toList =
      .ok [.block ['a'] [] false [.text ['x']] none] := by cbv
  have hend : EndsInTag "{{#a}}x{{/a}}".toList :=
    ⟨[.tag ⟨.openBlock, ⟨3, ['a']⟩, ⟨0, "{{#a}}".toList⟩⟩, .text ⟨6, ['x']⟩,
      .tag ⟨.close, ⟨10, ['a']⟩, ⟨7, "{{/a}}".toList⟩⟩], by cbv, fun piece => by simp⟩
  refine ⟨⟨hparse, hend⟩, ?_, ?_⟩
  · refine (parse_append hparse hend).1.trans ?_
    cbv
  · refine (parse_append hparse hend).1.trans ?_
    cbv

end Stencil
