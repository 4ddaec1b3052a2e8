import Stencil.Proofs.Template.Names
/-!
Trees with other names, and the parser on the way to them.

A `Rewriting` says what becomes of the names and raw blocks of a tree; `unplaced` only forgets where
they stand.  Two parsers match under a rewriting when the nodes that the second has read
are those of the first, rewritten (`Parser.Matches`), and what one step does keeps them matching.  What
follows the `else` of an inline definition is not part of the tree and is left as it is.
-/

namespace Stencil

/-! ## Trees -/

/-- What becomes of the parts of a tree that have a place in the source. -/
structure Rewriting where
  name : PartialName → PartialName
  raw : Text → Text → Slice → Node

namespace Node

mutual

/-- The node with its names and raw blocks rewritten; of a closing tag nothing is kept. -/
def rewrite (g : Rewriting) : Node → Node
  | text content => text content
  | comment content => comment content
  | expression content escaped => expression content escaped
  | decorator content => decorator content
  | invocation name params => invocation (g.name name) params
  | block helper params inverted body inverse =>
    block helper params inverted (rewriteAll g body) (rewriteOption g inverse)
  | blockInvocation name params _ body =>
    blockInvocation (g.name name) params ⟨0, []⟩ (rewriteAll g body)
  | decoratorBlock name params body => decoratorBlock name params (rewriteAll g body)
  | raw helper content whole => g.raw helper content whole

/-- A forest, rewritten. -/
def rewriteAll (g : Rewriting) : List Node → List Node
  | [] => []
  | n :: rest => rewrite g n :: rewriteAll g rest

/-- A forest that may be absent, rewritten. -/
def rewriteOption (g : Rewriting) : Option (List Node) → Option (List Node)
  | none => none
  | some nodes => some (rewriteAll g nodes)

end

variable {g : Rewriting}

theorem rewriteAll_eq (nodes : List Node) : rewriteAll g nodes = nodes.map (rewrite g) := by
  induction nodes with
  | nil => rfl
  | cons n rest ih => rw [rewriteAll, ih, List.map_cons]

theorem rewriteAll_append (a b : List Node) :
    rewriteAll g (a ++ b) = rewriteAll g a ++ rewriteAll g b := by
  simp [rewriteAll_eq]

theorem rewriteAll_getD (nodes : Option (List Node)) :
    rewriteAll g (nodes.getD []) = (rewriteOption g nodes).getD [] := by
  cases nodes <;> rfl

end Node

namespace Rewriting

/-- Places are forgotten. -/
def unplaced : Rewriting where
  name := PartialName.moved 0
  raw helper content _ := .raw helper content ⟨0, []⟩

/-- Free names become registry names, lone dots in computed names are spelled out, and a raw block
becomes an expression that calls the literal helper with its content.  Places are forgotten. -/
def lowered (declared : List Text) (key : Text → Text) : Rewriting where
  name n := (n.lowered declared key).moved 0
  raw _ content _ := .expression
    (Lowering.literalHelper ++ " \"".toList ++ Text.Hex.encode (Text.utf8 content) ++ ['"']) true

end Rewriting

/-! ## Sections that are dropped -/

namespace Frame

def isDecorator (f : Frame) : Bool :=
  match f.opener with
  | .decorator _ _ => true
  | _ => false

/-- The frame reads the inverse section of an inline definition. -/
def drops (f : Frame) : Bool :=
  f.isDecorator && f.inverse.isSome

end Frame

/-- Nothing that is read next will be dropped from the tree. -/
def keeps (stack : List Frame) : Bool :=
  stack.all fun f => !f.drops

@[simp] theorem keeps_nil : keeps [] = true := rfl

@[simp] theorem keeps_cons (f : Frame) (outer : List Frame) :
    keeps (f :: outer) = (!f.drops && keeps outer) := rfl

/-- The rewriting of what is read next. -/
def Rewriting.under (g : Rewriting) (stack : List Frame) : Rewriting :=
  if keeps stack then g else unplaced

theorem Rewriting.under_cons (g : Rewriting) (f : Frame) (outer : List Frame) :
    g.under (f :: outer) = if f.drops then unplaced else g.under outer := by
  unfold under
  cases hf : f.drops <;> simp [hf]

/-! ## Parsers that match -/

/-- What opened the block, rewritten. -/
def Opener.rewrite (g : Rewriting) : Opener → Opener
  | .invocation name params => .invocation (g.name name) params
  | o => o

theorem Opener.eq_of_rewrite {g g' : Rewriting} {o o' : Opener} (h : o'.rewrite g' = o.rewrite g)
    (ho : ∀ name params, o ≠ .invocation name params) : o' = o := by
  cases o with
  | invocation name params => exact absurd rfl (ho name params)
  | _ =>
    cases o' with
    | invocation => cases h
    | _ => exact h

theorem Opener.eq_of_rewrite_invocation {g g' : Rewriting} {o' : Opener} {name : PartialName}
    {params : Text} (h : o'.rewrite g' = Opener.rewrite g (.invocation name params)) :
    ∃ name', o' = .invocation name' params ∧ g'.name name' = g.name name := by
  cases o' with
  | invocation name' params' =>
    obtain ⟨hname, rfl⟩ := Opener.invocation.inj h
    exact ⟨name', rfl, hname⟩
  | _ => cases h

open Node Rewriting

/-- The second frame is the first, rewritten. -/
structure Frame.Matches (g : Rewriting) (f f' : Frame) : Prop where
  opener : f'.opener.rewrite unplaced = f.opener.rewrite g
  body : rewriteAll unplaced f'.body = rewriteAll g f.body
  inverse : rewriteOption unplaced f'.inverse =
    rewriteOption (if f.isDecorator then unplaced else g) f.inverse

/-- Which inverse section a frame has tells how it was opened. -/
theorem Frame.Matches.push {g : Rewriting} {f f' : Frame} (h : Frame.Matches g f f') {n n' : Node}
    (hn : Node.rewrite unplaced n' = Node.rewrite (if f.drops then unplaced else g) n) :
    Frame.Matches g (f.push n) (f'.push n') := by
  obtain ⟨o, i, body, inverse⟩ := f
  obtain ⟨o', i', body', inverse'⟩ := f'
  obtain ⟨ho, hb, hi⟩ := h
  simp only at ho hb hi
  cases inverse with
  | none =>
    cases inverse' with
    | some _ => exact nomatch hi
    | none =>
      refine ⟨ho, ?_, hi⟩
      simp only [Frame.drops, Option.isSome_none, Bool.and_false, Bool.false_eq_true, if_false] at hn
      simp only [Frame.push, rewriteAll_append, hb, rewriteAll, hn]
  | some nodes =>
    cases inverse' with
    | none => exact nomatch hi
    | some nodes' =>
      refine ⟨ho, hb, ?_⟩
      simp only [Frame.drops, Option.isSome_some, Bool.and_true] at hn
      simp only [rewriteOption, Option.some.injEq] at hi
      simp only [Frame.push, rewriteOption, rewriteAll_append, hi, rewriteAll, hn]
      rfl

theorem Frame.Matches.toNode {g : Rewriting} {f f' : Frame} (h : Frame.Matches g f f')
    (close close' : Slice) :
    Node.rewrite unplaced (f'.toNode close') = Node.rewrite g (f.toNode close) := by
  obtain ⟨o, i, body, inverse⟩ := f
  obtain ⟨o', i', body', inverse'⟩ := f'
  obtain ⟨ho, hb, hi⟩ := h
  simp only at ho hb hi
  cases o with
  | block helper params inverted =>
    cases o' with
    | block =>
      cases ho
      simp only [Frame.toNode, Node.rewrite, hb, hi]
      rfl
    | _ => exact nomatch ho
  | invocation name params =>
    cases o' with
    | invocation =>
      simp only [Opener.rewrite, Opener.invocation.injEq] at ho
      simp only [Frame.toNode, Node.rewrite, rewriteAll_append, rewriteAll_getD, hb, hi, ho]
      rfl
    | _ => exact nomatch ho
  | decorator name params =>
    cases o' with
    | decorator =>
      cases ho
      simp only [Frame.toNode, Node.rewrite, hb]
    | _ => exact nomatch ho

/-- The second stack is the first, each frame rewritten as what it stands in. -/
inductive Stacks (g : Rewriting) : List Frame → List Frame → Prop
  | nil : Stacks g [] []
  | cons {f f' : Frame} {outer outer' : List Frame} : Frame.Matches (g.under outer) f f' →
      Stacks g outer outer' → Stacks g (f :: outer) (f' :: outer')

namespace Parser

/-- The second parser has read what the first has, rewritten. -/
structure Matches (g : Rewriting) (p p' : Parser) : Prop where
  root : rewriteAll unplaced p'.root = rewriteAll g p.root
  stack : Stacks g p.stack p'.stack

variable {g : Rewriting} {p p' q : Parser}

theorem matches_start : Matches g start start :=
  ⟨rfl, .nil⟩

theorem Matches.push (h : Matches g p p') {n n' : Node}
    (hn : rewrite unplaced n' = rewrite (g.under p.stack) n) :
    Matches g (p.push n) (p'.push n') := by
  obtain ⟨root, stack⟩ := p
  obtain ⟨root', stack'⟩ := p'
  obtain ⟨hroot, hstack⟩ := h
  cases hstack with
  | nil =>
    refine ⟨?_, .nil⟩
    simp only at hroot
    simp only [Parser.push, rewriteAll_append, hroot, rewriteAll, hn]
    rfl
  | @cons f f' outer outer' hf ho =>
    exact ⟨hroot, .cons (hf.push (under_cons g f outer ▸ hn)) ho⟩

theorem Matches.enter (h : Matches g p p') {o o' : Opener}
    (ho : o'.rewrite unplaced = o.rewrite (g.under p.stack))
    (i i' : Nat) : Matches g (p.enter o i) (p'.enter o' i') :=
  ⟨h.root, .cons ⟨ho, rfl, rfl⟩ h.stack⟩

theorem Matches.otherwise (h : Matches g p p') (hp : p.otherwise = .ok q) :
    ∃ q', p'.otherwise = .ok q' ∧ Matches g q q' := by
  obtain ⟨root, stack⟩ := p
  obtain ⟨root', stack'⟩ := p'
  obtain ⟨hroot, hstack⟩ := h
  cases hstack with
  | nil => exact nomatch hp
  | @cons f f' outer outer' hf ho =>
    obtain rfl := Except.ok.inj hp
    refine ⟨_, rfl, hroot, .cons ⟨hf.opener, hf.body, ?_⟩ ho⟩
    simp only [rewriteOption, rewriteAll_getD, hf.inverse]
    rfl

/-- The closing tags may differ, but each has to close its block. -/
theorem Matches.close (h : Matches g p p') {inner inner' : Slice} (hp : p.close inner = .ok q)
    (hclose : ∀ f f', p.stack.head? = some f → Frame.Matches (g.under p.stack.tail) f f' →
      f.opener.closedBy inner.text = true → f'.opener.closedBy inner'.text = true) :
    ∃ q', p'.close inner' = .ok q' ∧ Matches g q q' := by
  obtain ⟨root, stack⟩ := p
  obtain ⟨root', stack'⟩ := p'
  obtain ⟨hroot, hstack⟩ := h
  cases hstack with
  | nil => exact nomatch hp
  | @cons f f' outer outer' hf ho =>
    unfold Parser.close at hp
    simp only at hp
    split at hp
    · next hc =>
      obtain rfl := Except.ok.inj hp
      have hrest : Matches g ⟨root, outer⟩ ⟨root', outer'⟩ := ⟨hroot, ho⟩
      exact ⟨_, if_pos (hclose f f' rfl hf hc), hrest.push (hf.toNode inner inner')⟩
    · simp at hp

theorem step_tag_eq_ok_iff {t : Tag} : p.step (.tag t) = .ok q ↔ p.stepTag t = .ok q := by
  unfold Parser.step
  cases h : p.stepTag t <;> simp [h]

/-! ## Open invocations -/

/-- The name of each open invocation has a character between its marks. -/
def Named (stack : List Frame) : Prop :=
  ∀ o ∈ stack.map Frame.opener, ∀ name params, o = .invocation name params → unquote name.token.text ≠ []

/-- What a frame has besides its nodes stays when a node is added. -/
theorem map_stack_push {β : Type} {g : Frame → β} (hg : ∀ f n, g (Frame.push f n) = g f) (p : Parser)
    (n : Node) : (p.push n).stack.map g = p.stack.map g := by
  obtain ⟨root, stack⟩ := p
  cases stack with
  | nil => rfl
  | cons f outer => rw [push, List.map_cons, hg, List.map_cons]

theorem openers_push (p : Parser) (n : Node) :
    (p.push n).stack.map Frame.opener = p.stack.map Frame.opener := by
  refine map_stack_push (fun f n => ?_) p n
  obtain ⟨o, i, body, inverse⟩ := f
  cases inverse <;> rfl

/-- A step opens at most one block. -/
theorem openers_stepTag {t : Tag} (h : p.stepTag t = .ok q) :
    q.stack.map Frame.opener = p.stack.map Frame.opener ∨
      q.stack.map Frame.opener = (p.stack.map Frame.opener).tail ∨
      ∃ o, q.stack.map Frame.opener = o :: p.stack.map Frame.opener ∧
        ∀ name params, o = .invocation name params → PartialName.read t.inner = .ok (name, params) := by
  cases takes_of_stepTag h with
  | leaf => exact .inl (openers_push p _)
  | invocation => exact .inl (openers_push p _)
  | openInvocation _ hr =>
    exact .inr (.inr ⟨_, rfl, fun _ _ ho => by obtain ⟨rfl, rfl⟩ := Opener.invocation.inj ho; exact hr⟩)
  | openBlock => exact .inr (.inr ⟨_, rfl, fun _ _ ho => nomatch ho⟩)
  | openDecorator => exact .inr (.inr ⟨_, rfl, fun _ _ ho => nomatch ho⟩)
  | otherwise _ h =>
    obtain ⟨f, outer, hs, rfl⟩ := otherwise_eq_ok_iff.1 h
    exact .inl (by rw [hs]; rfl)
  | close _ h =>
    obtain ⟨f, outer, hs, -, rfl⟩ := close_eq_ok_iff.1 h
    exact .inr (.inl (by rw [openers_push, hs]; rfl))

theorem named_step {t : Token} (h : p.step t = .ok q) (hp : Named p.stack) : Named q.stack := by
  cases t with
  | text s =>
    rw [Named, ← Except.ok.inj h, openers_push]
    exact hp
  | raw i b =>
    rw [Named, ← Except.ok.inj h, openers_push]
    exact hp
  | tag t =>
    rcases openers_stepTag (step_tag_eq_ok_iff.1 h) with hs | hs | ⟨o, hs, ho⟩
    · rw [Named, hs]
      exact hp
    · rw [Named, hs]
      exact fun o ho => hp o (List.mem_of_mem_tail ho)
    · rw [Named, hs]
      intro o' ho' name params hn
      rcases List.mem_cons.1 ho' with rfl | ho'
      · obtain ⟨rest, hr, -⟩ := PartialName.read_eq_ok_iff.1 (ho name params hn)
        exact hr.unquote_ne_nil
      · exact hp o' ho' name params hn

theorem Matches.finish (h : Matches g p p') {nodes : List Node} (hp : p.finish = .ok nodes) :
    ∃ nodes', p'.finish = .ok nodes' ∧ rewriteAll unplaced nodes' = rewriteAll g nodes := by
  obtain ⟨root, stack⟩ := p
  obtain ⟨root', stack'⟩ := p'
  obtain ⟨hroot, hstack⟩ := h
  cases hstack with
  | nil =>
    obtain rfl := Except.ok.inj hp
    exact ⟨root', rfl, hroot⟩
  | cons => exact nomatch hp

end Parser

end Stencil
