import Mathlib
import Stencil.Proofs.Template.Harvest
/-!
The invocations of a source and those of its tree.

The tree leaves out what follows the `else` of a decorator block.  Every other invocation among the
tokens is visited by the walk over the tree, in the order of the source and once
(`invocations_parse`); one that is left out is lost (`invocations_parse_overlooked`).
-/

namespace Stencil

/-- The invocation of a partial: its name, and whether a body belongs to it. -/
structure Invocation where
  name : PartialName
  hasBody : Bool
  deriving DecidableEq, Repr

namespace Node

def invocation? : Node → Option Invocation
  | invocation name _ => some ⟨name, false⟩
  | blockInvocation name _ _ _ => some ⟨name, true⟩
  | _ => none

/-- The invocations that the walk over a forest visits. -/
def invocations (nodes : List Node) : List Invocation :=
  (walk nodes).filterMap invocation?

theorem invocations_append (a b : List Node) :
    invocations (a ++ b) = invocations a ++ invocations b := by
  rw [invocations, Harvest.walk_append, List.filterMap_append]
  rfl

theorem invocations_singleton (n : Node) :
    invocations [n] = n.invocation?.toList ++ (descendants n).filterMap invocation? := by
  rw [invocations, walk, walk, List.append_nil, List.filterMap_cons]
  cases n.invocation? <;> rfl

end Node

/-! ## Sections of blocks -/

/-- A section of an open block: whether the block is a decorator block, and whether its `else` has been
read. -/
structure BlockSection where
  decorator : Bool
  inverse : Bool
  deriving DecidableEq, Repr

namespace BlockSection

/-- Whether the section is left out of the tree. -/
def dropped (s : BlockSection) : Bool :=
  s.decorator && s.inverse

/-- The sections after a tag, the innermost first. -/
def after (sections : List BlockSection) (t : Tag) : List BlockSection :=
  match t.kind with
  | .openBlock | .openInverse | .openInvocation => ⟨false, false⟩ :: sections
  | .openDecorator => ⟨true, false⟩ :: sections
  | .otherwise => sections.modifyHead fun s => { s with inverse := true }
  | .close => sections.tail
  | _ => sections

end BlockSection

/-- A tag that invokes a partial: the sections in which it stands, and the invocation that is read in
it. -/
structure Call where
  sections : List BlockSection
  read : Except SyntaxFault Invocation

namespace Call

/-- Whether the tag stands in no section that is left out of the tree. -/
def isKept (c : Call) : Bool :=
  c.sections.all fun s => !s.dropped

/-- The tag as a call, if it is one, in the given sections. -/
def ofTag? (sections : List BlockSection) (t : Tag) : Option Call :=
  match t.kind with
  | .invocation => some ⟨sections, (PartialName.read t.inner).map fun p => ⟨p.1, false⟩⟩
  | .openInvocation => some ⟨sections, (PartialName.read t.inner).map fun p => ⟨p.1, true⟩⟩
  | _ => none

/-- The calls among tokens, in their order; `sections` are those before the tokens. -/
def ofTokens (sections : List BlockSection) : List Token → List Call
  | [] => []
  | .text _ :: ts => ofTokens sections ts
  | .raw _ _ :: ts => ofTokens sections ts
  | .tag t :: ts => (ofTag? sections t).toList ++ ofTokens (BlockSection.after sections t) ts

/-- What is read in those of the calls that are kept. -/
def kept (calls : List Call) : List (Except SyntaxFault Invocation) :=
  (calls.filter isKept).map read

theorem kept_append (a b : List Call) : kept (a ++ b) = kept a ++ kept b := by
  rw [kept, List.filter_append, List.map_append]
  rfl

end Call

/-! ## Frames -/

namespace Frame

/-- The section that a frame reads. -/
def current (f : Frame) : BlockSection :=
  ⟨f.isDecorator, f.inverse.isSome⟩

/-- The invocations in a frame, without those that will be dropped. -/
def invocations (f : Frame) : List Invocation :=
  (match f.opener with
    | .invocation name _ => [⟨name, true⟩]
    | _ => []) ++
    Node.invocations f.body ++ if f.isDecorator then [] else Node.invocations (f.inverse.getD [])

theorem invocations_push (f : Frame) (n : Node) :
    (f.push n).invocations = f.invocations ++ if f.drops then [] else Node.invocations [n] := by
  obtain ⟨o, i, body, inverse⟩ := f
  have hnil : Node.invocations [] = [] := rfl
  cases o <;> cases inverse <;>
    simp [invocations, push, drops, isDecorator, Node.invocations_append, hnil]

/-- A closed block has the invocations of its frame. -/
theorem invocations_toNode (f : Frame) (close : Slice) :
    Node.invocations [f.toNode close] = f.invocations := by
  obtain ⟨o, i, body, inverse⟩ := f
  rw [Node.invocations_singleton]
  cases o <;>
    simp [toNode, invocations, isDecorator, Node.invocation?, Node.descendants, Node.invocations,
      Harvest.walkOption_eq, Harvest.walk_append]

/-- The invocations in open blocks, the outermost block first. -/
def invocationsIn : List Frame → List Invocation
  | [] => []
  | f :: outer => invocationsIn outer ++ if keeps outer then f.invocations else []

end Frame

/-! ## The parser -/

namespace Parser

variable {p q : Parser}

/-- The invocations that a parser has read, in the order of the source. -/
def invocations (p : Parser) : List Invocation :=
  Node.invocations p.root ++ Frame.invocationsIn p.stack

/-- The sections of the open blocks, the innermost first. -/
def sections (p : Parser) : List BlockSection :=
  p.stack.map Frame.current

theorem keeps_eq (p : Parser) : keeps p.stack = p.sections.all fun s => !s.dropped := by
  rw [keeps, sections, List.all_map]
  rfl

theorem sections_push (p : Parser) (n : Node) : (p.push n).sections = p.sections := by
  refine map_stack_push (fun f n => ?_) p n
  obtain ⟨o, i, body, inverse⟩ := f
  cases inverse <;> rfl

/-- The kinds of the tags that have been read tell the sections. -/
theorem sections_stepTag {t : Tag} (h : p.stepTag t = .ok q) :
    q.sections = BlockSection.after p.sections t := by
  unfold BlockSection.after
  cases takes_of_stepTag h with
  | leaf hn =>
    rw [sections_push]
    unfold leaf? at hn
    split at hn <;> simp_all
  | invocation hk => rw [sections_push, hk]
  | openInvocation hk =>
    rw [hk]
    rfl
  | @openBlock inverted hk =>
    rw [hk]
    cases inverted <;> rfl
  | openDecorator hk =>
    rw [hk]
    rfl
  | otherwise hk h =>
    rw [hk]
    obtain ⟨f, outer, hs, rfl⟩ := otherwise_eq_ok_iff.1 h
    simp [sections, hs, Frame.current, Frame.isDecorator]
  | close hk h =>
    obtain ⟨f, outer, hs, -, rfl⟩ := close_eq_ok_iff.1 h
    rw [hk, sections_push, sections, sections, hs]
    rfl

theorem invocations_push (p : Parser) (n : Node) :
    (p.push n).invocations = p.invocations ++ if keeps p.stack then Node.invocations [n] else [] := by
  obtain ⟨root, stack⟩ := p
  cases stack with
  | nil => simp [invocations, push, Frame.invocationsIn, Node.invocations_append]
  | cons f outer =>
    cases ho : keeps outer <;> cases hf : f.drops <;>
      simp [invocations, push, Frame.invocationsIn, Frame.invocations_push, ho, hf]

theorem invocations_enter (p : Parser) (o : Opener) (i : Nat) :
    (p.enter o i).invocations =
      p.invocations ++ if keeps p.stack then (⟨o, i, [], none⟩ : Frame).invocations else [] := by
  simp [invocations, enter, Frame.invocationsIn]

theorem invocations_otherwise (h : p.otherwise = .ok q) : q.invocations = p.invocations := by
  obtain ⟨root, stack⟩ := p
  cases stack with
  | nil => exact nomatch h
  | cons f outer =>
    obtain rfl := Except.ok.inj h
    rfl

theorem invocations_close {inner : Slice} (h : p.close inner = .ok q) :
    q.invocations = p.invocations := by
  obtain ⟨f, outer, hs, -, rfl⟩ := close_eq_ok_iff.1 h
  rw [invocations_push, Frame.invocations_toNode]
  simp [invocations, Frame.invocationsIn, hs]

/-- A call is read where it stands, unless its sections are dropped. -/
theorem kept_ofTag? {t : Tag} {i : Invocation}
    (h : Call.ofTag? p.sections t = some ⟨p.sections, .ok i⟩) :
    Call.kept (Call.ofTag? p.sections t).toList = if keeps p.stack then [.ok i] else [] := by
  rw [h, keeps_eq]
  cases hk : p.sections.all fun s => !s.dropped <;> simp [Call.kept, Call.isKept, hk]

/-- A tag adds its call to what has been read. -/
theorem invocations_stepTag {t : Tag} (h : p.stepTag t = .ok q) :
    q.invocations.map .ok =
      p.invocations.map .ok ++ Call.kept (Call.ofTag? p.sections t).toList := by
  -- all but the tags that invoke add a node without a name, or none
  have other (hq : q.invocations = p.invocations) (hn : Call.ofTag? p.sections t = none) :
      q.invocations.map .ok =
        p.invocations.map .ok ++ Call.kept (Call.ofTag? p.sections t).toList := by
    rw [hq, hn]
    exact (List.append_nil _).symm
  have call (i : Invocation) (hq : q.invocations = p.invocations ++ if keeps p.stack then [i] else [])
      (hi : Call.ofTag? p.sections t = some ⟨p.sections, .ok i⟩) :
      q.invocations.map .ok =
        p.invocations.map .ok ++ Call.kept (Call.ofTag? p.sections t).toList := by
    rw [hq, kept_ofTag? hi, List.map_append]
    cases keeps p.stack <;> rfl
  have hpush (n : Node) (hn : Node.invocations [n] = []) : (p.push n).invocations = p.invocations := by
    simp [invocations_push, hn]
  have henter (o : Opener) (k : Nat) (ho : (⟨o, k, [], none⟩ : Frame).invocations = []) :
      (p.enter o k).invocations = p.invocations := by
    simp [invocations_enter, ho]
  unfold stepTag at h
  cases hk : t.kind <;> simp only [hk] at h
  case invocation =>
    obtain ⟨⟨name, params⟩, hr, h⟩ := Except.bind_eq_ok_iff.1 h
    obtain rfl := Except.ok.inj h
    exact call ⟨name, false⟩ (invocations_push p _) (by simp [Call.ofTag?, hk, hr, Except.map])
  case openInvocation =>
    obtain ⟨⟨name, params⟩, hr, h⟩ := Except.bind_eq_ok_iff.1 h
    obtain rfl := Except.ok.inj h
    exact call ⟨name, true⟩ (invocations_enter p _ _) (by simp [Call.ofTag?, hk, hr, Except.map])
  case openBlock =>
    obtain ⟨-, rfl⟩ := openBlock_eq_ok_iff.1 h
    exact other (henter _ _ rfl) (by simp [Call.ofTag?, hk])
  case openInverse =>
    obtain ⟨-, rfl⟩ := openBlock_eq_ok_iff.1 h
    exact other (henter _ _ rfl) (by simp [Call.ofTag?, hk])
  case openDecorator =>
    obtain rfl := Except.ok.inj h
    exact other (henter _ _ rfl) (by simp [Call.ofTag?, hk])
  case otherwise => exact other (invocations_otherwise h) (by simp [Call.ofTag?, hk])
  case close => exact other (invocations_close h) (by simp [Call.ofTag?, hk])
  all_goals exact other (Except.ok.inj h ▸ hpush _ rfl) (by simp [Call.ofTag?, hk])

/-- A run reads the calls among its tokens that are kept, in their order. -/
theorem invocations_run {ts : List Token} (h : p.run ts = .ok q) :
    q.invocations.map .ok = p.invocations.map .ok ++ Call.kept (Call.ofTokens p.sections ts) := by
  induction ts generalizing p with
  | nil =>
    obtain rfl := Except.ok.inj h
    exact (List.append_nil _).symm
  | cons t ts ih =>
    obtain ⟨p', hs, hr⟩ := run_cons_eq_ok_iff.1 h
    rw [ih hr]
    cases t with
    | text piece =>
      obtain rfl := Except.ok.inj hs
      simp [invocations_push, sections_push, Call.ofTokens, Node.invocations, Node.walk,
        Node.descendants, Node.invocation?]
    | raw start block =>
      obtain rfl := Except.ok.inj hs
      simp [invocations_push, sections_push, Call.ofTokens, Node.invocations, Node.walk,
        Node.descendants, Node.invocation?]
    | tag t =>
      have ht := step_tag_eq_ok_iff.1 hs
      rw [sections_stepTag ht, invocations_stepTag ht, Call.ofTokens, Call.kept_append,
        List.append_assoc]

end Parser

/-! ## Sources -/

/-- The walk over the tree of a source visits what is read in the calls among its tokens that are kept,
in the order of the source and each once.  These are all calls exactly if none stands after the `else` of
a decorator block. -/
theorem invocations_parse {source : Text} {nodes : List Node} (h : parse source = .ok nodes) :
    ∃ ts, tokens source = .ok ts ∧
      (Node.invocations nodes).map .ok = Call.kept (Call.ofTokens [] ts) ∧
      ((Node.invocations nodes).map .ok = (Call.ofTokens [] ts).map Call.read ↔
        ∀ c ∈ Call.ofTokens [] ts, c.isKept = true) := by
  obtain ⟨ts, hts, h⟩ := Except.bind_eq_ok_iff.1 h
  obtain ⟨p, hr, hf⟩ := Except.bind_eq_ok_iff.1 h
  have hp : p.invocations = Node.invocations nodes := by
    obtain ⟨root, stack⟩ := p
    cases stack with
    | cons => exact nomatch hf
    | nil =>
      obtain rfl := Except.ok.inj hf
      exact List.append_nil _
  have hnodes : (Node.invocations nodes).map .ok = Call.kept (Call.ofTokens [] ts) := by
    rw [← hp, Parser.invocations_run hr]
    rfl
  refine ⟨ts, hts, hnodes, fun hall => ?_, fun hkept => ?_⟩
  · have hlen := congrArg List.length (hnodes.symm.trans hall)
    rw [Call.kept, List.length_map, List.length_map] at hlen
    exact List.length_filter_eq_length_iff.1 hlen
  · rw [hnodes, Call.kept, List.filter_eq_self.2 hkept]

/-- Invocations in both sections of a block, one of them with a body that invokes. -/
def branching : Text :=
  open2 ++ "#if a".toList ++ close2 ++ "{{> x}}{{else}}".toList ++
    open2 ++ "#> [y] k=1".toList ++ close2 ++ "{{> (lookup . z)}}{{/[y]}}{{/if}}".toList

def branchingNodes : List Node :=
  [.block "if".toList ['a'] false [.invocation (.fixed ⟨13, ['x']⟩) []]
    (some [.blockInvocation (.fixed ⟨29, "[y]".toList⟩) "k=1".toList ⟨59, "[y]".toList⟩
      [.invocation (.computed ⟨42, "(lookup . z)".toList⟩) []]])]

theorem invocations_parse_branching : parse branching = .ok branchingNodes ∧
    ∃ ts, tokens branching = .ok ts ∧
      (Node.invocations branchingNodes).map .ok = Call.kept (Call.ofTokens [] ts) ∧
      ((Node.invocations branchingNodes).map .ok = (Call.ofTokens [] ts).map Call.read ↔
        ∀ c ∈ Call.ofTokens [] ts, c.isKept = true) := by
  have h : parse branching = .ok branchingNodes := by cbv
  exact ⟨h, invocations_parse h⟩

/-- An invocation after the `else` of an inline definition. -/
def overlooked : Text :=
  open2 ++ "#*inline \"x\"".toList ++ close2 ++ "a{{else}}{{> b}}{{/inline}}".toList

/-- The invocation of `b` is among the tokens, and the walk over the tree does not visit it. -/
theorem invocations_parse_overlooked :
    ∃ nodes ts, parse overlooked = .ok nodes ∧ tokens overlooked = .ok ts ∧
      (Call.ofTokens [] ts).map Call.read = [.ok ⟨.fixed ⟨29, ['b']⟩, false⟩] ∧
      Node.invocations nodes = [] := by
  have hp : parse overlooked =
      .ok [.decoratorBlock "inline".toList "\"x\"".toList [.text ['a']]] := by cbv
  have ht : ((tokens overlooked).map fun ts => (Call.ofTokens [] ts).map Call.read) =
      .ok [.ok ⟨.fixed ⟨29, ['b']⟩, false⟩] := by cbv
  obtain ⟨ts, hts, hcalls⟩ := Except.map_eq_ok_iff.1 ht
  exact ⟨_, ts, hp, hts, hcalls, rfl⟩

end Stencil
