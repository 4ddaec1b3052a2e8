import Stencil.Proofs.Template.Invocations
/-!
What the tree records of the tags that name partials.

A tag that names a partial leaves a node with its name and its parameters in the tree, unless it stands
in a section that is left out (`Parser.recorded_stepTag`).  No later token takes it away
(`Parser.Recorded.run`).
-/

namespace Stencil

namespace Node

/-- The name of the partial that a node invokes, and its parameters. -/
def call? : Node → Option (PartialName × Text)
  | invocation name params => some (name, params)
  | blockInvocation name params _ _ => some (name, params)
  | _ => none

/-- The names and parameters in a forest. -/
def calls (nodes : List Node) : List (PartialName × Text) :=
  (walk nodes).filterMap call?

theorem calls_append (a b : List Node) : calls (a ++ b) = calls a ++ calls b := by
  rw [calls, Harvest.walk_append, List.filterMap_append]
  rfl

theorem calls_singleton (n : Node) :
    calls [n] = n.call?.toList ++ (descendants n).filterMap call? := by
  rw [calls, walk, walk, List.append_nil, List.filterMap_cons]
  cases n.call? <;> rfl

end Node

variable {c : PartialName × Text}

namespace Frame

/-- The names and parameters in a frame, without those that will be left out. -/
def calls (f : Frame) : List (PartialName × Text) :=
  (match f.opener with
    | .invocation name params => [(name, params)]
    | _ => []) ++
    Node.calls f.body ++ if f.isDecorator then [] else Node.calls (f.inverse.getD [])

theorem calls_push (f : Frame) (n : Node) :
    (f.push n).calls = f.calls ++ if f.drops then [] else Node.calls [n] := by
  obtain ⟨o, i, body, inverse⟩ := f
  have hnil : Node.calls [] = [] := rfl
  cases o <;> cases inverse <;> simp [calls, push, drops, isDecorator, Node.calls_append, hnil]

theorem calls_toNode (f : Frame) (close : Slice) : Node.calls [f.toNode close] = f.calls := by
  obtain ⟨o, i, body, inverse⟩ := f
  rw [Node.calls_singleton]
  cases o <;>
    simp [toNode, calls, isDecorator, Node.call?, Node.descendants, Node.calls, Harvest.walkOption_eq,
      Harvest.walk_append]

/-- The name and the parameters stand in an open block and will not be left out. -/
def Recorded (c : PartialName × Text) : List Frame → Prop
  | [] => False
  | f :: outer => (keeps outer = true ∧ c ∈ f.calls) ∨ Recorded c outer

end Frame

namespace Parser

variable {p q : Parser} {t : Tag}

/-- The name and the parameters have been read and will not be left out of the tree. -/
def Recorded (p : Parser) (c : PartialName × Text) : Prop :=
  c ∈ Node.calls p.root ∨ Frame.Recorded c p.stack

theorem recorded_push (p : Parser) (n : Node) :
    (p.push n).Recorded c ↔ p.Recorded c ∨ (keeps p.stack = true ∧ c ∈ Node.calls [n]) := by
  obtain ⟨root, stack⟩ := p
  cases stack with
  | nil => simp [Recorded, push, Frame.Recorded, Node.calls_append]
  | cons f outer =>
    cases hf : f.drops
    · simp only [Recorded, push, Frame.Recorded, Frame.calls_push, hf, keeps_cons, List.mem_append]
      simp
      tauto
    · simp [Recorded, push, Frame.Recorded, Frame.calls_push, hf]

theorem recorded_enter (p : Parser) (o : Opener) (i : Nat) :
    (p.enter o i).Recorded c ↔
      p.Recorded c ∨ (keeps p.stack = true ∧ c ∈ (⟨o, i, [], none⟩ : Frame).calls) := by
  simp only [Recorded, enter, Frame.Recorded]
  tauto

theorem Recorded.otherwise (h : p.Recorded c) (hq : p.otherwise = .ok q) : q.Recorded c := by
  obtain ⟨f, outer, hs, rfl⟩ := otherwise_eq_ok_iff.1 hq
  rw [Recorded, hs] at h
  exact h

theorem Recorded.close {inner : Slice} (h : p.Recorded c) (hq : p.close inner = .ok q) :
    q.Recorded c := by
  obtain ⟨f, outer, hs, -, rfl⟩ := close_eq_ok_iff.1 hq
  rw [recorded_push, Frame.calls_toNode]
  simp only [Recorded, Frame.Recorded, hs] at h ⊢
  tauto

/-- Nothing that is recorded is lost with a tag. -/
theorem Recorded.stepTag (h : p.Recorded c) (hq : p.stepTag t = .ok q) : q.Recorded c := by
  have enter (o : Opener) (i : Nat) : (p.enter o i).Recorded c := (recorded_enter p o i).2 (.inl h)
  cases takes_of_stepTag hq with
  | leaf => exact (recorded_push p _).2 (.inl h)
  | invocation => exact (recorded_push p _).2 (.inl h)
  | openInvocation => exact enter _ _
  | openBlock => exact enter _ _
  | openDecorator => exact enter _ _
  | otherwise _ hq => exact h.otherwise hq
  | close _ hq => exact h.close hq

/-- A tag that names a partial is recorded where it is kept. -/
theorem recorded_stepTag (hq : p.stepTag t = .ok q) (hkeep : keeps p.stack = true)
    (hk : t.kind = .invocation ∨ t.kind = .openInvocation) (hc : PartialName.read t.inner = .ok c) :
    q.Recorded c := by
  unfold stepTag at hq
  rcases hk with hk | hk <;> simp only [hk] at hq
  · obtain ⟨_, hr, hq⟩ := Except.bind_eq_ok_iff.1 hq
    obtain rfl := Except.ok.inj (hc.symm.trans hr)
    rw [← Except.ok.inj hq, recorded_push]
    exact .inr ⟨hkeep, by simp [Node.calls_singleton, Node.call?]⟩
  · obtain ⟨_, hr, hq⟩ := Except.bind_eq_ok_iff.1 hq
    obtain rfl := Except.ok.inj (hc.symm.trans hr)
    rw [← Except.ok.inj hq, recorded_enter]
    exact .inr ⟨hkeep, by simp [Frame.calls]⟩

theorem Recorded.step {t : Token} (h : p.Recorded c) (hq : p.step t = .ok q) : q.Recorded c := by
  cases t with
  | text piece => exact Except.ok.inj hq ▸ (recorded_push p _).2 (.inl h)
  | raw i b => exact Except.ok.inj hq ▸ (recorded_push p _).2 (.inl h)
  | tag t => exact h.stepTag (step_tag_eq_ok_iff.1 hq)

theorem Recorded.run {ts : List Token} (h : p.Recorded c) (hq : p.run ts = .ok q) : q.Recorded c := by
  induction ts generalizing p with
  | nil => exact Except.ok.inj hq ▸ h
  | cons t ts ih =>
    obtain ⟨p', hp', hq⟩ := run_cons_eq_ok_iff.1 hq
    exact ih (h.step hp') hq

/-- What is recorded at the end is in the tree. -/
theorem Recorded.finish {nodes : List Node} (h : p.Recorded c) (hn : p.finish = .ok nodes) :
    c ∈ Node.calls nodes := by
  obtain rfl := finish_eq_ok_iff.1 hn
  exact h.resolve_right id

end Parser

/-! ## Sections -/

namespace BlockSection

/-- The sections after tokens, the innermost first. -/
def afterTokens (sections : List BlockSection) : List Token → List BlockSection
  | [] => sections
  | .tag t :: ts => afterTokens (after sections t) ts
  | _ :: ts => afterTokens sections ts

end BlockSection

/-- Whether what follows the tokens is kept in the tree: it does not stand after the `else` of a decorator
block. -/
def KeptAfter (ts : List Token) : Prop :=
  ∀ s ∈ BlockSection.afterTokens [] ts, s.dropped = false

theorem Parser.sections_run {p q : Parser} {ts : List Token} (h : p.run ts = .ok q) :
    q.sections = BlockSection.afterTokens p.sections ts := by
  induction ts generalizing p with
  | nil =>
    obtain rfl := Except.ok.inj h
    rfl
  | cons t ts ih =>
    obtain ⟨p', hp', h⟩ := run_cons_eq_ok_iff.1 h
    rw [ih h]
    cases t with
    | text piece =>
      rw [← Except.ok.inj hp', sections_push]
      rfl
    | raw i b =>
      rw [← Except.ok.inj hp', sections_push]
      rfl
    | tag t => rw [sections_stepTag (step_tag_eq_ok_iff.1 hp'), BlockSection.afterTokens]

theorem keptAfter_iff {p : Parser} {ts : List Token} (h : Parser.start.run ts = .ok p) :
    KeptAfter ts ↔ keeps p.stack = true := by
  rw [Parser.keeps_eq, Parser.sections_run h, List.all_eq_true]
  simp only [KeptAfter, Bool.not_eq_true']
  rfl

end Stencil
