import Stencil.Proofs.Template.Rewriting
/-!
What a walk over a tree collects, and which token it comes from.

A `Harvest` takes something from each name, closing tag and raw block.  The parser turns every token
that matters into one such part of the tree, so what is taken from the tree is what is taken from the
tokens, in another order (`Harvest.perm_run`).
-/

namespace Stencil

/-- What is taken from the parts of a tree that have a place in the source. -/
structure Harvest (β : Type) where
  name : PartialName → List β
  close : PartialName → Slice → List β
  raw : Text → Slice → List β

namespace Harvest

variable {β : Type} (h : Harvest β)

/-- What is taken from a node, without those below it. -/
def ofNode : Node → List β
  | .invocation name _ => h.name name
  | .blockInvocation name _ close _ => h.name name ++ h.close name close
  | .raw _ content whole => h.raw content whole
  | _ => []

/-- What is taken from a forest. -/
def ofNodes (nodes : List Node) : List β :=
  (Node.walk nodes).flatMap h.ofNode

def ofOpener : Opener → List β
  | .invocation name _ => h.name name
  | _ => []

/-- What is taken from a frame, without what will be dropped. -/
def ofFrame (f : Frame) : List β :=
  h.ofOpener f.opener ++ h.ofNodes f.body ++ if f.isDecorator then [] else h.ofNodes (f.inverse.getD [])

def ofStack : List Frame → List β
  | [] => []
  | f :: outer => (if keeps outer then h.ofFrame f else []) ++ ofStack outer

/-- What is taken from all that a parser has read. -/
def ofParser (p : Parser) : List β :=
  h.ofNodes p.root ++ h.ofStack p.stack

def ofClose (stack : List Frame) (inner : Slice) : List β :=
  match stack with
  | ⟨.invocation name _, _, _, _⟩ :: _ => h.close name inner
  | _ => []

def ofTag (stack : List Frame) (t : Tag) : List β :=
  match t.kind with
  | .invocation | .openInvocation =>
    match PartialName.read t.inner with
    | .ok (name, _) => h.name name
    | .error _ => []
  | .close => h.ofClose stack t.inner
  | _ => []

theorem ofTag_cases (stack : List Frame) (t : Tag) :
    (∃ name params, (t.kind = .invocation ∨ t.kind = .openInvocation) ∧
      PartialName.read t.inner = .ok (name, params) ∧ h.ofTag stack t = h.name name) ∨
    (t.kind = .close ∧ h.ofTag stack t = h.ofClose stack t.inner) ∨ h.ofTag stack t = [] := by
  unfold ofTag
  split
  · next hk =>
    split
    · next name params hr => exact .inl ⟨name, params, .inl hk, hr, rfl⟩
    · exact .inr (.inr rfl)
  · next hk =>
    split
    · next name params hr => exact .inl ⟨name, params, .inr hk, hr, rfl⟩
    · exact .inr (.inr rfl)
  · next hk => exact .inr (.inl ⟨hk, rfl⟩)
  · exact .inr (.inr rfl)

/-- What is taken from a token. -/
def ofToken (stack : List Frame) (t : Token) : List β :=
  if keeps stack then
    match t with
    | .text _ => []
    | .raw start block => h.raw block.content ⟨start, block.written⟩
    | .tag t => h.ofTag stack t
  else []

/-- What is taken from the tokens of a run, in their order. -/
def ofRun (p : Parser) : List Token → List β
  | [] => []
  | t :: ts =>
    match p.step t with
    | .ok p' => h.ofToken p.stack t ++ ofRun p' ts
    | .error _ => []

theorem ofRun_cons {p p' : Parser} {t : Token} (ht : p.step t = .ok p') (ts : List Token) :
    h.ofRun p (t :: ts) = h.ofToken p.stack t ++ h.ofRun p' ts := by
  rw [ofRun, ht]

/-! ## Forests -/

theorem walk_append (a b : List Node) : Node.walk (a ++ b) = Node.walk a ++ Node.walk b := by
  induction a with
  | nil => rfl
  | cons n a ih => rw [List.cons_append, Node.walk, Node.walk, ih, List.cons_append, List.append_assoc]

theorem walkOption_eq (nodes : Option (List Node)) :
    Node.walkOption nodes = Node.walk (nodes.getD []) := by
  cases nodes <;> rfl

theorem ofNodes_append (a b : List Node) : h.ofNodes (a ++ b) = h.ofNodes a ++ h.ofNodes b := by
  rw [ofNodes, walk_append, List.flatMap_append]
  rfl

theorem ofNodes_singleton (n : Node) :
    h.ofNodes [n] = h.ofNode n ++ (Node.descendants n).flatMap h.ofNode := by
  rw [ofNodes, Node.walk, Node.walk, List.append_nil, List.flatMap_cons]

theorem perm_of_count {a b : List β} (hc : ∀ [BEq β] [LawfulBEq β] (x : β), a.count x = b.count x) :
    a.Perm b := by
  classical
  exact List.perm_iff_count.2 fun x => hc x

/-- A closed block holds what its frame held, and its closing tag. -/
theorem ofNodes_toNode (f : Frame) (close : Slice) (outer : List Frame) :
    (h.ofNodes [f.toNode close]).Perm (h.ofFrame f ++ h.ofClose (f :: outer) close) := by
  obtain ⟨o, i, body, inverse⟩ := f
  rw [ofNodes_singleton]
  cases o with
  | block helper params inverted =>
    simp only [Frame.toNode, Node.descendants, walkOption_eq, List.flatMap_append, ofFrame, ofOpener,
      Frame.isDecorator, ofClose, ofNode, ofNodes]
    simp
  | invocation name params =>
    have hbody : (Node.walk (body ++ inverse.getD [])).flatMap h.ofNode =
        h.ofNodes body ++ h.ofNodes (inverse.getD []) := h.ofNodes_append ..
    simp only [Frame.toNode, Node.descendants, ofFrame, ofOpener, Frame.isDecorator, ofClose,
      ofNode, hbody]
    refine perm_of_count fun x => ?_
    simp only [List.count_append, Bool.false_eq_true, if_false]
    omega
  | decorator name params =>
    simp only [Frame.toNode, Node.descendants, ofFrame, ofOpener, Frame.isDecorator, ofClose,
      ofNode, ofNodes]
    simp

/-! ## One step -/

variable {p q : Parser}

theorem ofFrame_push (f : Frame) (n : Node) :
    (h.ofFrame (f.push n)).Perm (h.ofFrame f ++ if f.drops then [] else h.ofNodes [n]) := by
  obtain ⟨o, i, body, inverse⟩ := f
  refine perm_of_count fun x => ?_
  cases o <;> cases inverse <;>
    simp [ofFrame, Frame.push, Frame.drops, Frame.isDecorator, ofNodes_append,
      List.count_append] <;> omega

theorem perm_push (p : Parser) (n : Node) :
    (h.ofParser (p.push n)).Perm (h.ofParser p ++ if keeps p.stack then h.ofNodes [n] else []) := by
  obtain ⟨root, stack⟩ := p
  cases stack with
  | nil => simp [ofParser, Parser.push, ofStack, ofNodes_append]
  | cons f outer =>
    have hf := h.ofFrame_push f n
    refine perm_of_count fun x => ?_
    have hx := hf.count_eq x
    cases ho : keeps outer with
    | false => simp_all [ofParser, Parser.push, ofStack, List.count_append]
    | true =>
      cases hd : f.drops with
      | true => simp_all [ofParser, Parser.push, ofStack, List.count_append]
      | false =>
        simp_all [ofParser, Parser.push, ofStack, List.count_append]
        omega

theorem perm_enter (p : Parser) (o : Opener) (i : Nat) :
    (h.ofParser (p.enter o i)).Perm (h.ofParser p ++ if keeps p.stack then h.ofOpener o else []) := by
  have hf : h.ofFrame ⟨o, i, [], none⟩ = h.ofOpener o := by
    simp [ofFrame, ofNodes, Node.walk]
  refine perm_of_count fun x => ?_
  simp only [ofParser, Parser.enter, ofStack, hf, List.count_append]
  omega

theorem ofParser_otherwise (hp : p.otherwise = .ok q) : h.ofParser q = h.ofParser p := by
  obtain ⟨f, outer, hs, rfl⟩ := Parser.otherwise_eq_ok_iff.1 hp
  rw [ofParser, ofParser, hs]
  rfl

theorem perm_close {inner : Slice} (hp : p.close inner = .ok q) :
    (h.ofParser q).Perm (h.ofParser p ++ if keeps p.stack then h.ofClose p.stack inner else []) := by
  obtain ⟨f, outer, hs, -, rfl⟩ := Parser.close_eq_ok_iff.1 hp
  have hpush := h.perm_push { p with stack := outer } (f.toNode inner)
  have hnode := h.ofNodes_toNode f inner outer
  have hdrop : f.drops = true → h.ofClose (f :: outer) inner = [] := by
    obtain ⟨o, i, body, inverse⟩ := f
    cases o <;> simp [Frame.drops, Frame.isDecorator, ofClose]
  refine hpush.trans (perm_of_count fun x => ?_)
  have hx := hnode.count_eq x
  cases ho : keeps outer <;> cases hd : f.drops <;>
    simp_all [ofParser, ofStack, List.count_append] <;> omega

theorem perm_stepTag {t : Tag} (hp : p.stepTag t = .ok q) :
    (h.ofParser q).Perm (h.ofParser p ++ if keeps p.stack then h.ofTag p.stack t else []) := by
  have push (n : Node) (hn : h.ofNodes [n] = h.ofTag p.stack t) (hq : p.push n = q) :=
    hq ▸ hn ▸ h.perm_push p n
  have enter (o : Opener) (ho : h.ofOpener o = h.ofTag p.stack t) (hq : p.enter o t.whole.start = q) :=
    hq ▸ ho ▸ h.perm_enter p o t.whole.start
  unfold Parser.stepTag at hp
  cases hk : t.kind <;> simp only [hk] at hp
  case invocation =>
    obtain ⟨⟨name, params⟩, hr, hp⟩ := Except.bind_eq_ok_iff.1 hp
    exact push _ (by simp [ofTag, hk, hr, ofNodes_singleton, ofNode, Node.descendants])
      (Except.ok.inj hp)
  case openInvocation =>
    obtain ⟨⟨name, params⟩, hr, hp⟩ := Except.bind_eq_ok_iff.1 hp
    exact enter _ (by simp [ofTag, hk, hr, ofOpener]) (Except.ok.inj hp)
  case openBlock => exact enter _ (by simp [ofTag, hk, ofOpener]) (Parser.openBlock_eq_ok_iff.1 hp).2
  case openInverse => exact enter _ (by simp [ofTag, hk, ofOpener]) (Parser.openBlock_eq_ok_iff.1 hp).2
  case openDecorator => exact enter _ (by simp [ofTag, hk, ofOpener]) (Except.ok.inj hp)
  case otherwise => simp [h.ofParser_otherwise hp, ofTag, hk]
  case close => simpa [ofTag, hk] using h.perm_close hp
  all_goals
    exact push _ (by simp [ofTag, hk, ofNodes_singleton, ofNode, Node.descendants]) (Except.ok.inj hp)

theorem perm_step {t : Token} (hp : p.step t = .ok q) :
    (h.ofParser q).Perm (h.ofParser p ++ h.ofToken p.stack t) := by
  unfold Parser.step at hp
  split at hp
  · next piece =>
    obtain rfl := Except.ok.inj hp
    simpa [ofToken, ofNodes_singleton, ofNode, Node.descendants] using h.perm_push p (.text piece.text)
  · next start block =>
    obtain rfl := Except.ok.inj hp
    simpa [ofToken, ofNodes_singleton, ofNode, Node.descendants] using
      h.perm_push p (.raw block.helper block.content ⟨start, block.written⟩)
  · split at hp
    · next hs =>
      obtain rfl := Except.ok.inj hp
      simpa [ofToken] using h.perm_stepTag hs
    · simp at hp

/-- What is taken from all that a run has read is what was there before and what its tokens give. -/
theorem perm_run {ts : List Token} (hp : p.run ts = .ok q) :
    (h.ofParser q).Perm (h.ofParser p ++ h.ofRun p ts) := by
  induction ts generalizing p with
  | nil =>
    obtain rfl := Except.ok.inj hp
    simp [ofRun]
  | cons t ts ih =>
    obtain ⟨p', hs, hr⟩ := Parser.run_cons_eq_ok_iff.1 hp
    rw [h.ofRun_cons hs, ← List.append_assoc]
    exact (ih hr).trans ((h.perm_step hs).append_right _)

/-- What is taken from a tree is what the tokens of its source give. -/
theorem perm_parse {ts : List Token} {nodes : List Node} (hr : Parser.start.run ts = .ok q)
    (hf : q.finish = .ok nodes) : (h.ofNodes nodes).Perm (h.ofRun Parser.start ts) := by
  have hq : h.ofParser q = h.ofNodes nodes := by
    rw [Parser.finish_eq_ok_iff.1 hf]
    simp [ofParser, ofStack]
  have := h.perm_run hr
  rwa [hq] at this

/-- The names of the invoked partials. -/
def names : Harvest PartialName where
  name n := [n]
  close _ _ := []
  raw _ _ := []

theorem ofNodes_names (nodes : List Node) : names.ofNodes nodes = Node.invokedNames nodes := by
  rw [ofNodes, Node.invokedNames, List.filterMap_eq_flatMap_toList]
  refine congrArg (fun f => (Node.walk nodes).flatMap f) (funext fun n => ?_)
  cases n <;> rfl

end Harvest

end Stencil
