import Mathlib.Data.List.TakeWhile
import Stencil.Proofs.Scope
import Stencil.Proofs.Template.Places
/-!
Whether what a template defines itself is one of its dependencies.

The name that an inline definition declares is the first word of its parameters, without quotation marks.
A quoted name is declared as it stands only if there is no white space in it (`Node.declared?_quoted`).
Such a name stays in the template: nothing that is collected has it, and wherever a partial is invoked by
it, before or after the definition, the source is copied (`Template.owns_of_inline`).
-/

namespace Stencil

/-! ## Quoted names -/

section Quoted

variable {n : Text}

theorem unquote_quoted : unquote ('"' :: (n ++ ['"'])) = n := by
  have hl : (n ++ ['"']).getLast? = some '"' := List.getLast?_concat
  simp [unquote, hl]

/-- A quotation mark that is not closed is a part of the name. -/
theorem unquote_open {w : Text} (hw : '"' ∉ w) : unquote ('"' :: w) = '"' :: w := by
  cases hl : w.getLast? with
  | none => simp only [unquote, hl]
  | some e =>
    have he : e ≠ '"' := by
      rintro rfl
      exact hw (List.mem_of_getLast? hl)
    simp [unquote, hl, he]

theorem Text.firstWord_quoted :
    Text.firstWord ('"' :: (n ++ ['"'])) =
      some ('"' :: (n ++ ['"']).takeWhile fun c => !Text.isBlank c) := by
  have hq : Text.isBlank '"' = false := by decide
  simp [Text.firstWord, hq]

/-- A quoted name is the first word of itself up to the first white space in it. -/
theorem takeWhile_quoted :
    (n ++ ['"']).takeWhile (fun c => !Text.isBlank c) =
      if n.all fun c => !Text.isBlank c then n ++ ['"'] else n.takeWhile fun c => !Text.isBlank c := by
  have hq : Text.isBlank '"' = false := by decide
  split
  · next h =>
    rw [List.takeWhile_eq_self_iff]
    intro c hc
    rcases List.mem_append.1 hc with hc | hc
    · exact List.all_eq_true.1 h c hc
    · rw [List.mem_singleton.1 hc, hq]
      rfl
  · next h =>
    rw [List.takeWhile_append, if_neg]
    intro hlen
    apply h
    rw [List.all_eq_true, ← List.takeWhile_eq_self_iff]
    exact (List.takeWhile_prefix _).eq_of_length hlen

/-- What an inline definition with a quoted name declares: the name, if there is no white space in it, and
otherwise the quotation mark and what stands before the first white space. -/
theorem Node.declared?_quoted (hq : '"' ∉ n) (body : List Node) :
    Node.declared? (.decoratorBlock "inline".toList ('"' :: (n ++ ['"'])) body) =
      some (if n.all fun c => !Text.isBlank c then n else '"' :: n.takeWhile fun c => !Text.isBlank c) := by
  rw [Node.declared?, if_pos rfl, Text.firstWord_quoted, takeWhile_quoted, Option.map_some]
  split
  · rw [unquote_quoted]
  · rw [unquote_open fun h => hq ((List.takeWhile_prefix _).subset h)]

/-- An inline definition declares its quoted name if there is no white space in the name, and only then. -/
theorem Node.declared?_quoted_iff (hq : '"' ∉ n) (body : List Node) :
    Node.declared? (.decoratorBlock "inline".toList ('"' :: (n ++ ['"'])) body) = some n ↔
      ∀ c ∈ n, Text.isBlank c = false := by
  rw [Node.declared?_quoted hq, Option.some.injEq]
  split
  · next h =>
    simp only [List.all_eq_true, Bool.not_eq_true'] at h
    exact iff_of_true rfl h
  · next h =>
    simp only [List.all_eq_true, Bool.not_eq_true'] at h
    refine iff_of_false ?_ h
    intro he
    exact hq (he ▸ List.mem_cons_self)

end Quoted

/-! ## Names that a template defines -/

namespace Node

variable {nodes : List Node} {n : Text}

theorem isFree_of_declared {node : Node} (hm : node ∈ walk nodes) (hd : node.declared? = some n) :
    isFree (declaredNames nodes) n = false := by
  have hmem : n ∈ declaredNames nodes := List.mem_filterMap.2 ⟨node, hm, hd⟩
  simp [isFree, hmem]

theorem notMem_collected (hn : isFree (declaredNames nodes) n = false) : n ∉ collected nodes := by
  intro hm
  have hfree := (List.mem_filter.1 hm).2
  rw [hn] at hfree
  exact Bool.false_ne_true hfree

end Node

namespace Template

variable {x : Expander} {t : Template} {n : Text}

/-- The name is the template's own: it is not among the names that the references come from, and where
partials are invoked by it the runtime source has what the source has. -/
structure Owns (x : Expander) (t : Template) (n : Text) : Prop where
  notMem : n ∉ Node.collected t.nodes
  references : ∀ r, r ∈ t.references ↔ ∃ m ∈ Node.collected t.nodes, key x m = r
  runtimeSource : t.runtimeSource = Edit.applyAll t.source (Lowering.edits (key x) t.nodes)
  invocation : ∀ token params, .invocation (.fixed token) params ∈ Node.walk t.nodes →
    unquote token.text = n → Edit.Copies t.source (Lowering.edits (key x) t.nodes) token
  blockInvocation : ∀ token params close body,
    .blockInvocation (.fixed token) params close body ∈ Node.walk t.nodes → unquote token.text = n →
      Edit.Copies t.source (Lowering.edits (key x) t.nodes) token ∧
      Edit.Copies t.source (Lowering.edits (key x) t.nodes) close

/-- A name that is not free is the template's own. -/
theorem owns_of_bound (h : t.IsParsed x) (hn : n ≠ [])
    (hb : Node.isFree (Node.declaredNames t.nodes) n = false) : Owns x t n := by
  obtain ⟨nodes, hparse, ht⟩ := Except.bind_eq_ok_iff.1 h
  obtain rfl : nodes = t.nodes := by rw [← Except.ok.inj ht]
  have copies {token slice : Slice} {node : Node} (hm : node ∈ Node.walk t.nodes)
      (hs : (PartialName.fixed token, slice) ∈ Lowering.spots.ofNode node) (he : unquote token.text = n) :
      Edit.Copies t.source (Lowering.edits (key x) t.nodes) slice := by
    subst he
    exact Lowering.copies_of_bound (key x) hparse (List.mem_flatMap.2 ⟨node, hm, hs⟩) hn hb
  constructor
  case notMem => exact Node.notMem_collected hb
  case references =>
    intro r
    rw [h.references_eq, mem_dependencyKeys_iff]
  case runtimeSource => exact congrArg Template.runtimeSource (Except.ok.inj ht).symm
  case invocation =>
    intro token params hm he
    exact copies hm List.mem_cons_self he
  case blockInvocation =>
    intro token params close body hm he
    exact ⟨copies hm List.mem_cons_self he, copies hm (List.mem_cons_of_mem _ List.mem_cons_self) he⟩

/-- An inline definition with a quoted name declares that name if there is no white space in it, and only
then.  If it does, the name is the template's own, wherever the definition and the uses of it stand. -/
theorem owns_of_inline {source : Text} (h : parse x source = .ok t) (hn : n ≠ []) (hq : '"' ∉ n)
    {body : List Node}
    (hm : .decoratorBlock "inline".toList ('"' :: (n ++ ['"'])) body ∈ Node.walk t.nodes) :
    (Node.declared? (.decoratorBlock "inline".toList ('"' :: (n ++ ['"'])) body) = some n ↔
      ∀ c ∈ n, Text.isBlank c = false) ∧
    ((∀ c ∈ n, Text.isBlank c = false) → Owns x t n) := by
  have hiff := Node.declared?_quoted_iff hq body
  refine ⟨hiff, ?_⟩
  intro hblank
  have hbound := Node.isFree_of_declared hm (hiff.2 hblank)
  exact owns_of_bound (isParsed_of_parse h) hn hbound

/-! ### A plain name and a spaced one -/

/-- The source of an inline definition. -/
def inlineSource (n body : Text) : Text :=
  open2 ++ "#*inline ".toList ++ '"' :: (n ++ ['"']) ++ close2 ++ body ++ "{{/inline}}".toList

def inlineNode (n body : Text) : Node :=
  .decoratorBlock "inline".toList ('"' :: (n ++ ['"'])) [.text body]

/-- A definition between two uses of its name, one of them with a body and in another spelling. -/
def plainTemplate : Template where
  source := "{{>n}}".toList ++ inlineSource ['n'] ['x'] ++ "{{#>[n]}}y{{/n}}".toList
  nodes := [.invocation (.fixed ⟨3, ['n']⟩) [], inlineNode ['n'] ['x'],
    .blockInvocation (.fixed ⟨38, "[n]".toList⟩) [] ⟨47, ['n']⟩ [.text ['y']]]
  references := []
  runtimeSource := "{{>n}}".toList ++ inlineSource ['n'] ['x'] ++ "{{#>[n]}}y{{/n}}".toList

theorem owns_of_inline_plain : Owns .identity plainTemplate ['n'] := by
  have hparse : parse .identity plainTemplate.source = .ok plainTemplate := by cbv
  have hm : inlineNode ['n'] ['x'] ∈ Node.walk plainTemplate.nodes :=
    List.mem_cons_of_mem _ List.mem_cons_self
  obtain ⟨-, howns⟩ := owns_of_inline hparse (by decide) (by decide) hm
  apply howns
  intro c hc
  rw [List.mem_singleton.1 hc]
  decide

/-- A definition of a name with a space in it, and a use of the name. -/
def spacedTemplate : Template where
  source := inlineSource "a b".toList ['X'] ++ (open2 ++ "> ".toList ++ "[a b]".toList ++ close2)
  nodes := [inlineNode "a b".toList ['X'], .invocation (.fixed ⟨34, "[a b]".toList⟩) []]
  references := ["a b".toList]
  runtimeSource := inlineSource "a b".toList ['X'] ++
    (open2 ++ "> ".toList ++ Alias.ofReference "a b".toList ++ close2)

/-- The name with the space is a dependency and is renamed, although the template defines it. -/
theorem spaced_collected :
    parse .identity spacedTemplate.source = .ok spacedTemplate ∧
    .decoratorBlock "inline".toList ('"' :: ("a b".toList ++ ['"'])) [.text ['X']] ∈
      Node.walk spacedTemplate.nodes ∧
    "a b".toList ≠ [] ∧ '"' ∉ "a b".toList ∧
    .invocation (.fixed ⟨34, "[a b]".toList⟩) [] ∈ Node.walk spacedTemplate.nodes ∧
    unquote "[a b]".toList = "a b".toList ∧
    "a b".toList ∈ spacedTemplate.references ∧
    spacedTemplate.runtimeSource ≠ spacedTemplate.source := by
  refine ⟨by cbv, List.mem_cons_self, by decide, by decide, ?_, by decide, List.mem_cons_self, ?_⟩
  · exact List.mem_cons_of_mem _ (List.mem_append_right _ List.mem_cons_self)
  · intro he
    have hplain : Alias.isPlain "a b".toList = false := by decide
    simp only [spacedTemplate, List.append_cancel_left_eq, List.append_cancel_right_eq,
      Alias.ofReference, hplain] at he
    exact absurd (List.cons.inj he).1 (by decide)

end Template

end Stencil
