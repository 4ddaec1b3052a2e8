import Stencil.Proofs.Except
import Stencil.Proofs.Text.Cut
import Stencil.Syntax.Parser
/-!
The token stream and the parser, one token at a time.

`stream_of_next` takes one token off a source.  Whatever tokens follow, the nodes that stand outside all
blocks stay at the head of the tree (`root_prefix_run`).
-/

namespace Stencil

/-! ## Tokens -/

namespace Token

/-- A text that neither opens a tag nor escapes one is literal. -/
theorem literal_append {p : Text} (hp : ∀ c ∈ p, c ≠ '{' ∧ c ≠ '\\') (s : Text) :
    literal (p ++ s) = (p ++ (literal s).1, (literal s).2) := by
  induction p with
  | nil => rfl
  | cons c p ih =>
    obtain ⟨hb, he⟩ := hp c List.mem_cons_self
    have hescape : Text.after? escape (c :: (p ++ s)) = none := by
      simp [escape, Text.after?, he.symm]
    have hopen : Text.startsWith open2 (c :: (p ++ s)) = false := by
      simp [Text.startsWith, open2, Text.after?, hb.symm]
    rw [List.cons_append, literal]
    split
    · next h => simp [hescape] at h
    · simp only [hopen, ih fun d hd => hp d (List.mem_cons_of_mem c hd)]
      rfl

theorem literal_of_open {s r : Text} (h : Text.after? open2 s = some r) : literal s = ([], s) := by
  have hs := Text.after?_eq h
  subst hs
  have hescape : Text.after? escape (open2 ++ r) = none := rfl
  unfold literal
  split
  · next he => simp [open2] at he
  · next c r' he =>
    split
    · next h' => simp [← he, hescape] at h'
    · rw [← he, if_pos]
      simp [Text.startsWith, h]

theorem stream_of_next {start : Nat} {s rest : Text} {t : Token} (hs : s ≠ [])
    (h : next start s = .ok (t, rest)) :
    stream start s = (stream t.whole.stop rest).map (t :: ·) := by
  rw [stream, dif_neg hs]
  split
  · next h' => simp [h] at h'
  · next t' rest' h' =>
    rw [h, Except.ok.injEq, Prod.mk.injEq] at h'
    obtain ⟨rfl, rfl⟩ := h'
    cases stream t.whole.stop rest <;> rfl

theorem stream_of_fault {start : Nat} {s : Text} {fault : SyntaxFault} (hs : s ≠ [])
    (h : next start s = .error fault) : stream start s = .error ⟨fault, start⟩ := by
  rw [stream, dif_neg hs]
  split
  · next h' =>
    rw [h, Except.error.injEq] at h'
    rw [h']
  · next h' => simp [h] at h'

theorem stream_nil (start : Nat) : stream start [] = .ok [] := by
  rw [stream, dif_pos rfl]

/-- The tokens of a source, taken apart: there are none, or one and those of the rest. -/
theorem stream_eq_ok {start : Nat} {s : Text} {ts : List Token} (h : stream start s = .ok ts) :
    s = [] ∧ ts = [] ∨
      s ≠ [] ∧ ∃ t rest ts', ts = t :: ts' ∧ next start s = .ok (t, rest) ∧
        stream t.whole.stop rest = .ok ts' := by
  by_cases hs : s = []
  · subst hs
    rw [stream_nil] at h
    exact .inl ⟨rfl, (Except.ok.inj h).symm⟩
  · refine .inr ⟨hs, ?_⟩
    cases hn : next start s with
    | error fault => rw [stream_of_fault hs hn] at h; exact nomatch h
    | ok p =>
      obtain ⟨t, rest⟩ := p
      rw [stream_of_next hs hn] at h
      obtain ⟨ts', hts, rfl⟩ := Except.map_eq_ok_iff.1 h
      exact ⟨t, rest, ts', rfl, rfl, hts⟩

theorem stream_cons_eq_ok {start : Nat} {s : Text} {t : Token} {ts : List Token}
    (h : stream start s = .ok (t :: ts)) :
    s ≠ [] ∧ ∃ rest, next start s = .ok (t, rest) ∧ stream t.whole.stop rest = .ok ts := by
  rcases stream_eq_ok h with ⟨-, he⟩ | ⟨hs, t', rest, ts', he, hn, hrest⟩
  · cases he
  · obtain ⟨rfl, rfl⟩ := List.cons.inj he
    exact ⟨hs, rest, hn, hrest⟩

end Token

/-! ## The parser -/

namespace Parser

theorem run_cons_eq_ok_iff {p q : Parser} {t : Token} {ts : List Token} :
    p.run (t :: ts) = .ok q ↔ ∃ p', p.step t = .ok p' ∧ p'.run ts = .ok q := by
  rw [run]
  cases p.step t <;> simp

theorem run_append (p : Parser) (ts us : List Token) :
    p.run (ts ++ us) = p.run ts >>= fun q => q.run us := by
  induction ts generalizing p with
  | nil => rfl
  | cons t ts ih =>
    rw [List.cons_append, run, run]
    cases p.step t with
    | error e => rfl
    | ok q => exact ih q

theorem finish_eq_ok_iff {p : Parser} {nodes : List Node} :
    p.finish = .ok nodes ↔ p = ⟨nodes, []⟩ := by
  obtain ⟨root, stack⟩ := p
  cases stack <;> simp [finish]

theorem openBlock_eq_ok_iff {p q : Parser} {t : Tag} {inverted : Bool} :
    stepTag.openBlock p t inverted = .ok q ↔
      (Text.splitHead t.inner.text).1.isEmpty = false ∧
        p.enter (.block (Text.splitHead t.inner.text).1 (Text.splitHead t.inner.text).2 inverted)
          t.whole.start = q := by
  unfold stepTag.openBlock
  split
  next helper params hs =>
  rw [hs]
  cases helper.isEmpty <;> simp

theorem otherwise_eq_ok_iff {p q : Parser} :
    p.otherwise = .ok q ↔ ∃ f outer, p.stack = f :: outer ∧
      { p with stack := { f with inverse := some (f.inverse.getD []) } :: outer } = q := by
  obtain ⟨root, stack⟩ := p
  cases stack with
  | nil => simp [otherwise]
  | cons f outer =>
    refine ⟨fun h => ⟨f, outer, rfl, Except.ok.inj h⟩, ?_⟩
    rintro ⟨_, _, hs, rfl⟩
    obtain ⟨rfl, rfl⟩ := List.cons.inj hs
    rfl

theorem close_eq_ok_iff {p q : Parser} {inner : Slice} :
    p.close inner = .ok q ↔ ∃ f outer, p.stack = f :: outer ∧ f.opener.closedBy inner.text = true ∧
      push { p with stack := outer } (f.toNode inner) = q := by
  obtain ⟨root, stack⟩ := p
  cases stack with
  | nil => simp [close]
  | cons f outer =>
    constructor
    · intro h
      simp only [close] at h
      split at h
      · next hc => exact ⟨f, outer, rfl, hc, Except.ok.inj h⟩
      · simp at h
    · rintro ⟨_, _, hs, hc, rfl⟩
      obtain ⟨rfl, rfl⟩ := List.cons.inj hs
      exact if_pos hc

/-- The node of a tag that neither names a partial nor belongs to a block. -/
def leaf? (t : Tag) : Option Node :=
  match t.kind with
  | .comment => some (.comment (commentText t.inner.text))
  | .expression => some (.expression t.inner.text true)
  | .unescaped => some (.expression t.inner.text false)
  | .decorator => some (.decorator t.inner.text)
  | _ => none

/-- What a tag that is taken does. -/
inductive Takes (p : Parser) (t : Tag) : Parser → Prop
  | leaf {n : Node} : leaf? t = some n → Takes p t (p.push n)
  | invocation {name : PartialName} {params : Text} : t.kind = .invocation →
      PartialName.read t.inner = .ok (name, params) → Takes p t (p.push (.invocation name params))
  | openInvocation {name : PartialName} {params : Text} : t.kind = .openInvocation →
      PartialName.read t.inner = .ok (name, params) →
      Takes p t (p.enter (.invocation name params) t.whole.start)
  | openBlock {inverted : Bool} : t.kind = (if inverted then .openInverse else .openBlock) →
      Takes p t (p.enter (.block (Text.splitHead t.inner.text).1 (Text.splitHead t.inner.text).2 inverted)
        t.whole.start)
  | openDecorator : t.kind = .openDecorator →
      Takes p t (p.enter (.decorator (Text.splitHead t.inner.text).1 (Text.splitHead t.inner.text).2)
        t.whole.start)
  | otherwise {q : Parser} : t.kind = .otherwise → p.otherwise = .ok q → Takes p t q
  | close {q : Parser} : t.kind = .close → p.close t.inner = .ok q → Takes p t q

theorem takes_of_stepTag {p q : Parser} {t : Tag} (h : p.stepTag t = .ok q) : p.Takes t q := by
  have leaf {n : Node} (hn : leaf? t = some n) (hq : p.push n = q) : p.Takes t q := hq ▸ .leaf hn
  unfold stepTag at h
  cases hk : t.kind <;> simp only [hk] at h
  case invocation =>
    obtain ⟨name, hr, h⟩ := Except.bind_eq_ok_iff.1 h
    exact Except.ok.inj h ▸ .invocation hk hr
  case openInvocation =>
    obtain ⟨name, hr, h⟩ := Except.bind_eq_ok_iff.1 h
    exact Except.ok.inj h ▸ .openInvocation hk hr
  case openBlock => exact (openBlock_eq_ok_iff.1 h).2 ▸ .openBlock hk
  case openInverse => exact (openBlock_eq_ok_iff.1 h).2 ▸ .openBlock hk
  case openDecorator => exact Except.ok.inj h ▸ .openDecorator hk
  case otherwise => exact .otherwise hk h
  case close => exact .close hk h
  all_goals exact leaf (by rw [leaf?, hk]) (Except.ok.inj h)

theorem root_prefix_push (p : Parser) (n : Node) : p.root <+: (p.push n).root := by
  unfold push
  split
  · exact List.prefix_append _ _
  · exact List.prefix_rfl

theorem root_prefix_close {p p' : Parser} {inner : Slice} (h : p.close inner = .ok p') :
    p.root <+: p'.root := by
  obtain ⟨f, outer, -, -, rfl⟩ := close_eq_ok_iff.1 h
  exact root_prefix_push { p with stack := outer } _

theorem root_prefix_otherwise {p p' : Parser} (h : p.otherwise = .ok p') : p.root <+: p'.root := by
  obtain ⟨f, outer, -, rfl⟩ := otherwise_eq_ok_iff.1 h
  exact List.prefix_rfl

theorem root_prefix_stepTag {p p' : Parser} {t : Tag} (h : p.stepTag t = .ok p') :
    p.root <+: p'.root := by
  cases takes_of_stepTag h with
  | leaf => exact root_prefix_push p _
  | invocation => exact root_prefix_push p _
  | openBlock => exact List.prefix_rfl
  | openInvocation => exact List.prefix_rfl
  | openDecorator => exact List.prefix_rfl
  | otherwise _ h => exact root_prefix_otherwise h
  | close _ h => exact root_prefix_close h

theorem root_prefix_step {p p' : Parser} {t : Token} (h : p.step t = .ok p') :
    p.root <+: p'.root := by
  unfold step at h
  split at h
  · rw [← Except.ok.inj h]
    exact root_prefix_push p _
  · rw [← Except.ok.inj h]
    exact root_prefix_push p _
  · split at h
    · next hs =>
      rw [← Except.ok.inj h]
      exact root_prefix_stepTag hs
    · simp at h

theorem root_prefix_run {p p' : Parser} {ts : List Token} (h : p.run ts = .ok p') :
    p.root <+: p'.root := by
  induction ts generalizing p with
  | nil =>
    obtain rfl := Except.ok.inj h
    exact List.prefix_rfl
  | cons t ts ih =>
    unfold run at h
    split at h
    · next hs => exact (root_prefix_step hs).trans (ih h)
    · simp at h

theorem root_prefix_finish {p : Parser} {ts : List Token} {nodes : List Node}
    (h : p.run ts >>= finish = .ok nodes) : p.root <+: nodes := by
  obtain ⟨p', hr, h⟩ := Except.bind_eq_ok_iff.1 h
  obtain rfl := finish_eq_ok_iff.1 h
  exact root_prefix_run hr

end Parser

end Stencil
