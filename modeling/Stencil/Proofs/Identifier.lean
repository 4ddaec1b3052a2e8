import Stencil.Proofs.Table
import Stencil.Proofs.Text.Cut
import Stencil.Template
/-!
Identifiers that are expanded again.

What stands in angle brackets is taken as it is, also if it is a compact identifier itself, and a namespace
can begin with the prefix of another one; so a key can have another key.  Where namespaces are full
identifiers (`IsAbsolute`) and brackets hold nothing that expands (`BracketsFull`), a key is its own key
(`key_key`).
-/

namespace Stencil

namespace Namespaces

/-- The texts that a name can be appended to. -/
def bases (ns : Namespaces) : List Text :=
  ns.fallback.toList ++ ns.prefixes.map Prod.snd

/-- The base is a full identifier: it has an authority, or a scheme that is none of the prefixes. -/
structure IsAbsolute (ns : Namespaces) (base : Text) : Prop where
  begins : ∃ c, base.head? = some c ∧ Text.isBlank c = false ∧ c ≠ '<'
  ends : ∃ c, base.getLast? = some c ∧ Text.isBlank c = false
  full : "://".toList <:+: base ∨ ∃ scheme rest, base = scheme ++ ':' :: rest ∧ scheme ≠ [] ∧
    ':' ∉ scheme ∧ ns.prefixes.find? scheme = none

/-- If the name is written in angle brackets, it is a key that way. -/
def BracketsFull (ns : Namespaces) (name : Text) : Prop :=
  ∀ inner, inBrackets? (Text.trim name) = some inner → Template.key (.namespaces ns) inner = inner

variable {ns : Namespaces} {base name : Text}

theorem inBrackets?_of_head {c : Char} (h : name.head? = some c) (hc : c ≠ '<') :
    inBrackets? name = none := by
  cases name with
  | nil => rfl
  | cons d r =>
    obtain rfl := Option.some.inj h
    unfold inBrackets?
    split
    · next he => exact absurd (List.cons.inj he).1 hc
    · rfl

theorem expand_trim (ns : Namespaces) (name : Text) : ns.expand (Text.trim name) = ns.expand name := by
  have htrim : Text.trim (Text.trim name) = Text.trim name := Text.trimBy_trimBy _ name
  rw [expand, expand, htrim]

/-- What a name is expanded to. -/
inductive Expands (ns : Namespaces) (name : Text) : Text → Prop
  | bracketed {inner : Text} : inBrackets? (Text.trim name) = some inner → Expands ns name inner
  | kept : Expands ns name (Text.trim name)
  | joined {base head rest : Text} : base ∈ ns.bases → Text.trim name = head ++ ':' :: rest →
      Expands ns name (base ++ rest)

theorem expands (ns : Namespaces) (name : Text) : ns.Expands name (ns.expand name) := by
  have split {head rest : Text} (h : Text.splitOnce ':' (Text.trim name) = some (head, rest)) :
      Text.trim name = head ++ ':' :: rest := by
    rw [Text.cut_eq h, List.append_assoc]
    rfl
  unfold expand
  simp only
  split
  · next inner hb => exact .bracketed hb
  · split
    · exact .kept
    · split
      · exact .kept
      · next rest hs =>
        cases hf : ns.fallback with
        | none => exact .kept
        | some base =>
          exact .joined (List.mem_append_left _ (by rw [hf]; exact List.mem_cons_self)) (split hs)
      · next head rest _ hs =>
        cases hf : ns.prefixes.find? head with
        | none => exact .kept
        | some base =>
          refine .joined (List.mem_append_right _ ?_) (split hs)
          exact List.mem_map.2 ⟨(head, base), Table.mem_of_find? hf, rfl⟩

namespace IsAbsolute

theorem head?_append (h : ns.IsAbsolute base) (name : Text) :
    ∃ c, (base ++ name).head? = some c ∧ Text.isBlank c = false ∧ c ≠ '<' := by
  obtain ⟨c, hc, hblank, hne⟩ := h.begins
  refine ⟨c, ?_, hblank, hne⟩
  rw [List.head?_append, hc]
  rfl

theorem trim_append (h : ns.IsAbsolute base)
    (hn : ∀ c, name.getLast? = some c → Text.isBlank c = false) :
    Text.trim (base ++ name) = base ++ name := by
  apply Text.trimBy_of_ends
  · intro c hc
    obtain ⟨c', hc', hblank, -⟩ := h.head?_append name
    obtain rfl := Option.some.inj (hc.symm.trans hc')
    exact hblank
  · intro c hc
    rw [List.getLast?_append] at hc
    cases hl : name.getLast? with
    | none =>
      obtain ⟨d, hd, hend⟩ := h.ends
      rw [hl, hd] at hc
      exact Option.some.inj hc ▸ hend
    | some l =>
      rw [hl] at hc
      exact Option.some.inj hc ▸ hn l hl

/-- A name appended to a full identifier is one. -/
theorem expand_append (h : ns.IsAbsolute base)
    (hn : ∀ c, name.getLast? = some c → Text.isBlank c = false) :
    ns.expand (base ++ name) = base ++ name := by
  obtain ⟨c, hc, -, hne⟩ := h.head?_append name
  unfold expand
  simp only [h.trim_append hn, inBrackets?_of_head hc hne]
  split
  · rfl
  · next hcut =>
    have hno : ¬ "://".toList <:+: base ++ name :=
      Text.not_infix_of_cut (Option.not_isSome_iff_eq_none.1 hcut)
    rcases h.full with hi | ⟨scheme, rest, rfl, hscheme, hcolon, hfind⟩
    · exact absurd (hi.trans (List.infix_append' [] base name)) hno
    · have hs : Text.splitOnce ':' (scheme ++ ':' :: rest ++ name) = some (scheme, rest ++ name) := by
        rw [List.append_assoc]
        exact Text.cut_of_notMem hcolon (rest ++ name)
      rw [hs]
      cases scheme with
      | nil => exact absurd rfl hscheme
      | cons c' r => simp [hfind]

end IsAbsolute

end Namespaces

namespace Template

variable {x : Expander} {ns : Namespaces} {name : Text}

theorem key_of_expand (h : x.expand name = name) : key x name = name := by
  unfold key
  split
  · exact h
  · rfl

/-- A key is its own key, where namespaces are full identifiers and brackets hold nothing that expands. -/
theorem key_key (hns : ∀ base ∈ ns.bases, ns.IsAbsolute base) (hn : ns.BracketsFull name) :
    key (.namespaces ns) (key (.namespaces ns) name) = key (.namespaces ns) name := by
  cases hr : Reference.isRemote name with
  | false =>
    have hk : key (.namespaces ns) name = name := if_neg (by rw [hr]; exact Bool.false_ne_true)
    rw [hk, hk]
  | true =>
    have hk : key (.namespaces ns) name = ns.expand name := if_pos hr
    rw [hk]
    have hexp := ns.expands name
    generalize he : ns.expand name = iri at hexp
    cases hexp with
    | bracketed hb => exact hn iri hb
    | kept =>
      apply key_of_expand
      exact (ns.expand_trim name).trans he
    | @joined base head rest hbase htrim =>
      apply key_of_expand
      refine (hns base hbase).expand_append fun c hc => ?_
      apply Text.getLast?_trimBy (s := name)
      change (Text.trim name).getLast? = some c
      rw [htrim, List.getLast?_append, List.getLast?_cons, hc]
      rfl

end Template

end Stencil
