import Stencil.Table
import Stencil.Text
/-!
Outlines: what a template depends on, as a tree that shows each reference with its own references once.

`outline` goes through references depth first.  A reference that has been shown before is marked and not
gone into, so that the outline is finite also where references run in circles.
-/

namespace Stencil

/-- A reference; `repeated` marks one that is shown in full before. -/
inductive Outline
  | entry (reference : Text) (repeated : Bool) (children : List Outline)
  deriving Inhabited, Repr

namespace Outline

/-- How many of the templates have not been shown. -/
def unseen (deps : Table (List Text)) (seen : List Text) : Nat :=
  deps.keys.countP fun k => decide (k ∉ seen)

theorem unseen_mono {deps : Table (List Text)} {seen seen' : List Text}
    (h : ∀ x ∈ seen, x ∈ seen') : unseen deps seen' ≤ unseen deps seen := by
  apply List.countP_mono_left
  intro k _ hk
  simp only [decide_eq_true_eq] at hk ⊢
  exact fun hs => hk (h k hs)

theorem countP_cons_lt {r : Text} {seen keys : List Text} (hm : r ∈ keys) (hs : r ∉ seen) :
    keys.countP (fun k => decide (k ∉ r :: seen)) < keys.countP fun k => decide (k ∉ seen) := by
  induction keys with
  | nil => simp at hm
  | cons k ks ih =>
    have hle : ks.countP (fun k => decide (k ∉ r :: seen)) ≤
        ks.countP fun k => decide (k ∉ seen) := by
      apply List.countP_mono_left
      intro x _ hx
      simp only [List.mem_cons, not_or, decide_eq_true_eq] at hx ⊢
      exact hx.2
    rw [List.countP_cons, List.countP_cons]
    by_cases hk : k = r
    · subst hk
      rw [if_neg (by simp), if_pos (by simpa using hs)]
      omega
    · have := ih ((List.mem_cons.1 hm).resolve_left (Ne.symm hk))
      have hw : decide (k ∉ r :: seen) = decide (k ∉ seen) := by simp [hk]
      rw [hw]
      omega

theorem unseen_cons_lt {deps : Table (List Text)} {seen : List Text} {r : Text} {refs : List Text}
    (hr : deps.find? r = some refs) (hs : r ∉ seen) :
    unseen deps (r :: seen) < unseen deps seen :=
  countP_cons_lt (Table.mem_keys_of_find? hr) hs

/-- The outline of a list of references, of which those in `seen` have been shown, and all that have been
shown after it. -/
def ofReferences (deps : Table (List Text)) (refs seen : List Text) :
    { p : List Outline × List Text // ∀ x ∈ seen, x ∈ p.2 } :=
  match refs with
  | [] => ⟨([], seen), fun _ h => h⟩
  | r :: rest =>
    if _hs : r ∈ seen then
      let q := ofReferences deps rest seen
      ⟨(entry r true [] :: q.1.1, q.1.2), q.2⟩
    else
      match _hd : deps.find? r with
      | none =>
        let q := ofReferences deps rest (r :: seen)
        ⟨(entry r false [] :: q.1.1, q.1.2), fun x h => q.2 x (List.mem_cons_of_mem _ h)⟩
      | some own =>
        let c := ofReferences deps own (r :: seen)
        let q := ofReferences deps rest c.1.2
        ⟨(entry r false c.1.1 :: q.1.1, q.1.2),
          fun x h => q.2 x (c.2 x (List.mem_cons_of_mem _ h))⟩
termination_by (unseen deps seen, refs.length)
decreasing_by
  · exact Prod.Lex.right _ (by simp)
  · have hle : unseen deps (r :: seen) ≤ unseen deps seen :=
      unseen_mono fun _ h => List.mem_cons_of_mem _ h
    rcases Nat.lt_or_eq_of_le hle with h | h
    · exact Prod.Lex.left _ _ h
    · rw [h]; exact Prod.Lex.right _ (by simp)
  · exact Prod.Lex.left _ _ (unseen_cons_lt _hd _hs)
  · exact Prod.Lex.left _ _
      (Nat.lt_of_le_of_lt (unseen_mono c.2) (unseen_cons_lt _hd _hs))

/-! ## Text -/

mutual

/-- Whether a marked reference is part of the outline. -/
def hasRepeated : Outline → Bool
  | entry _ repeated children => repeated || anyRepeated children

def anyRepeated : List Outline → Bool
  | [] => false
  | t :: rest => hasRepeated t || anyRepeated rest

end

mutual

/-- The lines of an entry; `indent` begins each, and `last` tells that no sibling follows. -/
def lines (indent : Text) (last : Bool) : Outline → Text
  | entry reference repeated children =>
    indent ++ (if last then "└── " else "├── ").toList ++ reference ++
      (if repeated then " (*)" else "").toList ++ '\n' ::
      allLines (indent ++ (if last then "    " else "│   ").toList) children

def allLines (indent : Text) : List Outline → Text
  | [] => []
  | t :: rest => lines indent rest.isEmpty t ++ allLines indent rest

end

/-- An outline below its title, with a legend if it has marks. -/
def text (title : Text) (ts : List Outline) : Text :=
  title ++ '\n' :: allLines [] ts ++
    (if anyRepeated ts then "\n(*) = listed above\n" else "").toList

end Outline

/-- The outline of what a template depends on, from its references and those of its dependencies. -/
def outline (deps : Table (List Text)) (references : List Text) : List Outline :=
  (Outline.ofReferences deps references []).1.1

end Stencil
