import Stencil.Resolution
import Stencil.Text.Distance
/-!
Resolution against a fixed table of templates, depth first.

All that one template refers to is claimed and looked up before the first of those templates is followed
further.
-/

namespace Stencil

namespace TemplateError

/-- The error of a reference that no candidate answers. -/
def notFound (reference : Text) (candidates : List Text) : TemplateError :=
  referenceNotFound reference (Text.closeMatches reference candidates)

end TemplateError

/-- Answers from a table alone. -/
def Loader.ofTable {α : Type} (templates : Table α) : Loader α where
  answer r :=
    match templates.find? r with
    | some t => .ok t
    | none => .error (.notFound r templates.keys)
  finite := ⟨templates.keys, fun r t h => by
    split at h
    · next ht => exact Table.mem_keys_of_find? ht
    · simp at h⟩

namespace Resolution

variable {α : Type}

theorem unclaimed_le (known : List Text) {w w' : Roster α}
    (h : ∀ s, w.contains s = true → w'.contains s = true) :
    unclaimed known w' ≤ unclaimed known w := by
  apply List.countP_mono_left
  intro s _ hs
  cases hw : w.contains s
  · rfl
  · simp [h s hw] at hs

/-- Visits the templates of a stack and all they refer to. -/
def walk (references : α → List Text) (loader : Loader α) (w : Roster α) :
    List (Visit α) → Except TemplateError (Roster α)
  | [] => .ok w
  | v :: stack =>
    let found := discover references w [v]
    match _hs : settleLevel loader.answer found.2 found.1 with
    | (_, .error e) => .error e
    | (w', .ok next) => walk references loader w' (next ++ stack)
termination_by stack => (unclaimed loader.known w, stack.length)
decreasing_by
  have hgrow : ∀ s, w.contains s = true → w'.contains s = true := by
    intro s hs
    have := contains_settleLevel loader.answer found.2 found.1
      (contains_discover references w [v] hs)
    rwa [_hs] at this
  have hok : (settleLevel loader.answer found.2 found.1).2 = .ok next := by rw [_hs]
  by_cases hq : found.1 = []
  · have hnext : next = [] := by
      rw [hq] at hok
      exact (Except.ok.inj hok).symm
    rw [hnext]
    rcases Nat.lt_or_eq_of_le (unclaimed_le loader.known hgrow) with h | h
    · exact Prod.Lex.left _ _ h
    · rw [h]
      exact Prod.Lex.right _ (by simp)
  · obtain ⟨q, hq⟩ := List.exists_mem_of_ne_nil _ hq
    have hf := discover_fresh references w [v] hq
    obtain ⟨t, ht⟩ := settleLevel_answers hok q hq
    have := contains_settleLevel loader.answer found.2 found.1 hf.2
    rw [_hs] at this
    exact Prod.Lex.left _ _ (unclaimed_lt (loader.mem_known ht) hf.1 this hgrow)

/-- The templates of a table that `root` needs, directly or through others, by reference. -/
def within (references : α → List Text) (templates : Table α) (root : α) :
    Except TemplateError (Table α) :=
  (walk references (Loader.ofTable templates) Roster.empty [⟨[], root⟩]).map Roster.settled

end Resolution

end Stencil
