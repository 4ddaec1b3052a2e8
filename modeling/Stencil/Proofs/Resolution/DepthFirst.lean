import Stencil.Resolution.DepthFirst
import Stencil.Proofs.Resolution.Walk
import Stencil.Proofs.Except
/-!
What a resolution against a fixed table finds.

The walk settles a reference with what its loader answers and never settles it again, so what it finds
are entries of the table (`mem_within`).
-/

namespace Stencil

variable {α : Type} {references : α → List Text}

/-- The roster is in order, and what is settled is what the references are answered with. -/
structure Roster.Faithful (answer : Text → Except TemplateError α) (w : Roster α) : Prop where
  sorted : w.Sorted
  settled : ∀ s t, w.standing? s = some (.settled t) → answer s = .ok t

namespace Resolution

theorem faithful_empty (answer : Text → Except TemplateError α) : Roster.empty.Faithful answer :=
  ⟨Roster.sorted_empty, fun _ _ h => nomatch h⟩

variable {answer : Text → Except TemplateError α} {w w' : Roster α}

theorem faithful_discover (h : w.Faithful answer) (vs : List (Visit α)) :
    (discover references w vs).2.Faithful answer := by
  refine ⟨sorted_discover h.sorted vs, fun s t hs => ?_⟩
  rw [roster_discover, Roster.standing?_claim] at hs
  split at hs
  · exact nomatch hs
  · exact h.settled s t hs

theorem faithful_settleLevel {qs : List Request} {vs : List (Visit α)} (h : w.Faithful answer)
    (hs : settleLevel answer w qs = (w', .ok vs)) : w'.Faithful answer := by
  refine ⟨sorted_settleLevel h.sorted hs, fun s t ht => ?_⟩
  rw [(settleLevel_ok hs).2] at ht
  split at ht
  · obtain ⟨u, hu, he⟩ := Option.map_eq_some_iff.1 ht
    obtain rfl := Standing.settled.inj he
    exact Except.toOption_eq_some_iff.1 hu
  · exact h.settled s t ht

theorem faithful_walk {loader : Loader α} {stack : List (Visit α)} (h : w.Faithful loader.answer)
    (hw : walk references loader w stack = .ok w') : w'.Faithful loader.answer := by
  fun_induction walk references loader w stack with
  | case1 w => exact Except.ok.inj hw ▸ h
  | case2 w v stack found w₁ e hs => exact nomatch hw
  | case3 w v stack found w₁ next hs ih => exact ih (faithful_settleLevel (faithful_discover h _) hs) hw

/-- What a resolution against a table finds is in the table. -/
theorem mem_within {templates deps : Table α} {root : α}
    (h : within references templates root = .ok deps) :
    deps.Sorted ∧ ∀ k t, (k, t) ∈ deps → templates.find? k = some t := by
  obtain ⟨w, hw, rfl⟩ := Except.map_eq_ok_iff.1 h
  have hf := faithful_walk (faithful_empty _) hw
  have hsort := Roster.sorted_settled hf.sorted
  refine ⟨hsort, fun k t hm => ?_⟩
  have ha := hf.settled k t ((Roster.find?_settled hf.sorted k t).1 ((Table.mem_iff_find? hsort).1 hm))
  simp only [Loader.ofTable] at ha
  split at ha
  · next u hu => rw [hu, Except.ok.inj ha]
  · cases ha

end Resolution

end Stencil
