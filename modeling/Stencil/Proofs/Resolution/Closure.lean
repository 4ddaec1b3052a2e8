import Mathlib.Data.List.Permutation
import Stencil.Resolution.DepthFirst
import Stencil.Proofs.Resolution.Walk
/-!
A resolution answers with the transitive closure.

`run_eq_closure`: from the empty roster the walk has one end; it succeeds just when everything that the
root needs is answered with a template, and then it gives exactly that, having asked for each reference
once and in breadth-first order.
-/

namespace Stencil.Resolution

variable {α : Type} {references : α → List Text} {loader : Loader α} {root : α}

/-- The walk of a resolution from the empty roster. -/
theorem ends_run : Ends references loader.answer Roster.empty [⟨[], root⟩] (run references loader root) :=
  ends_fromLevel loader _ _

theorem sorted_run : (run references loader root).roster.Sorted :=
  ends_run.sorted Roster.sorted_empty

theorem result_eq_ok_iff {r : Resolution α} {deps : Table α} :
    r.result = .ok deps ↔ r.failure = none ∧ r.roster.settled = deps := by
  unfold result
  cases r.failure <;> simp

/-- All that a resolution loads is needed by the root. -/
theorem reachable_of_mem_loads {s : Text} (h : s ∈ (run references loader root).loads) :
    Reachable references loader.answer root s := by
  obtain ⟨v, hv, hr⟩ := ends_run.reachable h
  rwa [List.mem_singleton.1 hv] at hr

/-- A resolution that succeeds loads what a search in the order of its loads comes across. -/
theorem loads_eq (h : (run references loader root).failure = none) :
    (run references loader root).loads =
      (mentioned references loader.answer root (run references loader root).loads).eraseDups := by
  rw [← Roster.claim_empty (α := α)]
  have hd := ends_run.discovery h
  rwa [List.flatMap_singleton] at hd

/-- A resolution that succeeds loads all that the root needs. -/
theorem mem_loads_of_reachable (h : (run references loader root).failure = none) {s : Text}
    (hs : Reachable references loader.answer root s) : s ∈ (run references loader root).loads := by
  induction hs with
  | direct hs =>
    rw [loads_eq h, List.mem_eraseDups]
    exact List.mem_append_left _ hs
  | through _ ha hs ih =>
    rw [loads_eq h, List.mem_eraseDups]
    exact List.mem_append_right _ (List.mem_flatMap.2 ⟨_, ih, mem_onward.2 ⟨_, ha, hs⟩⟩)

theorem breadthFirst_loads (h : (run references loader root).failure = none) :
    BreadthFirst references loader.answer root (run references loader root).loads :=
  ⟨fun _ => ⟨reachable_of_mem_loads, mem_loads_of_reachable h⟩, loads_eq h⟩

/-- A resolution fails only over a reference that the root needs. -/
theorem failure_eq_none_iff :
    (run references loader root).failure = none ↔
      ∀ s, Reachable references loader.answer root s → ∃ t, loader.answer s = .ok t := by
  constructor
  · intro h s hs
    exact ends_run.answered h (mem_loads_of_reachable h hs)
  · intro h
    cases hf : (run references loader root).failure with
    | none => rfl
    | some e =>
      obtain ⟨s, hs, e', he⟩ := ends_run.failing (by rw [hf]; simp)
      obtain ⟨t, ht⟩ := h s (reachable_of_mem_loads hs)
      simp [ht] at he

theorem find?_settled_run (h : (run references loader root).failure = none) (s : Text) (t : α) :
    (run references loader root).roster.settled.find? s = some t ↔
      Reachable references loader.answer root s ∧ loader.answer s = .ok t := by
  rw [Roster.find?_settled sorted_run, ends_run.standing?_roster h]
  constructor
  · intro hs
    split at hs
    · next hm =>
      obtain ⟨u, hu⟩ := ends_run.answered h hm
      simp only [hu, Except.toOption, Option.map_some, Option.some.injEq, Standing.settled.injEq] at hs
      exact ⟨reachable_of_mem_loads hm, by rw [hu, hs]⟩
    · simp [Roster.standing?, Roster.empty, Table.find?] at hs
  · rintro ⟨hr, ha⟩
    rw [if_pos (mem_loads_of_reachable h hr), ha]
    rfl

/-- A resolution comes to one end.  It succeeds just when every reference that the root needs is answered
with a template; then its table has these references, each with that template, and it has asked for
each of them once, in breadth-first order. -/
theorem run_eq_closure (references : α → List Text) (loader : Loader α) (root : α) :
    (∀ r, Ends references loader.answer Roster.empty [⟨[], root⟩] r ↔ r = run references loader root) ∧
    ((∃ deps, (run references loader root).result = .ok deps) ↔
      ∀ s, Reachable references loader.answer root s → ∃ t, loader.answer s = .ok t) ∧
    ∀ deps, (run references loader root).result = .ok deps →
      deps.keys.Nodup ∧
      (∀ s, s ∈ deps.keys ↔ Reachable references loader.answer root s) ∧
      (∀ s t, (s, t) ∈ deps → loader.answer s = .ok t) ∧
      (run references loader root).loads.Nodup ∧
      ∀ order, BreadthFirst references loader.answer root order ↔
        order = (run references loader root).loads := by
  refine ⟨fun r => ends_iff loader, ?_, ?_⟩
  · rw [← failure_eq_none_iff]
    simp [result_eq_ok_iff]
  · intro deps hd
    obtain ⟨hok, rfl⟩ := result_eq_ok_iff.1 hd
    have hs : (run references loader root).roster.settled.Sorted := Roster.sorted_settled sorted_run
    have hbf := breadthFirst_loads hok
    refine ⟨Table.nodup_keys hs, fun s => ?_, fun s t hm => ?_, hbf.nodup, fun order => ?_⟩
    · rw [Table.mem_keys_iff]
      constructor
      · rintro ⟨t, ht⟩
        exact ((find?_settled_run hok s t).1 ht).1
      · intro hr
        obtain ⟨t, ht⟩ := failure_eq_none_iff.1 hok s hr
        exact ⟨t, (find?_settled_run hok s t).2 ⟨hr, ht⟩⟩
    · exact ((find?_settled_run hok s t).1 ((Table.mem_iff_find? hs).1 hm)).2
    · constructor
      · intro h
        exact h.unique hbf
      · rintro rfl
        exact hbf

/-- Four references: `a` leads to `b` and `c`, both of them to `d`, `c` back to `a` and `d` to itself. -/
def knot : Table (List Text) :=
  [(['a'], [['b'], ['c']]), (['b'], [['d']]), (['c'], [['d'], ['a']]), (['d'], [['d']])]

theorem run_eq_closure_knot :
    (run id (Loader.ofTable knot) [['a']]).result = .ok knot ∧
    (∀ s, s ∈ knot.keys ↔ Reachable id (Loader.ofTable knot).answer [['a']] s) ∧
    BreadthFirst id (Loader.ofTable knot).answer [['a']] [['a'], ['b'], ['c'], ['d']] := by
  have hr : (run id (Loader.ofTable knot) [['a']]).result = .ok knot := by cbv
  have hl : (run id (Loader.ofTable knot) [['a']]).loads = [['a'], ['b'], ['c'], ['d']] := by cbv
  obtain ⟨-, -, hd⟩ := run_eq_closure id (Loader.ofTable knot) [['a']]
  obtain ⟨-, hk, -, -, hb⟩ := hd knot hr
  exact ⟨hr, hk, (hb _).2 hl.symm⟩

end Stencil.Resolution
