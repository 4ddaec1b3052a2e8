import Stencil.Resolution
import Stencil.Proofs.Resolution.Roster
/-!
What a root template needs, and in which order a breadth-first search meets it.

`Reachable` follows references through the templates that a loader answers with.  `BreadthFirst` is the
order of a queue: first what the root refers to, then what each listed template refers to, in the order
of the list and without what is listed already.  There is at most one such order (`unique`).
-/

namespace Stencil.Resolution

variable {α : Type}

/-- The references that a root template needs: its own, and those of the templates that references it
needs are answered with. -/
inductive Reachable (references : α → List Text) (answer : Text → Except TemplateError α) (root : α) :
    Text → Prop
  | direct {s : Text} : s ∈ references root → Reachable references answer root s
  | through {r s : Text} {t : α} : Reachable references answer root r → answer r = .ok t →
      s ∈ references t → Reachable references answer root s

section

variable {references : α → List Text} {answer : Text → Except TemplateError α} {root : α}

/-- What a template needs is needed by all that refer to it. -/
theorem Reachable.of_direct {r s : Text} {t : α} (hr : r ∈ references root) (ha : answer r = .ok t)
    (h : Reachable references answer t s) : Reachable references answer root s := by
  induction h with
  | direct hs => exact .through (.direct hr) ha hs
  | through _ ha' hs ih => exact .through ih ha' hs

end

/-- The references of the template that a reference is answered with. -/
def onward (references : α → List Text) (answer : Text → Except TemplateError α) (r : Text) :
    List Text :=
  match answer r with
  | .ok t => references t
  | .error _ => []

/-- The references that a search in the given order comes across, as often as it does. -/
def mentioned (references : α → List Text) (answer : Text → Except TemplateError α) (root : α)
    (order : List Text) : List Text :=
  references root ++ order.flatMap (onward references answer)

/-- A list of all that is needed, each reference once and in the order in which a search that goes
through the list comes across it. -/
structure BreadthFirst (references : α → List Text) (answer : Text → Except TemplateError α) (root : α)
    (order : List Text) : Prop where
  mem_iff : ∀ s, s ∈ order ↔ Reachable references answer root s
  discovery : order = (mentioned references answer root order).eraseDups

theorem mem_onward {references : α → List Text} {answer : Text → Except TemplateError α} {r s : Text} :
    s ∈ onward references answer r ↔ ∃ t, answer r = .ok t ∧ s ∈ references t := by
  unfold onward
  split
  · next t ht => simp [ht]
  · next e he => simp [he]

theorem nodup_eraseDups (l : List Text) : l.eraseDups.Nodup := by
  rw [← Roster.claim_empty (α := Unit)]
  exact Roster.nodup_claim _ _

theorem take_of_prefix {l m : List Text} {k : Nat} (h : m <+: l) (hk : k ≤ m.length) :
    m.take k = l.take k := by
  obtain ⟨t, rfl⟩ := h
  rw [List.take_append_of_le_length hk]

namespace BreadthFirst

variable {references : α → List Text} {answer : Text → Except TemplateError α} {root : α}
  {order order' : List Text}

theorem nodup (h : BreadthFirst references answer root order) : order.Nodup := by
  rw [h.discovery]
  exact nodup_eraseDups _

/-- What a search has come across after a part of the order is where the order begins. -/
theorem mentioned_prefix (h : BreadthFirst references answer root order) {p : List Text}
    (hp : p <+: order) : (mentioned references answer root p).eraseDups <+: order := by
  obtain ⟨q, hq⟩ := hp
  have hm : mentioned references answer root order =
      mentioned references answer root p ++ q.flatMap (onward references answer) := by
    rw [← hq, mentioned, mentioned, List.flatMap_append, List.append_assoc]
  rw [h.discovery, hm, List.eraseDups_append]
  exact List.prefix_append _ _

/-- A part of the order that a search cannot leave is all of it. -/
theorem eq_of_closed (h : BreadthFirst references answer root order) {p : List Text}
    (hp : p <+: order) (hc : ∀ s ∈ mentioned references answer root p, s ∈ p) : p = order := by
  have hall : ∀ s, Reachable references answer root s → s ∈ p := by
    intro s hs
    induction hs with
    | direct hs => exact hc _ (List.mem_append_left _ hs)
    | through _ ha hs ih =>
      exact hc _ (List.mem_append_right _ (List.mem_flatMap.2 ⟨_, ih, mem_onward.2 ⟨_, ha, hs⟩⟩))
  obtain ⟨q, rfl⟩ := hp
  have hd := (List.nodup_append.1 h.nodup).2.2
  have hq : q = [] := by
    refine List.eq_nil_iff_forall_not_mem.2 fun s hs => ?_
    have hr := (h.mem_iff s).1 (List.mem_append_right _ hs)
    exact hd s (hall s hr) s hs rfl
  rw [hq, List.append_nil]

/-- There is one breadth-first order. -/
theorem unique (h : BreadthFirst references answer root order)
    (h' : BreadthFirst references answer root order') : order = order' := by
  have hk : ∀ k, order.take k = order'.take k := by
    intro k
    induction k with
    | zero => rfl
    | succ k ih =>
      have hp : order.take k <+: order := List.take_prefix _ _
      have hp' : order.take k <+: order' := ih ▸ List.take_prefix _ _
      have hm := h.mentioned_prefix hp
      have hm' := h'.mentioned_prefix hp'
      rcases Nat.lt_or_ge k (mentioned references answer root (order.take k)).eraseDups.length
        with hlt | hle
      -- the search has come across the next reference
      · rw [← take_of_prefix hm hlt, ← take_of_prefix hm' hlt]
      -- it has come across nothing new, so that both orders end here
      · have hc : ∀ s ∈ mentioned references answer root (order.take k), s ∈ order.take k := by
          intro s hs
          have hl := List.prefix_of_prefix_length_le hm hp (by
            rw [List.length_take]
            have := hm.length_le
            omega)
          exact hl.subset (List.mem_eraseDups.2 hs)
        rw [← h.eq_of_closed hp hc, ← h'.eq_of_closed hp' hc]
  have := hk (max order.length order'.length)
  rwa [List.take_of_length_le (Nat.le_max_left _ _),
    List.take_of_length_le (Nat.le_max_right _ _)] at this

end BreadthFirst

end Stencil.Resolution
