import Stencil.Resolution.Roster
import Stencil.Proofs.Table
/-!
What a roster hands out and what it keeps.

`claim` hands out, in order and once each, the references that are not on the roster (`claim_eq`).  On
the empty roster that is the list without its repetitions.
-/

namespace Stencil.Roster

variable {α : Type}

/-! ## Claims -/

theorem contains_empty (s : Text) : (empty : Roster α).contains s = false := rfl

theorem claim_cons_old {w : Roster α} {r : Text} (h : w.contains r = true) (rs : List Text) :
    w.claim (r :: rs) = w.claim rs := by
  rw [claim, if_pos h]

theorem claim_cons_new {w : Roster α} {r : Text} (h : ¬ w.contains r = true) (rs : List Text) :
    w.claim (r :: rs) = (r :: ((w.await r).claim rs).1, ((w.await r).claim rs).2) := by
  rw [claim, if_neg h]

/-- A claim hands out, at their first place, the references that are new. -/
theorem claim_eq (w : Roster α) (rs : List Text) :
    (w.claim rs).1 = (rs.filter fun r => !w.contains r).eraseDups := by
  induction rs generalizing w with
  | nil => rfl
  | cons r rs ih =>
    by_cases h : w.contains r = true
    · rw [claim_cons_old h, ih, List.filter_cons_of_neg (by simpa using h)]
    · have hf : (fun s => !(w.await r).contains s) = fun s => !s == r && !w.contains s := by
        funext s
        by_cases hs : s = r <;> simp [contains_await, hs]
      rw [claim_cons_new h, ih, hf, List.filter_cons_of_pos (by simpa using h), List.eraseDups_cons,
        List.filter_filter]

theorem claim_empty (rs : List Text) : ((empty : Roster α).claim rs).1 = rs.eraseDups := by
  rw [claim_eq, List.filter_eq_self.2 fun r _ => by rw [contains_empty, Bool.not_false]]

theorem mem_claim {w : Roster α} {rs : List Text} {s : Text} :
    s ∈ (w.claim rs).1 ↔ s ∈ rs ∧ w.contains s = false := by
  rw [claim_eq, List.mem_eraseDups, List.mem_filter]
  simp

theorem nodup_claim (w : Roster α) (rs : List Text) : (w.claim rs).1.Nodup := by
  induction rs generalizing w with
  | nil => exact List.nodup_nil
  | cons r rs ih =>
    by_cases h : w.contains r = true
    · rw [claim_cons_old h]
      exact ih w
    · rw [claim_cons_new h]
      refine List.nodup_cons.2 ⟨fun hr => ?_, ih _⟩
      have := (mem_claim.1 hr).2
      simp [contains_await] at this

/-- Claiming in two parts hands out the same. -/
theorem claim_append (w : Roster α) (rs ss : List Text) :
    w.claim (rs ++ ss) =
      ((w.claim rs).1 ++ ((w.claim rs).2.claim ss).1, ((w.claim rs).2.claim ss).2) := by
  induction rs generalizing w with
  | nil => rfl
  | cons r rs ih =>
    rw [List.cons_append]
    by_cases h : w.contains r = true
    · rw [claim_cons_old h, claim_cons_old h, ih]
    · rw [claim_cons_new h, claim_cons_new h, ih]
      rfl

/-- What a claim hands out depends only on which references are on the roster. -/
theorem claim_congr {w w' : Roster α} (h : ∀ s, w.contains s = w'.contains s) (rs : List Text) :
    (w.claim rs).1 = (w'.claim rs).1 := by
  rw [claim_eq, claim_eq]
  simp [h]

/-! ## Entries -/

/-- The standing of a reference on the roster. -/
def standing? (w : Roster α) (s : Text) : Option (Standing α) :=
  w.entries.find? s

theorem contains_eq (w : Roster α) (s : Text) : w.contains s = (w.standing? s).isSome := rfl

theorem standing?_await (w : Roster α) (r s : Text) :
    (w.await r).standing? s = if s = r then some .awaited else w.standing? s :=
  Table.find?_insert s r _ w.entries

theorem standing?_settle (w : Roster α) (r s : Text) (t : α) :
    (w.settle r t).standing? s = if s = r then some (.settled t) else w.standing? s :=
  Table.find?_insert s r _ w.entries

/-- A claim makes what it hands out awaited and leaves the rest. -/
theorem standing?_claim (w : Roster α) (rs : List Text) (s : Text) :
    (w.claim rs).2.standing? s =
      if s ∈ (w.claim rs).1 then some .awaited else w.standing? s := by
  induction rs generalizing w with
  | nil => simp [claim]
  | cons r rs ih =>
    by_cases h : w.contains r = true
    · rw [claim_cons_old h]
      exact ih w
    · rw [claim_cons_new h]
      simp only [ih, standing?_await, List.mem_cons]
      by_cases hs : s = r <;> simp [hs]

/-- The keys of a roster increase. -/
def Sorted (w : Roster α) : Prop :=
  w.entries.Sorted

theorem sorted_empty : (empty : Roster α).Sorted := Table.sorted_nil

theorem sorted_settle {w : Roster α} (h : w.Sorted) (r : Text) (t : α) : (w.settle r t).Sorted :=
  Table.sorted_insert h _ _

theorem sorted_claim {w : Roster α} (h : w.Sorted) (rs : List Text) : (w.claim rs).2.Sorted := by
  induction rs generalizing w with
  | nil => exact h
  | cons r rs ih =>
    by_cases hr : w.contains r = true
    · rw [claim_cons_old hr]
      exact ih h
    · rw [claim_cons_new hr]
      exact ih (Table.sorted_insert h _ _)

theorem sorted_settled {w : Roster α} (h : w.Sorted) : w.settled.Sorted := by
  refine Table.sorted_filterMap h ?_
  intro p q hq
  split at hq
  · simp at hq
  · rw [← Option.some.inj hq]

/-- The settled templates are the entries with one. -/
theorem find?_settled {w : Roster α} (h : w.Sorted) (s : Text) (t : α) :
    w.settled.find? s = some t ↔ w.standing? s = some (.settled t) := by
  rw [← Table.mem_iff_find? (sorted_settled h), standing?, ← Table.mem_iff_find? h, settled,
    List.mem_filterMap]
  constructor
  · rintro ⟨⟨k, st⟩, hm, he⟩
    cases st with
    | awaited => simp at he
    | settled u =>
      simp only [Option.some.injEq, Prod.mk.injEq] at he
      obtain ⟨rfl, rfl⟩ := he
      exact hm
  · intro hm
    exact ⟨_, hm, rfl⟩

end Stencil.Roster
