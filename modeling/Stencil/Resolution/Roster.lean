import Stencil.Table
/-!
The references met so far in a resolution.

A reference is claimed when it is first met, awaits its template, and is settled when the template has
come.  `claim` hands out each reference once: what it returns is new (`claim_fresh`), and what it was
given is on the roster afterwards (`contains_claim`).
-/

namespace Stencil

inductive Standing (α : Type)
  | awaited
  | settled (value : α)
  deriving Repr

/-- The references met so far, each with its standing. -/
structure Roster (α : Type) where
  entries : Table (Standing α)
  deriving Repr

namespace Roster

variable {α : Type}

def empty : Roster α := ⟨[]⟩

def contains (w : Roster α) (r : Text) : Bool :=
  w.entries.contains r

/-- Whether the reference has been claimed and its template has not come. -/
def isAwaited (w : Roster α) (r : Text) : Bool :=
  match w.entries.find? r with
  | some .awaited => true
  | _ => false

def size (w : Roster α) : Nat :=
  w.entries.length

def isEmpty (w : Roster α) : Bool :=
  w.entries.isEmpty

def await (w : Roster α) (r : Text) : Roster α :=
  ⟨w.entries.insert r .awaited⟩

def settle (w : Roster α) (r : Text) (value : α) : Roster α :=
  ⟨w.entries.insert r (.settled value)⟩

/-- The settled references with their templates. -/
def settled (w : Roster α) : Table α :=
  w.entries.filterMap fun e =>
    match e.2 with
    | .awaited => none
    | .settled value => some (e.1, value)

/-- Claims the references that are new, in order, and lists them. -/
def claim (w : Roster α) : List Text → List Text × Roster α
  | [] => ([], w)
  | r :: rs =>
    if w.contains r then claim w rs
    else
      let p := claim (w.await r) rs
      (r :: p.1, p.2)

/-! ## What the operations do to membership -/

theorem contains_await (w : Roster α) (r s : Text) :
    (w.await r).contains s = (decide (s = r) || w.contains s) := by
  simp only [await, contains, Table.contains, Table.find?_insert]
  by_cases h : s = r <;> simp [h]

theorem contains_settle (w : Roster α) (r s : Text) (value : α) :
    (w.settle r value).contains s = (decide (s = r) || w.contains s) := by
  simp only [settle, contains, Table.contains, Table.find?_insert]
  by_cases h : s = r <;> simp [h]

theorem contains_claim (w : Roster α) (rs : List Text) (s : Text) :
    (w.claim rs).2.contains s = (decide (s ∈ rs) || w.contains s) := by
  induction rs generalizing w with
  | nil => simp [claim]
  | cons r rs ih =>
    unfold claim
    split
    · next h =>
      rw [ih]
      by_cases hs : s = r <;> simp_all
    · rw [ih, contains_await]
      by_cases hs : s = r <;> simp [hs]

/-- A claimed reference was among those given and not on the roster. -/
theorem claim_fresh (w : Roster α) (rs : List Text) {s : Text} (h : s ∈ (w.claim rs).1) :
    s ∈ rs ∧ w.contains s = false := by
  induction rs generalizing w with
  | nil => simp [claim] at h
  | cons r rs ih =>
    unfold claim at h
    split at h
    · exact ⟨List.mem_cons_of_mem _ (ih w h).1, (ih w h).2⟩
    · next hr =>
      rcases List.mem_cons.1 h with rfl | h
      · exact ⟨List.mem_cons_self, by simpa using hr⟩
      · have := ih _ h
        rw [contains_await] at this
        exact ⟨List.mem_cons_of_mem _ this.1, by simp_all⟩

end Roster

end Stencil
