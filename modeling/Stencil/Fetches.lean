import Stencil.Template
import Stencil.TemplateError
/-!
The record of fetched templates, shared by all scopes of an engine.

A request for an identifier is given the task that is on record for it.  If there is none it makes one and
puts it on record, where it stays until the next purge.  A task is settled once, with a template or with an
error, and keeps its outcome, also after a purge for those who still hold it.
-/

namespace Stencil

/-- A task that fetches an identifier.  Every task that is made has a name of its own: it goes by the number
of purges before it was made, and by how many have been made for the identifier since the last of them. -/
structure Task where
  identifier : Text
  epoch : Nat
  number : Nat
  deriving DecidableEq, Repr

/-- Where a template comes from: it was given as a partial, or a task fetched it. -/
inductive Origin
  | given
  | fetched (task : Task)
  deriving DecidableEq, Repr

/-- A template together with its origin. -/
structure Instance where
  origin : Origin
  template : Template

namespace Instance

def references (i : Instance) : List Text :=
  i.template.references

end Instance

abbrev Outcome := Except TemplateError Instance

structure Fetches where
  /-- How many purges there have been. -/
  epoch : Nat
  /-- The tasks that requests are given. -/
  entries : Table Task
  /-- How many tasks have been made for an identifier since the last purge. -/
  made : Table Nat
  /-- The tasks that are settled, those of earlier epochs among them. -/
  settled : List (Task × Outcome)
  /-- How many requests since the last purge have found a task. -/
  hits : Nat
  /-- How many requests since the last purge have made one. -/
  misses : Nat

namespace Fetches

def empty : Fetches := ⟨0, [], [], [], 0, 0⟩

def contains (f : Fetches) (identifier : Text) : Bool :=
  f.entries.contains identifier

def size (f : Fetches) : Nat :=
  f.entries.length

/-- A new task for an identifier. -/
def fresh (f : Fetches) (identifier : Text) : Task :=
  ⟨identifier, f.epoch, (f.made.find? identifier).getD 0⟩

/-- The task on record for an identifier, or a new one, which is put on record. -/
def request (f : Fetches) (identifier : Text) : Task × Fetches :=
  match f.entries.find? identifier with
  | some t => (t, { f with hits := f.hits + 1 })
  | none =>
    let t := f.fresh identifier
    (t, { f with
      entries := f.entries.insert identifier t
      made := f.made.insert identifier (t.number + 1)
      misses := f.misses + 1 })

def outcome? (f : Fetches) (t : Task) : Option Outcome :=
  f.settled.lookup t

@[simp] theorem outcome?_request (f : Fetches) (identifier : Text) (t : Task) :
    (f.request identifier).2.outcome? t = f.outcome? t := by
  unfold request outcome?
  split <;> rfl

/-- A task is on record for the identifier, or a new one is made for it. -/
theorem request_fst (f : Fetches) (identifier : Text) :
    (∃ t, f.entries.find? identifier = some t ∧ (f.request identifier).1 = t) ∨
      f.entries.find? identifier = none ∧ (f.request identifier).1 = f.fresh identifier := by
  unfold request
  cases f.entries.find? identifier with
  | some t => exact .inl ⟨t, rfl, rfl⟩
  | none => exact .inr ⟨rfl, rfl⟩

theorem mem_settled {f : Fetches} {t : Task} {o : Outcome} (h : f.outcome? t = some o) :
    (t, o) ∈ f.settled := by
  unfold outcome? at h
  revert h
  induction f.settled with
  | nil => simp
  | cons p r ih =>
    obtain ⟨t', o'⟩ := p
    intro h
    rw [List.lookup_cons] at h
    split at h
    · next heq =>
      obtain rfl := Option.some.inj h
      rw [beq_iff_eq.1 heq]
      exact List.mem_cons_self
    · exact List.mem_cons_of_mem _ (ih h)

def settle (f : Fetches) (t : Task) (o : Outcome) : Fetches :=
  { f with settled := (t, o) :: f.settled }

/-- Takes all tasks off the record; what is settled stays for those who hold its task. -/
def purge (f : Fetches) : Fetches :=
  { f with epoch := f.epoch + 1, entries := [], made := [], hits := 0, misses := 0 }

end Fetches

end Stencil
