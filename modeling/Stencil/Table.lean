import Stencil.Text
/-!
Tables: finite maps from texts to values, kept as lists of pairs in the order of their keys.

`find?_insert` and `find?_erase` say what the operations do to look-ups.
-/

namespace Stencil

/-- A finite map from texts, listed by increasing keys. -/
abbrev Table (α : Type) := List (Text × α)

namespace Table

variable {α : Type}

def find? (k : Text) : Table α → Option α
  | [] => none
  | (k', v) :: r => if k = k' then some v else find? k r

/-- Whether the table has an entry for a key. -/
def contains (k : Text) (t : Table α) : Bool :=
  (find? k t).isSome

/-- Adds an entry, or replaces the one of the same key. -/
def insert (k : Text) (v : α) : Table α → Table α
  | [] => [(k, v)]
  | (k', v') :: r =>
    if k = k' then (k, v) :: r
    else if k < k' then (k, v) :: (k', v') :: r
    else (k', v') :: insert k v r

def erase (k : Text) : Table α → Table α
  | [] => []
  | (k', v) :: r => if k = k' then erase k r else (k', v) :: erase k r

/-- The keys, in increasing order. -/
def keys (t : Table α) : List Text :=
  t.map Prod.fst

/-- The table of a list of pairs; of two pairs with one key the later wins. -/
def ofPairs (pairs : List (Text × α)) : Table α :=
  pairs.foldl (fun t p => insert p.1 p.2 t) []

/-- The entries of `t` override those of `base`. -/
def merge (base t : Table α) : Table α :=
  t.foldl (fun acc p => insert p.1 p.2 acc) base

theorem mem_keys_of_find? {t : Table α} {k : Text} {v : α} (h : find? k t = some v) :
    k ∈ keys t := by
  induction t with
  | nil => simp [find?] at h
  | cons p r ih =>
    unfold find? at h
    split at h
    · next hk => simp [keys, hk]
    · exact List.mem_cons_of_mem _ (ih h)

theorem find?_insert (k k' : Text) (v : α) (t : Table α) :
    find? k (insert k' v t) = if k = k' then some v else find? k t := by
  induction t with
  | nil => simp [insert, find?]
  | cons p r ih =>
    obtain ⟨a, w⟩ := p
    unfold insert
    split
    · next h =>
      subst h
      by_cases hk : k = k' <;> simp [find?, hk]
    · next h =>
      split
      · simp [find?]
      · by_cases hk : k = a
        · subst hk
          simp [find?, Ne.symm h]
        · simp [find?, hk, ih]

theorem find?_erase (k k' : Text) (t : Table α) :
    find? k (erase k' t) = if k = k' then none else find? k t := by
  induction t with
  | nil => simp [erase, find?]
  | cons p r ih =>
    obtain ⟨a, w⟩ := p
    unfold erase
    split
    · next h =>
      subst h
      rw [ih]
      by_cases hk : k = k' <;> simp [find?, hk]
    · next h =>
      by_cases hk : k = a
      · subst hk
        simp [find?, Ne.symm h]
      · simp [find?, hk, ih]

end Table

end Stencil
