import Mathlib.Data.List.Induction
import Mathlib.Data.List.Perm.Basic
import Stencil.Table
/-!
Tables in order.

`Sorted` says that the keys increase, so that each occurs once.  `insert` and `erase` keep it, and in a
sorted table the entries are what look-ups find (`mem_iff_find?`).
-/

namespace Stencil.Table

variable {α β : Type}

/-- The keys increase. -/
def Sorted (t : Table α) : Prop :=
  t.Pairwise fun p q => p.1 < q.1

theorem sorted_nil : Sorted ([] : Table α) := List.Pairwise.nil

theorem sorted_cons {p : Text × α} {t : Table α} :
    Sorted (p :: t) ↔ (∀ q ∈ t, p.1 < q.1) ∧ Sorted t :=
  List.pairwise_cons

theorem lt_of_ne_of_not_lt {k k' : Text} (hne : k ≠ k') (h : ¬ k < k') : k' < k := by
  rcases Std.Trichotomous.rel_or_eq_or_rel_swap (r := fun a b : Text => a < b) (a := k) (b := k')
    with h' | h' | h'
  · exact absurd h' h
  · exact absurd h' hne
  · exact h'

theorem mem_insert {k : Text} {v : α} {t : Table α} {p : Text × α} (h : p ∈ insert k v t) :
    p = (k, v) ∨ p ∈ t := by
  induction t with
  | nil => simpa [insert] using h
  | cons q r ih =>
    unfold insert at h
    split at h
    · rcases List.mem_cons.1 h with h | h
      · exact .inl h
      · exact .inr (List.mem_cons_of_mem _ h)
    · split at h
      · rcases List.mem_cons.1 h with h | h
        · exact .inl h
        · exact .inr h
      · rcases List.mem_cons.1 h with h | h
        · exact .inr (h ▸ List.mem_cons_self)
        · exact (ih h).imp_right (List.mem_cons_of_mem _)

theorem sorted_insert {t : Table α} (h : Sorted t) (k : Text) (v : α) : Sorted (insert k v t) := by
  induction t with
  | nil => exact List.pairwise_singleton _ _
  | cons q r ih =>
    obtain ⟨k', v'⟩ := q
    obtain ⟨hq, hr⟩ := sorted_cons.1 h
    unfold insert
    split
    · next he =>
      subst he
      exact sorted_cons.2 ⟨hq, hr⟩
    · next hne =>
      split
      · next hlt =>
        refine sorted_cons.2 ⟨fun p hp => ?_, h⟩
        rcases List.mem_cons.1 hp with rfl | hp
        · exact hlt
        · exact List.lt_trans hlt (hq p hp)
      · next hnlt =>
        refine sorted_cons.2 ⟨fun p hp => ?_, ih hr⟩
        rcases mem_insert hp with rfl | hp
        · exact lt_of_ne_of_not_lt hne hnlt
        · exact hq p hp

theorem mem_of_find? {t : Table α} {k : Text} {v : α} (h : find? k t = some v) : (k, v) ∈ t := by
  induction t with
  | nil => exact nomatch h
  | cons q r ih =>
    unfold find? at h
    split at h
    · next hk =>
      subst hk
      exact Option.some.inj h ▸ List.mem_cons_self
    · exact List.mem_cons_of_mem _ (ih h)

/-- In a sorted table the entries are those that look-ups find. -/
theorem mem_iff_find? {t : Table α} (h : Sorted t) {k : Text} {v : α} :
    (k, v) ∈ t ↔ find? k t = some v := by
  induction t with
  | nil => simp [find?]
  | cons q r ih =>
    obtain ⟨k', v'⟩ := q
    obtain ⟨hq, hr⟩ := sorted_cons.1 h
    have hself : (k', v) ∉ r := fun hm => List.lt_irrefl k' (hq (k', v) hm)
    by_cases hk : k = k'
    · subst hk
      simp [find?, hself, eq_comm]
    · simp [find?, hk, ih hr]

/-- Tables in order with the same look-ups are the same. -/
theorem ext_of_sorted {t u : Table α} (ht : Sorted t) (hu : Sorted u)
    (h : ∀ k, find? k t = find? k u) : t = u := by
  have hmem (p : Text × α) : p ∈ t ↔ p ∈ u := by
    rw [mem_iff_find? ht, mem_iff_find? hu, h]
  have hnodup {v : Table α} (hv : Sorted v) : v.Nodup := by
    refine List.Pairwise.imp ?_ hv
    rintro p q hlt rfl
    exact List.lt_irrefl _ hlt
  refine List.Perm.eq_of_pairwise (fun p q _ _ hpq hqp => ?_) ht hu
    ((List.perm_ext_iff_of_nodup (hnodup ht) (hnodup hu)).2 hmem)
  exact absurd (List.lt_trans hpq hqp) (List.lt_irrefl _)

theorem mem_keys_iff {t : Table α} {k : Text} : k ∈ keys t ↔ ∃ v, find? k t = some v := by
  constructor
  · intro h
    induction t with
    | nil => simp [keys] at h
    | cons q r ih =>
      by_cases hk : k = q.1
      · exact ⟨q.2, by simp [find?, hk]⟩
      · have hr : k ∈ keys r := by simpa [keys, hk] using h
        obtain ⟨v, hv⟩ := ih hr
        exact ⟨v, by simp [find?, hk, hv]⟩
  · rintro ⟨v, hv⟩
    exact mem_keys_of_find? hv

theorem nodup_keys {t : Table α} (h : Sorted t) : t.keys.Nodup := by
  unfold keys
  rw [List.Nodup, List.pairwise_map]
  refine List.Pairwise.imp ?_ h
  intro p q hlt he
  exact List.lt_irrefl _ (he ▸ hlt)

theorem sorted_of_keys {t : Table α} (h : t.keys.Pairwise (· < ·)) : t.Sorted :=
  List.pairwise_map.1 h

theorem sorted_map_iff {t : Table α} {f : α → β} : Sorted (t.map fun p => (p.1, f p.2)) ↔ Sorted t :=
  List.pairwise_map

/-- What `filterMap` keeps of a sorted table is sorted, if it keeps the keys. -/
theorem sorted_filterMap {t : Table α} (h : Sorted t) {f : Text × α → Option (Text × β)}
    (hf : ∀ p q, f p = some q → q.1 = p.1) : Sorted (t.filterMap f) := by
  unfold Sorted
  rw [List.pairwise_filterMap]
  refine List.Pairwise.imp ?_ h
  intro p q hlt p' hp q' hq
  rw [hf p p' hp, hf q q' hq]
  exact hlt

theorem find?_map (f : α → β) (t : Table α) (k : Text) :
    find? k (t.map fun p => (p.1, f p.2)) = (find? k t).map f := by
  induction t with
  | nil => rfl
  | cons p r ih =>
    by_cases hk : k = p.1
    · simp [find?, hk]
    · simp [find?, hk, ih]

theorem length_insert_of_none {k : Text} {t : Table α} (h : find? k t = none) (v : α) :
    (insert k v t).length = t.length + 1 := by
  induction t with
  | nil => rfl
  | cons p r ih =>
    obtain ⟨a, w⟩ := p
    unfold find? at h
    split at h
    · cases h
    · next hk =>
      rw [insert, if_neg hk]
      split
      · rfl
      · exact congrArg (· + 1) (ih h)

theorem insert_map (f : α → β) (k : Text) (v : α) (t : Table α) :
    insert k (f v) (t.map fun p => (p.1, f p.2)) = (insert k v t).map fun p => (p.1, f p.2) := by
  induction t with
  | nil => rfl
  | cons p r ih =>
    rw [List.map_cons]
    unfold insert
    split
    · rfl
    · split
      · rfl
      · rw [ih, List.map_cons]

/-- Of two entries for one key the later stays. -/
theorem insert_insert (k : Text) (v w : α) (t : Table α) :
    insert k w (insert k v t) = insert k w t := by
  induction t with
  | nil => simp [insert]
  | cons p r ih =>
    obtain ⟨k', v'⟩ := p
    by_cases hk : k = k'
    · simp [insert, hk]
    · by_cases hlt : k < k'
      · simp [insert, hk, hlt]
      · simp [insert, hk, hlt, ih]

theorem erase_of_none {k : Text} {t : Table α} (h : find? k t = none) : erase k t = t := by
  induction t with
  | nil => rfl
  | cons p r ih =>
    unfold find? at h
    split at h
    · cases h
    · next hk => rw [erase, if_neg hk, ih h]

/-- An entry that is taken back leaves nothing. -/
theorem erase_insert {k : Text} {t : Table α} (h : find? k t = none) (v : α) :
    erase k (insert k v t) = t := by
  induction t with
  | nil => simp [insert, erase]
  | cons p r ih =>
    obtain ⟨k', v'⟩ := p
    have hall := erase_of_none h
    unfold find? at h
    split at h
    · cases h
    · next hk =>
      by_cases hlt : k < k'
      · simp [insert, hk, hlt, erase, erase_of_none h]
      · simp [insert, hk, hlt, erase, ih h]

/-- Filtering by the key leaves the look-ups of the keys that pass. -/
theorem find?_filter (keep : Text → Bool) (t : Table α) (k : Text) :
    find? k (t.filter fun p => keep p.1) = if keep k then find? k t else none := by
  induction t with
  | nil => simp [find?]
  | cons p r ih =>
    rw [List.filter_cons]
    by_cases hk : k = p.1
    · subst hk
      cases hp : keep p.1 <;> simp [find?, hp, ih]
    · cases hp : keep p.1 <;> simp [find?, hk, ih]

/-- What is not overridden stays. -/
theorem find?_merge_of_none {base t : Table α} {k : Text} (h : find? k t = none) :
    find? k (merge base t) = find? k base := by
  unfold merge
  induction t generalizing base with
  | nil => rfl
  | cons p t ih =>
    obtain ⟨k', v⟩ := p
    unfold find? at h
    split at h
    · cases h
    · next hk => rw [List.foldl_cons, ih h, find?_insert, if_neg hk]

theorem mem_of_mem_merge {base t : Table α} {p : Text × α} (h : p ∈ merge base t) : p ∈ base ∨ p ∈ t := by
  unfold merge at h
  induction t generalizing base with
  | nil => exact .inl h
  | cons q t ih =>
    rcases ih h with h | h
    · rcases mem_insert h with rfl | h
      · exact .inr List.mem_cons_self
      · exact .inl h
    · exact .inr (List.mem_cons_of_mem _ h)

/-! ## Tables of pairs -/

theorem insert_of_lt {k : Text} {v : α} {t : Table α} (h : ∀ p ∈ t, p.1 < k) :
    insert k v t = t ++ [(k, v)] := by
  induction t with
  | nil => rfl
  | cons p t ih =>
    have hp : p.1 < k := h p List.mem_cons_self
    have hne : k ≠ p.1 := fun he => List.lt_irrefl k (he ▸ hp)
    have hnlt : ¬ k < p.1 := fun hlt => List.lt_irrefl k (List.lt_trans hlt hp)
    rw [insert, if_neg hne, if_neg hnlt, ih fun q hq => h q (List.mem_cons_of_mem _ hq), List.cons_append]

theorem ofPairs_concat (t : List (Text × α)) (p : Text × α) :
    ofPairs (t ++ [p]) = insert p.1 p.2 (ofPairs t) := by
  rw [ofPairs, List.foldl_append]
  rfl

/-- Pairs in order are their own table. -/
theorem ofPairs_of_sorted {t : Table α} (h : Sorted t) : ofPairs t = t := by
  induction t using List.reverseRecOn with
  | nil => rfl
  | append_singleton t p ih =>
    obtain ⟨ht, -, hlt⟩ := List.pairwise_append.1 h
    rw [ofPairs_concat, ih ht, insert_of_lt fun q hq => hlt q hq p List.mem_cons_self]

theorem sorted_ofPairs (t : List (Text × α)) : Sorted (ofPairs t) := by
  induction t using List.reverseRecOn with
  | nil => exact sorted_nil
  | append_singleton t p ih =>
    rw [ofPairs_concat]
    exact sorted_insert ih p.1 p.2

theorem mem_of_mem_ofPairs {t : List (Text × α)} {p : Text × α} (h : p ∈ ofPairs t) : p ∈ t := by
  induction t using List.reverseRecOn with
  | nil => exact h
  | append_singleton t q ih =>
    rw [ofPairs_concat] at h
    rcases mem_insert h with rfl | h
    · exact List.mem_concat_self
    · exact List.mem_append_left _ (ih h)

end Stencil.Table
