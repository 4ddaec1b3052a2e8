import Mathlib
import Stencil.CommandLine
import Stencil.Resolution.DepthFirst
import Stencil.Proofs.Resolution.Reachable
import Stencil.Proofs.Table
/-!
What is printed of an outline.

`entries` are the trees of an outline in the order of their lines.  A traversal (`Traced`) marks an entry just
when its reference has come before (`Marks`), and puts below an unmarked one what its reference leads to
(`Below`).  From this follows which references are shown in full and, by counting, how many entries are marked
(`shows_outline`, `dependenciesText_outline`).
-/

namespace Stencil.Outline

/-! ## Entries -/

def reference : Outline → Text
  | entry r _ _ => r

def repeated : Outline → Bool
  | entry _ m _ => m

def children : Outline → List Outline
  | entry _ _ cs => cs

@[simp] theorem reference_entry (r : Text) (m : Bool) (cs : List Outline) :
    (entry r m cs).reference = r := rfl

@[simp] theorem repeated_entry (r : Text) (m : Bool) (cs : List Outline) :
    (entry r m cs).repeated = m := rfl

@[simp] theorem children_entry (r : Text) (m : Bool) (cs : List Outline) :
    (entry r m cs).children = cs := rfl

/-- Induction over outlines: an entry with what stands below it, then those that follow it. -/
theorem forest_induction {P : List Outline → Prop} (nil : P [])
    (cons : ∀ r m cs rest, P cs → P rest → P (entry r m cs :: rest)) : ∀ ts, P ts
  | [] => nil
  | entry r m cs :: rest =>
    cons r m cs rest (forest_induction nil cons cs) (forest_induction nil cons rest)

/-- All entries, in the order of their lines. -/
def entries : List Outline → List Outline
  | [] => []
  | entry r m cs :: rest => entry r m cs :: (entries cs ++ entries rest)

@[simp] theorem entries_nil : entries [] = [] := by
  simp [entries]

@[simp] theorem entries_cons (r : Text) (m : Bool) (cs rest : List Outline) :
    entries (entry r m cs :: rest) = entry r m cs :: (entries cs ++ entries rest) := by
  simp [entries]

theorem mem_entries {ts : List Outline} {t : Outline} (h : t ∈ ts) : t ∈ entries ts := by
  induction ts with
  | nil => simp at h
  | cons u rest ih =>
    obtain ⟨r, m, cs⟩ := u
    rcases List.mem_cons.1 h with rfl | h
    · simp
    · simp [ih h]

/-- What stands below an entry is part of the outline. -/
theorem mem_entries_of_children {ts : List Outline} {t c : Outline} (ht : t ∈ entries ts)
    (hc : c ∈ t.children) : c ∈ entries ts := by
  induction ts using forest_induction with
  | nil => simp at ht
  | cons r m cs rest ihc ihr =>
    simp only [entries_cons, List.mem_cons, List.mem_append] at ht ⊢
    rcases ht with rfl | ht | ht
    · exact .inr (.inl (mem_entries hc))
    · exact .inr (.inl (ihc ht))
    · exact .inr (.inr (ihr ht))

/-- What holds of the first level and passes from each entry to those below it holds of all entries. -/
theorem forall_entries {P : Outline → Prop} {ts : List Outline} (top : ∀ t ∈ ts, P t)
    (below : ∀ t ∈ entries ts, P t → ∀ c ∈ t.children, P c) : ∀ t ∈ entries ts, P t := by
  induction ts using forest_induction with
  | nil => simp
  | cons r m cs rest ihc ihr =>
    simp only [entries_cons, List.mem_cons, List.mem_append, forall_eq_or_imp] at top below ⊢
    refine ⟨top.1, fun t ht => ?_⟩
    rcases ht with ht | ht
    · exact ihc (below.1 top.1) (fun t ht => below.2 t (.inl ht)) t ht
    · exact ihr top.2 (fun t ht => below.2 t (.inr ht)) t ht

/-- Each entry stands on the first level or below one other entry. -/
theorem length_entries (ts : List Outline) :
    (entries ts).length = ts.length + ((entries ts).map fun t => t.children.length).sum := by
  induction ts using forest_induction with
  | nil => simp
  | cons r m cs rest ihc ihr =>
    simp only [entries_cons, List.length_cons, List.length_append, List.map_cons, List.map_append,
      List.sum_cons, List.sum_append, children_entry]
    omega

/-- The references that are shown in full. -/
def unmarked (ts : List Outline) : List Text :=
  ((entries ts).filter fun t => !t.repeated).map reference

def marked (ts : List Outline) : List Text :=
  ((entries ts).filter repeated).map reference

theorem length_marked (ts : List Outline) :
    (marked ts).length + (unmarked ts).length = (entries ts).length := by
  unfold marked unmarked
  rw [List.length_map, List.length_map, ← List.length_eq_length_filter_add]

theorem anyRepeated_iff (ts : List Outline) : anyRepeated ts = true ↔ 0 < (marked ts).length := by
  have hany : anyRepeated ts = (entries ts).any repeated := by
    induction ts using forest_induction with
    | nil => simp [anyRepeated]
    | cons r m cs rest ihc ihr => simp [anyRepeated, hasRepeated, ihc, ihr, Bool.or_assoc]
  rw [hany, marked, List.length_map, List.length_pos_iff, ne_eq, List.filter_eq_nil_iff]
  simp

/-! ## Lines -/

/-- An entry on its line. -/
structure Placed where
  /-- Of each entry that this one stands below, the outermost first: whether it is the last of its siblings. -/
  above : List Bool
  last : Bool
  tree : Outline

namespace Placed

def level (p : Placed) : Nat :=
  p.above.length

/-- The line of an entry: a stroke for each level on which siblings follow, a branch, the reference and the
mark. -/
def line (p : Placed) : Text :=
  p.above.flatMap (fun b => (if b then "    " else "│   ").toList) ++
    (if p.last then "└── " else "├── ").toList ++ p.tree.reference ++
    (if p.tree.repeated then " (*)" else "").toList ++ ['\n']

end Placed

/-- The entries on their lines, all of them below others as `above` tells. -/
def place (above : List Bool) : List Outline → List Placed
  | [] => []
  | entry r m cs :: rest =>
    ⟨above, rest.isEmpty, entry r m cs⟩ :: (place (above ++ [rest.isEmpty]) cs ++ place above rest)

@[simp] theorem place_nil (above : List Bool) : place above [] = [] := by
  simp [place]

@[simp] theorem place_cons (above : List Bool) (r : Text) (m : Bool) (cs rest : List Outline) :
    place above (entry r m cs :: rest) =
      ⟨above, rest.isEmpty, entry r m cs⟩ ::
        (place (above ++ [rest.isEmpty]) cs ++ place above rest) := by
  simp [place]

theorem place_tree (above : List Bool) (ts : List Outline) :
    (place above ts).map Placed.tree = entries ts := by
  induction ts using forest_induction generalizing above with
  | nil => simp
  | cons r m cs rest ihc ihr => simp [ihc, ihr]

theorem allLines_eq (above : List Bool) (ts : List Outline) :
    allLines (above.flatMap fun b => (if b then "    " else "│   ").toList) ts =
      (place above ts).flatMap Placed.line := by
  induction ts using forest_induction generalizing above with
  | nil => simp [allLines]
  | cons r m cs rest ihc ihr =>
    have hc := ihc (above ++ [rest.isEmpty])
    rw [List.flatMap_append, List.flatMap_singleton] at hc
    rw [allLines, lines, hc, ihr, place_cons, List.flatMap_cons, List.flatMap_append]
    cases m <;> simp [Placed.line]

theorem above_le_level {above : List Bool} {ts : List Outline} {p : Placed} (h : p ∈ place above ts) :
    above.length ≤ p.level := by
  induction ts using forest_induction generalizing above with
  | nil => simp at h
  | cons r m cs rest ihc ihr =>
    simp only [place_cons, List.mem_cons, List.mem_append] at h
    rcases h with rfl | h | h
    · exact Nat.le_refl _
    · have := ihc h
      rw [List.length_append] at this
      omega
    · exact ihr h

theorem level_of_head {above : List Bool} {ts : List Outline} {p : Placed}
    (h : p ∈ (place above ts).head?) : p.level = above.length := by
  match ts with
  | [] => simp at h
  | entry r m cs :: rest =>
    rw [place_cons, List.head?_cons, Option.mem_some_iff] at h
    rw [← h, Placed.level]

/-- After an entry come those below it, one level deeper, and then none deeper than the entry itself. -/
theorem place_split {above : List Bool} {ts : List Outline} {before after : List Placed} {p : Placed}
    (h : place above ts = before ++ p :: after) :
    ∃ rest, after = place (p.above ++ [p.last]) p.tree.children ++ rest ∧
      ∀ q ∈ rest.head?, q.level ≤ p.level := by
  induction ts using forest_induction generalizing above before after with
  | nil => simp at h
  | cons r m cs rest ihc ihr =>
    rw [place_cons] at h
    cases before with
    | nil =>
      obtain ⟨rfl, rfl⟩ := List.cons.inj h
      exact ⟨place above rest, rfl, fun q hq => Nat.le_of_eq (level_of_head hq)⟩
    | cons b before =>
      obtain ⟨rfl, hr⟩ := List.cons.inj h
      rcases List.append_eq_append_iff.1 hr with ⟨as, hb, ht⟩ | ⟨as, hb, ht⟩
      -- the entry stands further on on the same level
      · exact ihr ht
      · cases as with
        | nil =>
          have hrest : place above rest = [] ++ p :: after := by simpa using ht.symm
          exact ihr hrest
        -- it stands below the first one
        | cons a as =>
          obtain ⟨rfl, rfl⟩ := List.cons.inj ht
          obtain ⟨more, rfl, hmore⟩ := ihc hb
          refine ⟨more ++ place above rest, List.append_assoc _ _ _, fun q hq => ?_⟩
          cases more with
          | nil =>
            have hp : p ∈ place (above ++ [rest.isEmpty]) cs := by simp [hb]
            have := above_le_level hp
            rw [level_of_head hq]
            rw [List.length_append] at this
            omega
          | cons x more => exact hmore q hq

/-! ## Traversals -/

/-- What a reference leads to, if the table tells. -/
def own (deps : Table (List Text)) (r : Text) : List Text :=
  (deps.find? r).getD []

/-- What a traversal that starts with the references in `seen` makes of a list of references, and what it has
seen after it. -/
inductive Traced (deps : Table (List Text)) : List Text → List Text → List Outline → List Text → Prop
  | nil {seen : List Text} : Traced deps seen [] [] seen
  | again {seen seen' refs : List Text} {r : Text} {ts : List Outline} : r ∈ seen →
      Traced deps seen refs ts seen' → Traced deps seen (r :: refs) (entry r true [] :: ts) seen'
  | fresh {seen seen₁ seen' refs : List Text} {r : Text} {cs ts : List Outline} : r ∉ seen →
      Traced deps (r :: seen) (own deps r) cs seen₁ → Traced deps seen₁ refs ts seen' →
      Traced deps seen (r :: refs) (entry r false cs :: ts) seen'

theorem traced_ofReferences (deps : Table (List Text)) (refs seen : List Text) :
    Traced deps seen refs (ofReferences deps refs seen).1.1 (ofReferences deps refs seen).1.2 := by
  fun_induction ofReferences deps refs seen with
  | case1 seen => exact .nil
  | case2 seen r rest hs q ih => exact .again hs ih
  | case3 seen r rest hs hd q ih => exact .fresh hs (by rw [Outline.own, hd]; exact .nil) ih
  | case4 seen r rest hs own hd c q ihc ihr => exact .fresh hs (by rw [Outline.own, hd]; exact ihc) ihr

/-- An entry is marked just when its reference is in `seen` or has come before. -/
def Marks (seen : List Text) : List Outline → Prop
  | [] => True
  | t :: l => (t.repeated = true ↔ t.reference ∈ seen) ∧ Marks (t.reference :: seen) l

/-- Below an entry stands what its reference leads to, or nothing if it is marked. -/
def Below (deps : Table (List Text)) (t : Outline) : Prop :=
  t.children.map reference = if t.repeated then [] else own deps t.reference

theorem Marks.congr {seen seen' : List Text} {l : List Outline} (h : Marks seen l)
    (hs : ∀ r, r ∈ seen ↔ r ∈ seen') : Marks seen' l := by
  induction l generalizing seen seen' with
  | nil => trivial
  | cons t l ih => exact ⟨h.1.trans (hs _), ih h.2 fun r => by simp [hs r]⟩

theorem marks_append {seen : List Text} {l m : List Outline} :
    Marks seen (l ++ m) ↔ Marks seen l ∧ Marks ((l.map reference).reverse ++ seen) m := by
  induction l generalizing seen with
  | nil => simp [Marks]
  | cons t l ih => simp [Marks, ih, and_assoc]

namespace Traced

variable {deps : Table (List Text)} {seen refs seen' : List Text} {ts : List Outline}

theorem top (h : Traced deps seen refs ts seen') : ts.map reference = refs := by
  induction h with
  | nil => rfl
  | again hs hr ih => rw [List.map_cons, ih, reference_entry]
  | fresh hs hc hr ihc ihr => rw [List.map_cons, ihr, reference_entry]

theorem below_entries (h : Traced deps seen refs ts seen') : ∀ t ∈ entries ts, Below deps t := by
  induction h with
  | nil => simp
  | again hs hr ih => simpa [Below] using ih
  | fresh hs hc hr ihc ihr =>
    simp only [entries_cons, List.mem_cons, List.mem_append, forall_eq_or_imp]
    exact ⟨by simpa [Below] using hc.top, fun t ht => ht.elim (ihc t) (ihr t)⟩

theorem mem_seen (h : Traced deps seen refs ts seen') (r : Text) :
    r ∈ seen' ↔ r ∈ seen ∨ r ∈ (entries ts).map reference := by
  induction h with
  | nil => simp
  | again hs hr ih =>
    rw [ih]
    simp only [entries_cons, entries_nil, List.nil_append, List.map_cons, List.mem_cons,
      reference_entry]
    grind
  | fresh hs hc hr ihc ihr =>
    rw [ihr, ihc]
    simp only [entries_cons, List.map_cons, List.map_append, List.mem_cons, List.mem_append,
      reference_entry]
    tauto

theorem marks (h : Traced deps seen refs ts seen') : Marks seen (entries ts) := by
  induction h with
  | nil => rw [entries_nil]; trivial
  | again hs hr ih =>
    rw [entries_cons, entries_nil, List.nil_append]
    exact ⟨by simpa using hs, ih.congr fun r => by simp; grind⟩
  | fresh hs hc hr ihc ihr =>
    rw [entries_cons]
    refine ⟨by simpa using hs, marks_append.2 ⟨ihc, ?_⟩⟩
    exact ihr.congr fun r => by rw [hc.mem_seen]; simp [or_comm]

end Traced

theorem mem_unmarked {ts : List Outline} {r : Text} :
    r ∈ unmarked ts ↔ ∃ t ∈ entries ts, t.repeated = false ∧ t.reference = r := by
  simp [unmarked, and_assoc]

namespace Marks

variable {seen : List Text} {l : List Outline}

/-- No reference is shown in full twice, or if it is in `seen`. -/
theorem nodup (h : Marks seen l) :
    ((l.filter fun t => !t.repeated).map reference).Nodup ∧
      ∀ r ∈ (l.filter fun t => !t.repeated).map reference, r ∉ seen := by
  induction l generalizing seen with
  | nil => simp
  | cons t l ih =>
    obtain ⟨ht, hl⟩ := h
    obtain ⟨hn, hd⟩ := ih hl
    cases hm : t.repeated with
    | true =>
      rw [List.filter_cons_of_neg (by simp [hm])]
      exact ⟨hn, fun r hr hs => hd r hr (List.mem_cons_of_mem _ hs)⟩
    | false =>
      rw [List.filter_cons_of_pos (by simp [hm]), List.map_cons, List.nodup_cons]
      refine ⟨⟨fun hr => hd _ hr List.mem_cons_self, hn⟩, fun r hr => ?_⟩
      rcases List.mem_cons.1 hr with rfl | hr
      · exact fun hs => by simp [hm] at ht; exact ht hs
      · exact fun hs => hd r hr (List.mem_cons_of_mem _ hs)

/-- Each reference that occurs is in `seen` or occurs unmarked. -/
theorem exists_unmarked (h : Marks seen l) {r : Text} (hr : r ∈ l.map reference) :
    r ∈ seen ∨ ∃ u ∈ l, u.repeated = false ∧ u.reference = r := by
  induction l generalizing seen with
  | nil => simp at hr
  | cons t l ih =>
    obtain ⟨ht, hl⟩ := h
    have hhead : t.reference ∈ seen ∨ t.repeated = false := by
      cases hm : t.repeated with
      | true => exact .inl (ht.1 hm)
      | false => exact .inr rfl
    have hnew : t.reference = r →
        r ∈ seen ∨ ∃ u ∈ t :: l, u.repeated = false ∧ u.reference = r := by
      rintro rfl
      exact hhead.imp_right fun hm => ⟨t, List.mem_cons_self, hm, rfl⟩
    rcases List.mem_cons.1 hr with he | hr
    · exact hnew he.symm
    · rcases ih hl hr with hs | ⟨u, hu, hm⟩
      · exact (List.mem_cons.1 hs).elim (fun he => hnew he.symm) .inl
      · exact .inr ⟨u, List.mem_cons_of_mem _ hu, hm⟩

/-- A marked entry comes after an unmarked one with its reference. -/
theorem earlier {before after : List Outline} {t : Outline} (h : Marks [] (before ++ t :: after))
    (ht : t.repeated = true) : ∃ u ∈ before, u.repeated = false ∧ u.reference = t.reference := by
  obtain ⟨hb, hm, -⟩ := marks_append.1 h
  have hr : t.reference ∈ before.map reference := by simpa using hm.1 ht
  exact (hb.exists_unmarked hr).resolve_left List.not_mem_nil

end Marks

/-! ## What an outline shows -/

/-- The references that the given ones lead to by way of a table. -/
def Reached (deps : Table (List Text)) (references : List Text) : Text → Prop :=
  Resolution.Reachable id (Loader.ofTable deps).answer references

theorem answer_ofTable {deps : Table (List Text)} {r : Text} {refs : List Text} :
    (Loader.ofTable deps).answer r = .ok refs ↔ deps.find? r = some refs := by
  unfold Loader.ofTable
  dsimp only
  split <;> simp [*]

/-- The outline `ts` shows what `references` lead to. -/
structure Shows (deps : Table (List Text)) (references : List Text) (ts : List Outline) : Prop where
  top : ts.map reference = references
  /-- Each reference that is reached is shown by one unmarked entry, and no other reference is. -/
  nodup : (unmarked ts).Nodup
  mem_iff : ∀ r, r ∈ unmarked ts ↔ Reached deps references r
  /-- Below an unmarked entry follow those of what it leads to, one level deeper and each with what stands
  below it; then comes an entry that stands no deeper than the unmarked one, or none. -/
  full : ∀ {before after p}, place [] ts = before ++ p :: after → p.tree.repeated = false →
    deps.find? p.tree.reference = some (p.tree.children.map reference) ∧
    ∃ rest, after = place (p.above ++ [p.last]) p.tree.children ++ rest ∧
      ∀ q ∈ rest.head?, q.level ≤ p.level
  /-- Below a marked entry nothing follows, and an unmarked one with its reference stands before it. -/
  again : ∀ {before after p}, place [] ts = before ++ p :: after → p.tree.repeated = true →
    p.tree.children = [] ∧
    ∃ q ∈ before, q.tree.repeated = false ∧ q.tree.reference = p.tree.reference
  /-- How many entries are marked, for any enumeration of the references that are reached. -/
  count : ∀ needed : List Text, needed.Nodup → (∀ r, r ∈ needed ↔ Reached deps references r) →
    (marked ts).length + needed.length =
      references.length + (needed.map fun r => (own deps r).length).sum

section

variable {deps : Table (List Text)} {seen references seen' : List Text} {ts : List Outline}

/-- The table has the given references and all that its entries refer to. -/
structure Covers (deps : Table (List Text)) (references : List Text) : Prop where
  given : ∀ r ∈ references, r ∈ deps.keys
  closed : ∀ d ∈ deps, ∀ r ∈ d.2, r ∈ deps.keys

theorem Covers.reached (h : Covers deps references) {r : Text} (hr : Reached deps references r) :
    ∃ refs, deps.find? r = some refs := by
  rw [← Table.mem_keys_iff]
  cases hr with
  | direct hr => exact h.given r hr
  | through _ ha hr => exact h.closed _ (Table.mem_of_find? (answer_ofTable.1 ha)) r hr

theorem Traced.mem_entries_iff (h : Traced deps [] references ts seen') (r : Text) :
    r ∈ (entries ts).map reference ↔ Reached deps references r := by
  constructor
  · have hall : ∀ t ∈ entries ts, Reached deps references t.reference := by
      refine forall_entries (fun t ht => .direct ?_) fun t ht hr c hc => ?_
      · rw [id_eq, ← h.top]
        exact List.mem_map_of_mem ht
      · have ho := h.below_entries t ht
        unfold Below at ho
        have hm : c.reference ∈ t.children.map reference := List.mem_map_of_mem hc
        rw [ho] at hm
        split at hm
        · simp at hm
        · cases hd : deps.find? t.reference with
          | none => simp [own, hd] at hm
          | some refs => exact .through hr (answer_ofTable.2 hd) (by simpa [own, hd] using hm)
    intro hr
    obtain ⟨t, ht, rfl⟩ := List.mem_map.1 hr
    exact hall t ht
  · intro hr
    induction hr with
    | direct hr =>
      rw [id_eq, ← h.top] at hr
      obtain ⟨t, ht, rfl⟩ := List.mem_map.1 hr
      exact List.mem_map_of_mem (mem_entries ht)
    | through _ ha hs ih =>
      -- the reference that leads to it is shown in full somewhere
      obtain ⟨t, ht, hm, rfl⟩ := (h.marks.exists_unmarked ih).resolve_left List.not_mem_nil
      have ho := h.below_entries t ht
      simp only [Below, hm, own, answer_ofTable.1 ha, Option.getD_some, Bool.false_eq_true,
        if_false] at ho
      rw [id_eq, ← ho] at hs
      obtain ⟨c, hc, rfl⟩ := List.mem_map.1 hs
      exact List.mem_map_of_mem (mem_entries_of_children ht hc)

theorem Traced.mem_unmarked_iff (h : Traced deps [] references ts seen') (r : Text) :
    r ∈ unmarked ts ↔ Reached deps references r := by
  rw [← h.mem_entries_iff, mem_unmarked]
  constructor
  · rintro ⟨t, ht, -, rfl⟩
    exact List.mem_map_of_mem ht
  · intro hr
    exact (h.marks.exists_unmarked hr).resolve_left List.not_mem_nil

/-- Entries stand below unmarked ones only, below each of them as many as its reference leads to. -/
theorem sum_children {l : List Outline} (h : ∀ t ∈ l, Below deps t) :
    (l.map fun t => t.children.length).sum =
      (((l.filter fun t => !t.repeated).map reference).map fun r => (own deps r).length).sum := by
  induction l with
  | nil => rfl
  | cons t l ih =>
    obtain ⟨ht, hl⟩ := List.forall_mem_cons.1 h
    have hlen : t.children.length = if t.repeated then 0 else (own deps t.reference).length := by
      have := congrArg List.length ht
      rw [List.length_map] at this
      rw [this]
      split <;> rfl
    rw [List.map_cons, List.sum_cons, ih hl, hlen]
    cases hm : t.repeated <;> simp [hm]

/-- A traversal from the start shows all that is reached. -/
theorem Traced.shows (h : Traced deps [] references ts seen') (hc : Covers deps references) :
    Shows deps references ts where
  top := h.top
  nodup := h.marks.nodup.1
  mem_iff := h.mem_unmarked_iff
  full := by
    intro before after p hp hm
    refine ⟨?_, place_split hp⟩
    have ht : p.tree ∈ entries ts := by rw [← place_tree [] ts, hp]; simp
    obtain ⟨refs, hr⟩ := hc.reached ((h.mem_unmarked_iff p.tree.reference).1
      (mem_unmarked.2 ⟨p.tree, ht, hm, rfl⟩))
    have ho := h.below_entries _ ht
    rw [Below, hm, own, hr] at ho
    rw [hr, ho]
    rfl
  again := by
    intro before after p hp hm
    have he : entries ts = before.map Placed.tree ++ p.tree :: after.map Placed.tree := by
      rw [← place_tree [] ts, hp, List.map_append, List.map_cons]
    have ho := h.below_entries p.tree (by rw [he]; simp)
    rw [Below, if_pos hm, List.map_eq_nil_iff] at ho
    obtain ⟨u, hu, hq⟩ := (he ▸ h.marks).earlier hm
    obtain ⟨q, hqb, rfl⟩ := List.mem_map.1 hu
    exact ⟨ho, q, hqb, hq⟩
  count := by
    intro needed hn hmem
    have hperm : (unmarked ts).Perm needed :=
      (List.perm_ext_iff_of_nodup h.marks.nodup.1 hn).2 fun r =>
        (h.mem_unmarked_iff r).trans (hmem r).symm
    have hlen := length_entries ts
    have hsum : ((entries ts).map fun t => t.children.length).sum =
        (needed.map fun r => (own deps r).length).sum :=
      (sum_children h.below_entries).trans (hperm.map _).sum_eq
    rw [hsum, ← length_marked, hperm.length_eq] at hlen
    rw [hlen, ← h.top, List.length_map]

end

theorem shows_outline {deps : Table (List Text)} {references : List Text} (h : Covers deps references) :
    Shows deps references (outline deps references) :=
  (traced_ofReferences deps references []).shows h

end Stencil.Outline

namespace Stencil.CommandLine

open Outline

/-- What the program prints of the dependencies of a template: each reference that is reached in full once,
all other occurrences marked, and a legend if there are any. -/
theorem dependenciesText_outline (title : Text) (root : Template) (deps : Table Instance)
    (h : Covers (ownReferences deps) root.references) :
    ∃ ts, Shows (ownReferences deps) root.references ts ∧
      dependenciesText .text title root deps =
        title ++ '\n' :: (place [] ts).flatMap Placed.line ++
          (if 0 < (marked ts).length then "\n(*) = listed above\n" else "").toList := by
  refine ⟨outline (ownReferences deps) root.references, shows_outline h, ?_⟩
  have hlines := allLines_eq [] (outline (ownReferences deps) root.references)
  rw [List.flatMap_nil] at hlines
  simp only [dependenciesText, text, hlines, anyRepeated_iff]

/-- A template that refers to itself. -/
theorem dependenciesText_circle :
    ∃ t, Template.parse .identity (open2 ++ "> a".toList ++ close2) = .ok t ∧
      Covers (ownReferences [(['a'], ⟨.given, t⟩)]) t.references ∧
      ∃ ts, Shows (ownReferences [(['a'], ⟨.given, t⟩)]) t.references ts ∧
        "page\n└── a\n    └── a (*)\n\n(*) = listed above\n".toList =
          "page".toList ++ '\n' :: (place [] ts).flatMap Placed.line ++
            (if 0 < (marked ts).length then "\n(*) = listed above\n" else "").toList := by
  have hp : ∃ t, Template.parse .identity (open2 ++ "> a".toList ++ close2) = .ok t ∧
      t.references = [['a']] := ⟨_, by cbv, rfl⟩
  obtain ⟨t, ht, hr⟩ := hp
  have hc : Covers (ownReferences [(['a'], ⟨.given, t⟩)]) t.references := by
    constructor <;> simp [hr, ownReferences, Instance.references, Table.keys]
  obtain ⟨ts, hs, htext⟩ := dependenciesText_outline "page".toList t [(['a'], ⟨.given, t⟩)] hc
  refine ⟨t, ht, hc, ts, hs, ?_⟩
  rw [← htext]
  simp only [dependenciesText, ownReferences, Instance.references, List.map, hr]
  cbv

end Stencil.CommandLine
