import Mathlib.Data.List.Sort
import Stencil.Proofs.Text.Bytes
import Stencil.Template.Lowering
/-!
Carrying out edits piece by piece.

When a source is cut into pieces and each edit lies in one piece, splicing the source is splicing the
pieces one after the other (`Edit.Fits.splice_append`), and the order in which the edits were collected
does not matter (`Edit.sorted_of_perm`).
-/

namespace Stencil

namespace Edit

variable {start : Nat} {s x a m b r : Text} {es fs : List Edit}

/-- What lies before the first edit is copied. -/
theorem splice_copy (h : ∀ e, es.head? = some e → start + Text.size a ≤ e.slice.start) :
    splice start (a ++ x) es = a ++ splice (start + Text.size a) x es := by
  cases es with
  | nil => rfl
  | cons e es =>
    have he := h e rfl
    have hcut := Text.splitAtByte_size_add a x (e.slice.start - (start + Text.size a))
    rw [show Text.size a + (e.slice.start - (start + Text.size a)) =
        e.slice.start - start by omega] at hcut
    simp only [splice, hcut, Text.size_append, Nat.add_assoc, List.append_assoc]

/-- An edit of what comes first puts its replacement there. -/
theorem splice_replace : splice start (m ++ x) (⟨⟨start, m⟩, r⟩ :: es) =
    r ++ splice (start + Text.size m) x es := by
  simp [splice, Slice.stop, Text.splitAtByte_zero, Text.splitAtByte_size]

theorem splice_between : splice start (a ++ (m ++ x)) (⟨⟨start + Text.size a, m⟩, r⟩ :: es) =
    a ++ (r ++ splice (start + Text.size a + Text.size m) x es) := by
  rw [splice_copy (by simp), splice_replace]

/-- There is at most one edit, and it lies within the text. -/
inductive InPlace (start : Nat) : Text → List Edit → Prop
  | none {s : Text} : InPlace start s []
  | one {a m b r : Text} : m ≠ [] → InPlace start (a ++ m ++ b) [⟨⟨start + Text.size a, m⟩, r⟩]

/-- The edits lie within the text, one after the other. -/
inductive Fits : Nat → Text → List Edit → Prop
  | none {start : Nat} {s : Text} : Fits start s []
  | next {start : Nat} {a m b r : Text} {es : List Edit} :
      m ≠ [] → Fits (start + Text.size a + Text.size m) b es →
      Fits start (a ++ (m ++ b)) (⟨⟨start + Text.size a, m⟩, r⟩ :: es)

theorem InPlace.fits (h : InPlace start s es) : Fits start s es := by
  cases h with
  | none => exact .none
  | @one a m b r hm =>
    rw [List.append_assoc]
    exact .next hm .none

theorem Fits.bounds (h : Fits start s es) {e : Edit} (he : e ∈ es) :
    start ≤ e.slice.start ∧ e.slice.start < e.slice.stop ∧ e.slice.stop ≤ start + Text.size s := by
  induction h with
  | none => exact nomatch he
  | @next start a m b r es hm _ ih =>
    obtain ⟨c, m, rfl⟩ := List.exists_cons_of_ne_nil hm
    have := c.utf8Size_pos
    simp only [Text.size_append, Text.size_cons] at ih ⊢
    rcases List.mem_cons.1 he with rfl | he
    · simp only [Slice.stop, Text.size_cons]
      omega
    · have := ih he
      omega

theorem Fits.pairwise (h : Fits start s es) :
    es.Pairwise fun d e => d.slice.stop ≤ e.slice.start := by
  induction h with
  | none => exact .nil
  | @next start a m b r es _ hrest ih =>
    refine List.pairwise_cons.2 ⟨fun e he => ?_, ih⟩
    exact (hrest.bounds he).1

/-- Edits that fit are in order. -/
theorem Fits.ordered (h : Fits start s es) :
    es.Pairwise fun d e => d.slice.start < e.slice.start := by
  refine h.pairwise.imp_of_mem ?_
  intro d e hd _ hde
  have := h.bounds hd
  omega

/-- A piece is spliced by itself. -/
theorem Fits.splice_append (h : Fits start s es)
    (hf : ∀ e, fs.head? = some e → start + Text.size s ≤ e.slice.start) :
    splice start (s ++ x) (es ++ fs) = splice start s es ++ splice (start + Text.size s) x fs := by
  induction h with
  | none => exact splice_copy hf
  | @next start a m b r es hm _ ih =>
    have hsize : start + Text.size a + Text.size m + Text.size b =
        start + Text.size (a ++ (m ++ b)) := by simp [Nat.add_assoc]
    have hrest := ih (hsize ▸ hf)
    rw [hsize] at hrest
    simp only [List.append_assoc, List.cons_append, splice_between, hrest]

theorem Fits.append (h : Fits start s es) (hx : Fits (start + Text.size s) x fs) :
    Fits start (s ++ x) (es ++ fs) := by
  induction h with
  | @none start s =>
    cases hx with
    | none => exact .none
    | @next _ a m b r fs hm hb =>
      have hsize : start + Text.size s + Text.size a = start + Text.size (s ++ a) := by
        simp [Nat.add_assoc]
      rw [hsize] at hb ⊢
      rw [← List.append_assoc]
      exact .next hm hb
  | @next start a m b r es hm _ ih =>
    have hsize : start + Text.size (a ++ (m ++ b)) =
        start + Text.size a + Text.size m + Text.size b := by simp [Nat.add_assoc]
    simp only [List.append_assoc, List.cons_append]
    exact .next hm (ih (hsize ▸ hx))

theorem inPlace_whole (hm : m ≠ []) : InPlace start m [⟨⟨start, m⟩, r⟩] := by
  have h : InPlace start ([] ++ m ++ []) [⟨⟨start + Text.size [], m⟩, r⟩] := .one hm
  simpa using h

theorem splice_whole : splice start m [⟨⟨start, m⟩, r⟩] = r := by
  have h : splice start (m ++ []) [⟨⟨start, m⟩, r⟩] = r ++ splice (start + Text.size m) [] [] :=
    splice_replace
  simpa [splice] using h

/-- An edit that is needed or not gives the replacement in any case. -/
theorem splice_needed :
    splice start (a ++ m ++ b) (needed ⟨start + Text.size a, m⟩ r) = a ++ r ++ b := by
  unfold needed
  split
  · next h => rw [← h]; rfl
  · rw [List.append_assoc, splice_between]
    simp [splice]

theorem inPlace_needed (hm : m ≠ []) :
    InPlace start (a ++ m ++ b) (needed ⟨start + Text.size a, m⟩ r) := by
  unfold needed
  split
  · exact .none
  · exact .one hm

/-- Sorting puts edits at different places in order, however they were collected. -/
theorem sorted_of_perm (h : es.Perm fs) (hf : fs.Pairwise fun d e => d.slice.start < e.slice.start) :
    sorted es = fs := by
  have hp : (sorted es).Perm fs := (List.mergeSort_perm _ _).trans h
  have hs : (sorted es).Pairwise fun d e => decide (d.slice.start ≤ e.slice.start) = true :=
    List.pairwise_mergeSort (by simp only [decide_eq_true_eq]; omega)
      (by simp only [Bool.or_eq_true, decide_eq_true_eq]; omega) es
  have hnodup : (fs.map fun e => e.slice.start).Nodup := List.pairwise_map.2 (hf.imp Nat.ne_of_lt)
  refine hp.eq_of_pairwise (fun d e hd he hde hed => ?_) hs (hf.imp fun h => by simpa using h.le)
  simp only [decide_eq_true_eq] at hde hed
  exact List.inj_on_of_nodup_map hnodup (hp.mem_iff.1 hd) he (Nat.le_antisymm hde hed)

end Edit

end Stencil
