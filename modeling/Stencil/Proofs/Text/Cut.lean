import Mathlib.Data.List.TakeWhile
import Stencil.Text
/-!
Scanning a text that goes on.

`cut_eq_some_iff` says that a cut is at the first occurrence of its mark.  So what a scanner finds in a
text it also finds when more text follows (`_append_right`), and when it is through before the text
that follows, it finds the same without it (`_of_append`).  A trimmed text stays as it is when it is
trimmed again (`trimBy_trimBy`).
-/

namespace Stencil.Text

variable {mark s t u x : Text}

/-! ## Prefixes -/

theorem after?_append_right (h : after? mark s = some u) (x : Text) :
    after? mark (s ++ x) = some (u ++ x) := by
  rw [after?_eq h, List.append_assoc, after?_append]

theorem after?_of_append (h : after? mark (s ++ x) = some (u ++ x)) : after? mark s = some u := by
  have he := after?_eq h
  rw [← List.append_assoc] at he
  rw [List.append_cancel_right he, after?_append]

theorem after?_none_of_append (h : after? mark (s ++ x) = none) : after? mark s = none := by
  cases hs : after? mark s with
  | none => rfl
  | some r => simp [after?_append_right hs] at h

/-- A mark that a text does not begin with does not run on over a character that it does not go on
with. -/
theorem after?_none_append (h : after? mark s = none) (hs : s ≠ []) {c : Char} (hc : c ∉ mark.tail)
    (y : Text) : after? mark (s ++ c :: y) = none := by
  cases ha : after? mark (s ++ c :: y) with
  | none => rfl
  | some u =>
    rcases List.append_eq_append_iff.1 (after?_eq ha) with ⟨w, rfl, hw⟩ | ⟨w, rfl, -⟩
    · cases w with
      | nil =>
        have hself := after?_append s []
        rw [List.append_nil] at h hself
        exact absurd (h.symm.trans hself) (by simp)
      | cons d w =>
        obtain ⟨rfl, -⟩ := List.cons.inj hw
        obtain ⟨a, s, rfl⟩ := List.exists_cons_of_ne_nil hs
        exact absurd (List.mem_append_right s List.mem_cons_self) hc
    · rw [after?_append] at h
      exact nomatch h

/-! ## First occurrences -/

theorem cut_eq_none_iff : cut mark s = none ↔ ∀ a b, s ≠ a ++ mark ++ b := by
  induction s with
  | nil =>
    constructor
    · intro h a b he
      have hm : mark = [] := by
        have := congrArg List.length he
        simp only [List.length_nil, List.length_append] at this
        exact List.length_eq_zero_iff.1 (by omega)
      simp [cut, hm] at h
    · intro h
      unfold cut
      rw [if_neg]
      intro hm
      exact h [] [] (by simpa using hm.symm)
  | cons c r ih =>
    unfold cut
    constructor
    · intro h a b he
      split at h
      · simp at h
      · next hn =>
        cases a with
        | nil =>
          rw [he] at hn
          simp [after?_append] at hn
        | cons d a =>
          simp only [List.cons_append, List.cons.injEq] at he
          exact ih.1 (Option.map_eq_none_iff.1 h) a b he.2
    · intro h
      split
      · next rest hr => exact absurd (after?_eq hr) (h [] rest)
      · refine Option.map_eq_none_iff.2 (ih.2 fun a b he => h (c :: a) b ?_)
        rw [he]
        rfl

theorem not_infix_of_cut (h : cut mark s = none) : ¬ mark <:+: s := by
  rintro ⟨a, b, he⟩
  exact cut_eq_none_iff.1 h a b he.symm

theorem cut_first (h : cut mark s = some (t, u)) {a b : Text} (he : s = a ++ mark ++ b) :
    t.length ≤ a.length := by
  induction s generalizing t u a with
  | nil =>
    have := congrArg List.length (cut_eq h)
    simp only [List.length_nil, List.length_append] at this
    omega
  | cons c r ih =>
    unfold cut at h
    split at h
    · next rest hr =>
      simp only [Option.some.injEq, Prod.mk.injEq] at h
      simp [← h.1]
    · next hn =>
      obtain ⟨⟨t', u'⟩, hp, hq⟩ := Option.map_eq_some_iff.1 h
      simp only [Prod.mk.injEq] at hq
      cases a with
      | nil =>
        rw [he] at hn
        simp [after?_append] at hn
      | cons d a =>
        simp only [List.cons_append, List.cons.injEq] at he
        have := ih hp he.2
        rw [← hq.1, List.length_cons, List.length_cons]
        omega

/-- A cut is at the first occurrence of the mark. -/
theorem cut_eq_some_iff : cut mark s = some (t, u) ↔
    s = t ++ mark ++ u ∧ ∀ a b, s = a ++ mark ++ b → t.length ≤ a.length := by
  constructor
  · intro h
    exact ⟨cut_eq h, fun a b he => cut_first h he⟩
  · rintro ⟨he, hmin⟩
    cases hc : cut mark s with
    | none => exact absurd he (cut_eq_none_iff.1 hc t u)
    | some p =>
      obtain ⟨a, b⟩ := p
      have hab := cut_eq hc
      have hl : a.length = t.length := Nat.le_antisymm (cut_first hc he) (hmin a b hab)
      rw [he, List.append_assoc, List.append_assoc] at hab
      obtain ⟨rfl, hr⟩ := List.append_inj hab hl.symm
      rw [List.append_cancel_left hr]

theorem cut_append_right (h : cut mark s = some (t, u)) (x : Text) :
    cut mark (s ++ x) = some (t, u ++ x) := by
  obtain ⟨he, hmin⟩ := cut_eq_some_iff.1 h
  refine cut_eq_some_iff.2 ⟨by rw [he]; simp, fun a b hab => ?_⟩
  -- an occurrence that is not later lies in `s`
  rcases Nat.lt_or_ge a.length t.length with hlt | hge
  · have hp : a ++ mark <+: s := by
      have hab' : a ++ mark <+: s ++ x := ⟨b, hab.symm⟩
      refine List.prefix_of_prefix_length_le hab' (List.prefix_append _ _) ?_
      have := congrArg List.length he
      simp only [List.length_append] at this ⊢
      omega
    obtain ⟨b', hb'⟩ := hp
    exact hmin a b' hb'.symm
  · exact hge

theorem cut_of_append (h : cut mark (s ++ x) = some (t, u ++ x)) : cut mark s = some (t, u) := by
  obtain ⟨he, hmin⟩ := cut_eq_some_iff.1 h
  rw [← List.append_assoc] at he
  refine cut_eq_some_iff.2 ⟨List.append_cancel_right he, fun a b hab => ?_⟩
  exact hmin a (b ++ x) (by rw [hab]; simp)

/-- No mark begins in a text without its first character. -/
theorem cut_append_of_notMem {c : Char} (h : c ∉ s) (x : Text) :
    cut (c :: mark) (s ++ x) = (cut (c :: mark) x).map fun p => (s ++ p.1, p.2) := by
  induction s with
  | nil => simp
  | cons d s ih =>
    rw [List.mem_cons, not_or] at h
    rw [List.cons_append, cut, after?, if_neg h.1, ih h.2, Option.map_map]
    rfl

/-- A text without a character is cut off by the character. -/
theorem cut_of_notMem {c : Char} (h : c ∉ s) (x : Text) : cut [c] (s ++ c :: x) = some (s, x) := by
  rw [cut_append_of_notMem h]
  simp [cut, after?]

theorem through_append_of_notMem {c : Char} (h : c ∉ s) (x : Text) :
    through (c :: mark) (s ++ x) = (s ++ (through (c :: mark) x).1, (through (c :: mark) x).2) := by
  rw [through, through, cut_append_of_notMem h]
  cases cut (c :: mark) x <;> simp

theorem through_append_right (h : through mark s = (t, u)) (hu : u ≠ []) (x : Text) :
    through mark (s ++ x) = (t, u ++ x) := by
  unfold through at h ⊢
  split at h
  · next a b hc =>
    obtain ⟨rfl, rfl⟩ := Prod.mk.inj h
    rw [cut_append_right hc]
  · exact absurd (Prod.mk.inj h).2.symm hu

theorem through_of_append (hx : x ≠ []) (h : through mark (s ++ x) = (t, u ++ x)) :
    through mark s = (t, u) := by
  unfold through at h
  split at h
  · next a b hc =>
    simp only [Prod.mk.injEq] at h
    obtain ⟨rfl, rfl⟩ := h
    rw [through, cut_of_append hc]
  · have := congrArg List.length (Prod.mk.inj h).2
    have hx' := List.length_pos_iff.2 hx
    simp only [List.length_nil, List.length_append] at this
    omega

/-! ## Runs -/

/-- A run ends where the first character outside it stands. -/
theorem run_of_all {p : Char → Bool} (hs : ∀ c ∈ s, p c = true)
    (hx : ∀ c, x.head? = some c → p c = false) : run p (s ++ x) = (s, x) := by
  have hrun : run p x = ([], x) := by
    cases x with
    | nil => rfl
    | cons c x => simp [run, hx c rfl]
  simp only [run, Prod.mk.injEq] at hrun
  rw [run, List.takeWhile_append_of_pos hs, List.dropWhile_append_of_pos hs, hrun.1, hrun.2,
    List.append_nil]

theorem run_append_right {p : Char → Bool} {c : Char} (h : run p s = (t, c :: u)) (x : Text) :
    run p (s ++ x) = (t, c :: u ++ x) := by
  have hd : (run p (s ++ x)).2 = c :: u ++ x := by
    simp only [run, Prod.mk.injEq] at h ⊢
    rw [List.dropWhile_append, h.2]
    rfl
  have he := run_eq p (s ++ x)
  rw [hd, ← List.append_assoc] at he
  exact Prod.ext (List.append_cancel_right ((List.append_cancel_right he).trans (eq_of_run h))) hd

theorem run_of_append {p : Char → Bool} (h : run p (s ++ x) = (t, u ++ x)) : run p s = (t, u) := by
  induction s generalizing t with
  | nil =>
    have he : t ++ (u ++ x) = x := by
      have := run_eq p x
      rwa [show run p x = (t, u ++ x) from h] at this
    have hl := congrArg List.length he
    simp only [List.length_append] at hl
    rw [List.length_eq_zero_iff.1 (show t.length = 0 by omega),
      List.length_eq_zero_iff.1 (show u.length = 0 by omega)]
    rfl
  | cons c r ih =>
    by_cases hc : p c = true
    · have hr : run p (r ++ x) = ((r ++ x).takeWhile p, u ++ x) := by
        simpa [run, hc] using (Prod.mk.inj h).2
      have ht : t = c :: (r ++ x).takeWhile p := by
        simpa [run, hc] using (Prod.mk.inj h).1.symm
      have := ih hr
      simp only [run, Prod.mk.injEq] at this
      simp [run, hc, ht, this]
    · have hu : c :: r ++ x = u ++ x := by simpa [run, hc] using (Prod.mk.inj h).2
      have ht : t = [] := by simpa [run, hc] using (Prod.mk.inj h).1.symm
      rw [← List.append_cancel_right hu, ht]
      simp [run, hc]

/-! ## Ends -/

section

variable {p : Char → Bool}

theorem trimEndBy_append {b : Text} (hb : ∀ c ∈ b, p c = true)
    (hs : ∀ c, s.getLast? = some c → p c = false) : trimEndBy p (s ++ b) = s := by
  have hr : s.reverse.dropWhile p = s.reverse := by
    cases hc : s.reverse with
    | nil => rfl
    | cons c r =>
      have hl : s.getLast? = some c := by rw [← List.head?_reverse, hc]; rfl
      simp [hs c hl]
  rw [trimEndBy, List.reverse_append, List.dropWhile_append_of_pos (by simpa using hb), hr,
    List.reverse_reverse]

theorem trimEndBy_eq (p : Char → Bool) (s : Text) :
    ∃ b, s = trimEndBy p s ++ b ∧ (∀ c ∈ b, p c = true) ∧
      ∀ c, (trimEndBy p s).getLast? = some c → p c = false := by
  refine ⟨(s.reverse.takeWhile p).reverse, ?_, fun c hc => ?_, fun c hc => ?_⟩
  · rw [trimEndBy, ← List.reverse_append, List.takeWhile_append_dropWhile, List.reverse_reverse]
  · exact List.mem_takeWhile_imp (List.mem_reverse.1 hc)
  · rw [trimEndBy, List.getLast?_reverse] at hc
    exact Bool.eq_false_iff.2 fun hp => by
      have := List.head?_dropWhile_not p s.reverse
      rw [hc] at this
      simp [hp] at this

theorem getLast?_trimBy {c : Char} (hc : (trimBy p s).getLast? = some c) : p c = false := by
  obtain ⟨b, -, -, hl⟩ := trimEndBy_eq p (s.dropWhile p)
  exact hl c hc

theorem head?_trimBy {c : Char} (hc : (trimBy p s).head? = some c) : p c = false := by
  obtain ⟨b, hb, -, -⟩ := trimEndBy_eq p (s.dropWhile p)
  have hh : (s.dropWhile p).head? = some c := by
    rw [hb, List.head?_append]
    exact (congrArg (Option.or · _) hc).trans rfl
  have hnot := List.head?_dropWhile_not p s
  rw [hh] at hnot
  simpa using hnot

/-- Trimming takes away characters in `p` only. -/
theorem mem_trimBy {c : Char} (h : c ∈ s) (hc : p c = false) : c ∈ trimBy p s := by
  have hd : c ∈ s.dropWhile p := by
    rw [← List.takeWhile_append_dropWhile (p := p) (l := s), List.mem_append] at h
    rcases h with h | h
    · have := List.mem_takeWhile_imp h
      simp [hc] at this
    · exact h
  obtain ⟨b, hb, hall, -⟩ := trimEndBy_eq p (s.dropWhile p)
  rw [hb, List.mem_append] at hd
  rcases hd with hd | hd
  · exact hd
  · have := hall c hd
    simp [hc] at this

/-- A text whose ends are not in `p` stays as it is. -/
theorem trimBy_of_ends (hh : ∀ c, s.head? = some c → p c = false)
    (hl : ∀ c, s.getLast? = some c → p c = false) : trimBy p s = s := by
  have hd : s.dropWhile p = s := by
    cases s with
    | nil => rfl
    | cons c r => rw [List.dropWhile_cons_of_neg (by simp [hh c rfl])]
  have ht := trimEndBy_append (b := []) (fun _ hc => nomatch hc) hl
  rw [List.append_nil] at ht
  rw [trimBy, hd, ht]

theorem trimBy_eq_nil_iff : trimBy p s = [] ↔ ∀ c ∈ s, p c = true := by
  constructor
  · intro h c hc
    by_cases hp : p c = true
    · exact hp
    · have hm := mem_trimBy hc (Bool.eq_false_iff.2 hp)
      rw [h] at hm
      exact absurd hm List.not_mem_nil
  · intro h
    rw [trimBy, List.dropWhile_eq_nil_iff.2 h]
    rfl

theorem trimBy_trimBy (p : Char → Bool) (s : Text) : trimBy p (trimBy p s) = trimBy p s :=
  trimBy_of_ends (fun _ => head?_trimBy) fun _ => getLast?_trimBy

end

end Stencil.Text
