import Stencil.Proofs.Syntax.Delimiters
import Stencil.Proofs.Template.Splice
/-!
Where the tokens of a source stand.

Each token is read at its place in the source, and no tag before it reaches into it: opening braces that
stand before a token are closed before it (`exists_stands_of_mem`).
-/

namespace Stencil

/-! ## Texts whose braces are closed -/

/-- Wherever opening braces stand in the text, closing braces follow them in it, and the text does not end
inside opening braces. -/
structure Text.Shut (s : Text) : Prop where
  closed : ∀ a b, s = a ++ open2 ++ b → close2 <:+: b
  last : s.getLast? ≠ some '{'

namespace Text

variable {s t : Text}

theorem shut_nil : Shut [] :=
  ⟨fun a b h => by simp [open2] at h, by simp⟩

theorem Shut.append (hs : Shut s) (ht : Shut t) : Shut (s ++ t) := by
  constructor
  · intro a b he
    rw [List.append_assoc] at he
    rcases List.append_eq_append_iff.1 he with ⟨w, rfl, hw⟩ | ⟨w, rfl, hw⟩
    · exact ht.closed w b (by rw [hw, List.append_assoc])
    · match w with
      | [] => exact ht.closed [] b (by simpa using hw.symm)
      | [c] =>
        obtain ⟨rfl, -⟩ := List.cons.inj hw
        exact absurd (by simp) hs.last
      | c :: d :: w =>
        simp only [open2, List.cons_append, List.nil_append, List.cons.injEq] at hw
        obtain ⟨rfl, rfl, rfl⟩ := hw
        exact (hs.closed a w (by simp [open2])).trans (List.prefix_append w t).isInfix
  · rw [List.getLast?_append]
    cases hl : t.getLast? with
    | none => exact hs.last
    | some c =>
      have := ht.last
      rw [hl] at this
      exact this

theorem shut_of_close2 (h : close2 <:+ s) : Shut s := by
  obtain ⟨x, rfl⟩ := h
  have hlast : (x ++ close2).getLast? = some '}' := by
    rw [List.getLast?_append]
    rfl
  refine ⟨fun a b he => ?_, by simp [hlast]⟩
  rcases List.append_eq_append_iff.1 he with ⟨w, hw, hb⟩ | ⟨w, -, rfl⟩
  · cases hwl : w.getLast? with
    | none =>
      rw [List.getLast?_eq_none_iff.1 hwl, List.nil_append] at hb
      exact hb ▸ List.infix_rfl
    | some c =>
      -- such a character would be both an opening and a closing brace
      have hc : c ∈ close2 := hb ▸ List.mem_append_left b (List.mem_of_getLast? hwl)
      have hopen := congrArg List.getLast? hw
      rw [List.getLast?_append, List.getLast?_append, hwl] at hopen
      obtain rfl : '{' = c := Option.some.inj hopen
      exact absurd hc (by decide)
  · exact (List.suffix_append w close2).isInfix

end Text

namespace Token

variable {start : Nat} {s rest : Text} {k : Token}

/-! ## The text of a token -/

/-- Literal text before a tag leaves no braces open. -/
theorem shut_literal (h : (literal s).2 ≠ []) : Text.Shut (literal s).1 := by
  fun_induction literal s with
  | case1 => exact absurd rfl h
  | case2 => exact absurd rfl h
  | case3 c r r₁ ha inner r₂ hc p ih =>
    exact (Text.shut_of_close2 (List.suffix_append _ _)).append (ih h)
  | case4 => exact Text.shut_nil
  | case5 c r ha ho p ih =>
    have hp := ih h
    obtain ⟨y, hy⟩ := (literal_rest r).resolve_left h
    -- the text does not begin with opening braces
    have hbrace (w : Text) (hw : p.1 ++ p.2 = '{' :: w) : c ≠ '{' := by
      rintro rfl
      rw [← literal_eq r, hw] at ho
      exact ho rfl
    constructor
    · intro a b he
      cases a with
      | nil =>
        obtain ⟨hc, hb⟩ := List.cons.inj he
        exact absurd hc (hbrace (b ++ p.2) (by rw [hb]; rfl))
      | cons d a => exact hp.closed a b (List.cons.inj he).2
    · cases hp' : p.1 with
      | nil => simpa using hbrace ('{' :: y) (by rw [hp', hy]; rfl)
      | cons d w =>
        rw [List.getLast?_cons_cons, ← hp']
        exact hp.last

/-- A tag or a raw block ends with closing braces. -/
theorem close2_suffix_of_next (h : next start s = .ok (k, rest)) (hk : ∀ p, k ≠ .text p) :
    close2 <:+ k.whole.text := by
  cases k with
  | text p => exact absurd rfl (hk p)
  | tag t =>
    obtain ⟨r, -, -, hr⟩ := next_tag.1 h
    exact Tag.close2_suffix_of_read hr
  | raw i b => exact List.suffix_append_of_suffix ⟨close2, rfl⟩

theorem shut_of_next (h : next start s = .ok (k, rest)) (hr : rest ≠ []) :
    Text.Shut k.whole.text := by
  by_cases hk : ∃ p, k = .text p
  · obtain ⟨p, rfl⟩ := hk
    obtain ⟨-, rfl, rfl⟩ := next_text h
    exact shut_literal hr
  · exact Text.shut_of_close2 (close2_suffix_of_next h fun p hp => hk ⟨p, hp⟩)

/-- The only closing braces of the token are at its end. -/
def ClosedOnce (k : Token) : Prop :=
  ∃ v, k.whole.text = open2 ++ v ++ close2 ∧ Closeless v

/-! ## The place of a token -/

theorem exists_before_of_mem_stream {ts : List Token} (h : stream start s = .ok ts) (hk : k ∈ ts) :
    ∃ before rest, s = before ++ (k.whole.text ++ rest) ∧ k.whole.start = start + Text.size before ∧
      next k.whole.start (k.whole.text ++ rest) = .ok (k, rest) ∧ Text.Shut before := by
  induction ts generalizing start s with
  | nil => exact nomatch hk
  | cons k' ts ih =>
    obtain ⟨hs, rest, hn, hrest⟩ := stream_cons_eq_ok h
    obtain ⟨hstart, htext⟩ := next_eq hn
    rcases List.mem_cons.1 hk with rfl | hk
    · refine ⟨[], rest, htext.symm, hstart, ?_, Text.shut_nil⟩
      rw [htext, hstart]
      exact hn
    · obtain ⟨before, rest', rfl, hsize, hn', hshut⟩ := ih hrest hk
      have hne : before ++ (k.whole.text ++ rest') ≠ [] := by
        intro he
        rw [he, stream_nil] at hrest
        exact absurd (Except.ok.inj hrest ▸ hk) List.not_mem_nil
      refine ⟨k'.whole.text ++ before, rest', by rw [← htext, List.append_assoc], ?_, hn',
        (shut_of_next hn hne).append hshut⟩
      rw [hsize, Slice.stop, hstart, Text.size_append, Nat.add_assoc]

/-- The source from a token on. -/
def onward (source : Text) (k : Token) : Text :=
  (Text.splitAtByte k.whole.start source).2

/-- A token at its place in a source, with the texts before and after it. -/
structure Stands (source : Text) (k : Token) (before after : Text) : Prop where
  source_eq : source = before ++ k.onward source
  onward_eq : k.onward source = k.whole.text ++ after
  start_eq : k.whole.start = Text.size before
  next_eq : next k.whole.start (k.onward source) = .ok (k, after)
  shut : Text.Shut before

theorem Stands.eq {source before after : Text} (h : k.Stands source before after) :
    source = before ++ (k.whole.text ++ after) := by
  rw [← h.onward_eq]
  exact h.source_eq

theorem exists_stands_of_mem {source : Text} {ts : List Token} (h : tokens source = .ok ts)
    (hk : k ∈ ts) : ∃ before after, k.Stands source before after := by
  obtain ⟨before, after, rfl, hsize, hn, hshut⟩ := exists_before_of_mem_stream h hk
  rw [Nat.zero_add] at hsize
  have ho : k.onward (before ++ (k.whole.text ++ after)) = k.whole.text ++ after := by
    rw [onward, hsize, Text.splitAtByte_size]
  exact ⟨before, after, by rw [ho], ho, hsize, by rw [ho]; exact hn, hshut⟩

end Token

end Stencil
