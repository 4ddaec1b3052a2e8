import Stencil.Proofs.Template.Names
/-!
Computed names.

A computed name ends where all its parentheses are paired, and those in its string literals are counted
with them.  A reader who leaves literals out (`PartialName.Closes`) finds the same end if, and only if,
the count with them comes out even there too (`PartialName.read_closes_iff`).  In the runtime form of the
name each dot that stands alone outside the literals is spelled `this` and all else is copied
(`Lowering.spelled_iff`).
-/

namespace Stencil

/-- The marks that a string literal is enclosed in. -/
def IsQuote (q : Char) : Prop :=
  q = '"' ∨ q = '\''

/-! ## Where a computed name ends -/

namespace PartialName

/-- The text has `depth` parentheses to close and closes the last of them with its last character.  Those
in string literals do not count; what stands in each literal satisfies `P`. -/
inductive Closes (P : Text → Prop) : Nat → Text → Prop
  | last {depth : Nat} : depth ≤ 1 → Closes P depth [')']
  | inner {depth : Nat} {s : Text} : Closes P (depth + 1) s → Closes P depth ('(' :: s)
  | outer {depth : Nat} {s : Text} : ¬ depth ≤ 1 → Closes P (depth - 1) s → Closes P depth (')' :: s)
  | literal {depth : Nat} {q : Char} {content s : Text} : IsQuote q → q ∉ content → P content →
      Closes P depth s → Closes P depth (q :: (content ++ q :: s))
  | other {depth : Nat} {c : Char} {s : Text} : c ≠ '(' → c ≠ ')' → ¬ IsQuote c → Closes P depth s →
      Closes P depth (c :: s)

/-- The text has no parenthesis. -/
def Unparenthesized (s : Text) : Prop :=
  '(' ∉ s ∧ ')' ∉ s

variable {P : Text → Prop} {depth : Nat} {s e e' rest rest' : Text}

/-- What has neither parentheses nor quotation marks may stand before. -/
theorem Closes.append_left (hs : ∀ c ∈ s, c ∉ ['(', ')', '"', '\'']) (h : Closes P depth e) :
    Closes P depth (s ++ e) := by
  induction s with
  | nil => exact h
  | cons c s ih =>
    obtain ⟨hc, hs⟩ := List.forall_mem_cons.1 hs
    simp only [List.mem_cons, List.not_mem_nil, or_false, not_or] at hc
    exact .other hc.1 hc.2.1 (fun hq => hq.elim hc.2.2.1 hc.2.2.2) (ih hs)

theorem Balanced.append_left (hs : Unparenthesized s) (h : Balanced depth e) :
    Balanced depth (s ++ e) := by
  induction s with
  | nil => exact h
  | cons c s ih =>
    obtain ⟨h₁, h₂⟩ := hs
    simp only [List.mem_cons, not_or] at h₁ h₂
    exact .other (Ne.symm h₁.1) (Ne.symm h₂.1) (ih ⟨h₁.2, h₂.2⟩)

theorem unparenthesized_quote {q : Char} (h : IsQuote q) : Unparenthesized [q] := by
  rcases h with rfl | rfl <;> exact ⟨by decide, by decide⟩

/-- A text in whose literals no parenthesis stands closes where all parentheses are paired. -/
theorem Closes.balanced (h : Closes Unparenthesized depth s) : Balanced depth s := by
  induction h with
  | last hd => exact .last hd
  | inner _ ih => exact .inner ih
  | outer hd _ ih => exact .outer hd ih
  | @literal depth q content s hq hc hp _ ih =>
    have hmark := unparenthesized_quote hq
    exact Balanced.append_left hmark (Balanced.append_left hp (Balanced.append_left hmark ih))
  | other h₁ h₂ _ _ ih => exact .other h₁ h₂ ih

/-- What is read as a computed name is the text up to where all parentheses are paired. -/
theorem read_computed_iff {inner : Slice} (hs : inner.text = e ++ rest) (hp : inner.text.head? = some '(') :
    read inner = .ok (.computed ⟨inner.start, e⟩, Text.trim rest) ↔ Balanced 0 e := by
  rw [read_eq_ok_iff, hs]
  constructor
  · rintro ⟨more, hr, -⟩
    generalize e ++ rest = s at hr
    cases hr with
    | computed _ hb => exact hb
  · intro hb
    refine ⟨rest, .computed ?_ hb, rfl⟩
    rw [hs] at hp
    rwa [List.head?_append_of_ne_nil _ hb.ne_nil] at hp

theorem exists_balanced_of_read {inner : Slice} {name : PartialName} {params : Text}
    (h : read inner = .ok (name, params)) (hp : inner.text.head? = some '(') :
    ∃ e rest, inner.text = e ++ rest ∧ Balanced 0 e := by
  obtain ⟨rest, hr, -⟩ := read_eq_ok_iff.1 h
  generalize inner.text = s at hr hp
  cases hr with
  | @computed e _ _ hb => exact ⟨e, rest, rfl, hb⟩
  | @fixed token _ hne _ hu =>
    cases token with
    | nil => simp [unquote] at hu
    | cons c token => exact absurd hp hne

end PartialName

/-! ## How it is spelled -/

namespace Lowering

/-- A dot between the character `prev` and the text `rest` stands alone: before it is nothing, a blank or
an opening parenthesis, and after it nothing, a blank or a closing one. -/
def Alone (prev : Option Char) (rest : Text) : Prop :=
  (∀ c, prev = some c → c = '(' ∨ Text.isBlank c = true) ∧
    ∀ c, rest.head? = some c → c = ')' ∨ Text.isBlank c = true

theorem alone_iff {prev : Option Char} {rest : Text} :
    Alone prev rest ↔ opensDot prev = true ∧ closesDot rest = true := by
  cases prev <;> cases rest <;> simp [Alone, opensDot, closesDot]

/-- The second text is the first, which follows the character `prev`, with each dot that stands alone
outside string literals spelled `this`. -/
inductive Spelled : Option Char → Text → Text → Prop
  | nil {prev : Option Char} : Spelled prev [] []
  | literal {prev : Option Char} {q : Char} {content s out : Text} : IsQuote q → q ∉ content →
      Spelled (some q) s out → Spelled prev (q :: (content ++ q :: s)) (q :: (content ++ q :: out))
  /-- A literal that is not closed. -/
  | unclosed {prev : Option Char} {q : Char} {content : Text} : IsQuote q → q ∉ content →
      Spelled prev (q :: content) (q :: content)
  | dot {prev : Option Char} {s out : Text} : Alone prev s → Spelled (some '.') s out →
      Spelled prev ('.' :: s) ("this".toList ++ out)
  | other {prev : Option Char} {c : Char} {s out : Text} : ¬ IsQuote c → (c = '.' → ¬ Alone prev s) →
      Spelled (some c) s out → Spelled prev (c :: s) (c :: out)

variable {prev : Option Char} {q c : Char} {content s out : Text}

theorem spellContext_literal (hq : q ∉ content) (prev : Option Char) (s : Text) :
    spellContext (some q) prev (content ++ q :: s) = content ++ q :: spellContext none (some q) s := by
  induction content generalizing prev with
  | nil => simp [spellContext]
  | cons c content ih =>
    simp only [List.mem_cons, not_or] at hq
    simp [spellContext, Ne.symm hq.1, ih hq.2]

theorem spellContext_unclosed (hq : q ∉ content) (prev : Option Char) :
    spellContext (some q) prev content = content := by
  induction content generalizing prev with
  | nil => rfl
  | cons c content ih =>
    simp only [List.mem_cons, not_or] at hq
    simp [spellContext, Ne.symm hq.1, ih hq.2]

theorem spellContext_quote (hq : IsQuote q) (prev : Option Char) (s : Text) :
    spellContext none prev (q :: s) = q :: spellContext (some q) (some q) s := by
  rcases hq with rfl | rfl <;> simp [spellContext]

theorem spellContext_dot (h : Alone prev s) :
    spellContext none prev ('.' :: s) = "this".toList ++ spellContext none (some '.') s := by
  simp [spellContext, alone_iff.1 h]

theorem spellContext_other (hc : ¬ IsQuote c) (h : c = '.' → ¬ Alone prev s) :
    spellContext none prev (c :: s) = c :: spellContext none (some c) s := by
  have hdot : ¬ (c = '.' ∧ opensDot prev = true ∧ closesDot s = true) :=
    fun ⟨hdot, halone⟩ => h hdot (alone_iff.2 halone)
  have hquote : ¬ (decide (c = '"') || decide (c = '\'')) = true := by simpa [IsQuote] using hc
  simp only [spellContext]
  rw [if_neg hquote, if_neg]
  simpa [and_assoc] using hdot

theorem spelled_spellContext (prev : Option Char) (s : Text) :
    Spelled prev s (spellContext none prev s) := by
  induction hn : s.length using Nat.strong_induction_on generalizing prev s with
  | _ n ih =>
    cases s with
    | nil => exact .nil
    | cons c s =>
      subst hn
      by_cases hq : IsQuote c
      · rw [spellContext_quote hq]
        by_cases hc : c ∈ s
        · obtain ⟨content, s', rfl, hcontent⟩ := List.eq_append_cons_of_mem hc
          rw [spellContext_literal hcontent]
          exact .literal hq hcontent (ih _ (by simp; omega) _ _ rfl)
        · rw [spellContext_unclosed hc]
          exact .unclosed hq hc
      · by_cases hdot : c = '.' ∧ Alone prev s
        · obtain ⟨rfl, halone⟩ := hdot
          rw [spellContext_dot halone]
          exact .dot halone (ih _ (by simp) _ _ rfl)
        · have hother : c = '.' → ¬ Alone prev s := fun hc halone => hdot ⟨hc, halone⟩
          rw [spellContext_other hq hother]
          exact .other hq hother (ih _ (by simp) _ _ rfl)

theorem spelled_iff : Spelled prev s out ↔ spellContext none prev s = out := by
  constructor
  · intro h
    induction h with
    | nil => rfl
    | literal hq hc _ ih => rw [spellContext_quote hq, spellContext_literal hc, ih]
    | unclosed hq hc => rw [spellContext_quote hq, spellContext_unclosed hc]
    | dot halone _ ih => rw [spellContext_dot halone, ih]
    | other hq hdot _ ih => rw [spellContext_other hq hdot, ih]
  · rintro rfl
    exact spelled_spellContext prev s

end Lowering

end Stencil
