import Stencil.Proofs.Syntax.Tag
import Stencil.Proofs.Template.Splice
/-!
Names in the form that the runtime reads.

A registry name has only plain characters, so it reads back as it stands before a blank or at the end of
a tag (`PartialName.read_lowered`), and it can stand in any tag (`PartialName.exchange_lowered`).
A computed name keeps its parentheses.
-/

namespace Stencil

/-! ## Registry names -/

namespace Alias

theorem isPlainChar_digit : ∀ n < 16, isPlainChar (Text.Hex.digit n) = true := by
  decide

theorem isPlainChar_encode {bytes : List UInt8} {c : Char} (h : c ∈ Text.Hex.encode bytes) :
    isPlainChar c = true := by
  obtain ⟨b, -, hc⟩ := List.mem_flatMap.1 h
  have hb := b.toNat_lt
  simp only [Text.Hex.encodeByte, List.mem_cons, List.not_mem_nil, or_false] at hc
  rcases hc with rfl | rfl
  · exact isPlainChar_digit _ (by omega)
  · exact isPlainChar_digit _ (by omega)

theorem isPlainChar_of_mem {reference : Text} {c : Char} (h : c ∈ ofReference reference) :
    isPlainChar c = true := by
  unfold ofReference at h
  split at h
  · next hp =>
    rw [isPlain, Bool.and_eq_true] at hp
    exact List.all_eq_true.1 hp.2 c h
  · rcases List.mem_append.1 h with h | h
    · exact List.all_eq_true.1 (by decide : mark.all isPlainChar = true) c h
    · have hdigit : c ∈ Text.Hex.encode (Sha256.digest (Text.utf8 reference)) := by
        rw [shortDigest] at h
        exact List.mem_of_mem_take h
      exact isPlainChar_encode hdigit

theorem ofReference_ne_nil (reference : Text) : ofReference reference ≠ [] := by
  unfold ofReference
  split
  · next hp =>
    rintro rfl
    simp [isPlain] at hp
  · simp [mark]

/-- A character that is not plain is not in a registry name. -/
theorem notMem_ofReference (reference : Text) {c : Char} (h : isPlainChar c = false) :
    c ∉ ofReference reference :=
  fun hc => by simp [isPlainChar_of_mem hc] at h

theorem isAsciiBlank_of_plain {c : Char} (h : isPlainChar c = true) : Text.isAsciiBlank c = false := by
  cases hb : Text.isAsciiBlank c with
  | false => rfl
  | true =>
    simp only [Text.isAsciiBlank, Bool.or_eq_true, decide_eq_true_eq] at hb
    rcases hb with (((rfl | rfl) | rfl) | rfl) | rfl <;> exact absurd h (by decide)

theorem unquote_ofReference (reference : Text) :
    unquote (ofReference reference) = ofReference reference := by
  unfold unquote
  split
  · next h => exact h.symm
  · next q r h =>
    have hq : isPlainChar q = true := isPlainChar_of_mem (h ▸ List.mem_cons_self)
    split
    · rfl
    · refine if_neg ?_
      have (m : Char) (hm : isPlainChar m = false) : q ≠ m := by
        rintro rfl
        simp [hq] at hm
      simp [this '"' (by decide), this '\'' (by decide), this '[' (by decide)]

end Alias

/-! ## Computed names -/

namespace PartialName

/-- The text has `depth` parentheses to close, and closes the last of them with its last character. -/
inductive Balanced : Nat → Text → Prop
  | last {depth : Nat} : depth ≤ 1 → Balanced depth [')']
  | inner {depth : Nat} {s : Text} : Balanced (depth + 1) s → Balanced depth ('(' :: s)
  | outer {depth : Nat} {s : Text} : ¬ depth ≤ 1 → Balanced (depth - 1) s → Balanced depth (')' :: s)
  | other {depth : Nat} {c : Char} {s : Text} :
      c ≠ '(' → c ≠ ')' → Balanced depth s → Balanced depth (c :: s)

theorem balanced_eq_some_iff {depth : Nat} {s e rest : Text} :
    balanced depth s = some (e, rest) ↔ s = e ++ rest ∧ Balanced depth e := by
  constructor
  · intro h
    fun_induction balanced depth s generalizing e with
    | case1 => simp at h
    | case2 depth r ih =>
      obtain ⟨⟨e', r'⟩, hb, he⟩ := Option.map_eq_some_iff.1 h
      obtain ⟨rfl, rfl⟩ := Prod.mk.inj he
      obtain ⟨rfl, hbal⟩ := ih hb
      exact ⟨rfl, .inner hbal⟩
    | case3 depth r hd =>
      obtain ⟨rfl, rfl⟩ := Prod.mk.inj (Option.some.inj h)
      exact ⟨rfl, .last hd⟩
    | case4 depth r hd ih =>
      obtain ⟨⟨e', r'⟩, hb, he⟩ := Option.map_eq_some_iff.1 h
      obtain ⟨rfl, rfl⟩ := Prod.mk.inj he
      obtain ⟨rfl, hbal⟩ := ih hb
      exact ⟨rfl, .outer hd hbal⟩
    | case5 depth c r h₁ h₂ ih =>
      obtain ⟨⟨e', r'⟩, hb, he⟩ := Option.map_eq_some_iff.1 h
      obtain ⟨rfl, rfl⟩ := Prod.mk.inj he
      obtain ⟨rfl, hbal⟩ := ih hb
      exact ⟨rfl, .other h₁ h₂ hbal⟩
  · rintro ⟨rfl, h⟩
    induction h with
    | last hd => simp [balanced, hd]
    | inner _ ih => simp [balanced, ih]
    | outer hd _ ih => simp [balanced, hd, ih]
    | other h₁ h₂ _ ih => simp_all [balanced]

theorem Balanced.ne_nil {depth : Nat} {e : Text} (h : Balanced depth e) : e ≠ [] := by
  cases h <;> simp

theorem Balanced.getLast? {depth : Nat} {e : Text} (h : Balanced depth e) : e.getLast? = some ')' := by
  induction h with
  | last => rfl
  | inner _ ih | outer _ _ ih | other _ _ _ ih =>
    rw [List.getLast?_cons, ih]
    rfl

end PartialName

namespace Lowering

open PartialName

theorem Balanced.other_this {depth : Nat} {s : Text} (h : Balanced depth s) :
    Balanced depth ("this".toList ++ s) :=
  .other (by decide) (by decide) (.other (by decide) (by decide)
    (.other (by decide) (by decide) (.other (by decide) (by decide) h)))

/-- Spelling out lone dots keeps the parentheses. -/
theorem balanced_spellContext {depth : Nat} {e : Text} (h : Balanced depth e)
    (quote prev : Option Char) :
    Balanced depth (spellContext quote prev e) := by
  induction h generalizing quote prev with
  | last hd => cases quote <;> simp [spellContext, Balanced.last hd]
  | inner _ ih => cases quote <;> simpa [spellContext] using Balanced.inner (ih _ _)
  | outer hd _ ih => cases quote <;> simpa [spellContext] using Balanced.outer hd (ih _ _)
  | other h₁ h₂ _ ih =>
    unfold spellContext
    split
    · exact .other h₁ h₂ (ih _ _)
    · split
      · exact .other h₁ h₂ (ih _ _)
      · split
        · exact Balanced.other_this (ih _ _)
        · exact .other h₁ h₂ (ih _ _)

theorem head?_spellContext (quote prev : Option Char) (e x : Text) :
    (spellContext quote prev e ++ x).head? = some '}' → (e ++ x).head? = some '}' := by
  cases e with
  | nil => exact id
  | cons c e =>
    unfold spellContext
    repeat' split
    all_goals first
      | exact id
      | simp

/-- Spelling out lone dots brings no closing braces together. -/
theorem closeless_spellContext (e x : Text) (quote prev : Option Char) (h : Closeless (e ++ x)) :
    Closeless (spellContext quote prev e ++ x) := by
  induction e generalizing quote prev with
  | nil => exact h
  | cons c e ih =>
    rw [List.cons_append, closeless_cons] at h
    have keep (q p : Option Char) : Closeless (c :: spellContext q p e ++ x) := by
      rw [List.cons_append, closeless_cons]
      refine ⟨fun hc hd => h.1 hc ?_, ih q p h.2⟩
      rw [List.append_assoc] at hd ⊢
      exact head?_spellContext q p e _ hd
    unfold spellContext
    split
    · exact keep _ _
    · split
      · exact keep _ _
      · split
        · rw [List.append_assoc, Closeless.append_left (by decide)]
          exact ih _ _ h.2
        · exact keep _ _

end Lowering

/-! ## Reading names -/

namespace PartialName

/-- Nothing follows, or a blank. -/
def Apart (rest : Text) : Prop :=
  ∀ c, rest.head? = some c → Text.isAsciiBlank c = true

/-- The content of an invocation, read as a name and the text after it. -/
inductive Reads (start : Nat) : Text → PartialName → Text → Prop
  | computed {e rest : Text} : e.head? = some '(' → Balanced 0 e →
      Reads start (e ++ rest) (.computed ⟨start, e⟩) rest
  | fixed {token rest : Text} : token.head? ≠ some '(' → splitToken (token ++ rest) = .ok (token, rest) →
      (unquote token).isEmpty = false → Reads start (token ++ rest) (.fixed ⟨start, token⟩) rest

theorem splitToken_eq {s token rest : Text} (h : splitToken s = .ok (token, rest)) :
    s = token ++ rest := by
  have enclosed {first last : Char} {r inner rest' : Text}
      (hc : Text.splitOnce last r = some (inner, rest'))
      (h : (first :: inner ++ [last], rest') = (token, rest)) : first :: r = token ++ rest := by
    obtain ⟨rfl, rfl⟩ := Prod.mk.inj h
    rw [Text.cut_eq hc]
    simp
  unfold splitToken at h
  split at h
  iterate 3
    · simp only at h
      split at h
      · cases h
      · next hc => exact enclosed hc (Except.ok.inj h)
  · exact Text.eq_of_run (Except.ok.inj h)

theorem read_eq_ok_iff {inner : Slice} {name : PartialName} {params : Text} :
    read inner = .ok (name, params) ↔
      ∃ rest, Reads inner.start inner.text name rest ∧ params = Text.trim rest := by
  constructor
  · intro h
    unfold read at h
    split at h
    · simp at h
    · next r hs =>
      split at h
      · simp at h
      · next e rest hb =>
        obtain ⟨rfl, rfl⟩ := Prod.mk.inj (Except.ok.inj h)
        obtain ⟨he, hbal⟩ := balanced_eq_some_iff.1 hb
        refine ⟨rest, he ▸ .computed ?_ hbal, rfl⟩
        obtain ⟨c, e, rfl⟩ := List.exists_cons_of_ne_nil hbal.ne_nil
        rw [hs] at he
        rw [List.head?_cons, (List.cons.inj he).1]
    · next s hne hpar =>
      split at h
      · simp at h
      · next token rest ht =>
        split at h
        · simp at h
        · next hu =>
          obtain ⟨rfl, rfl⟩ := Prod.mk.inj (Except.ok.inj h)
          have hs := splitToken_eq ht
          refine ⟨rest, ?_, rfl⟩
          rw [hs]
          refine .fixed (fun hp => ?_) (hs ▸ ht) (by simpa using hu)
          obtain ⟨r, rfl⟩ := List.head?_eq_some_iff.1 hp
          exact hpar _ hs
  · rintro ⟨rest, h, rfl⟩
    obtain ⟨i, s⟩ := inner
    cases h with
    | @computed e _ hp hb =>
      have hbal := balanced_eq_some_iff.2 ⟨rfl (a := e ++ rest), hb⟩
      obtain ⟨r, rfl⟩ := List.head?_eq_some_iff.1 hp
      change read ⟨i, '(' :: (r ++ rest)⟩ = _
      rw [List.cons_append] at hbal
      simp only [read, hbal]
    | @fixed token _ hp ht hu =>
      unfold read
      split
      · next hnil =>
        simp [(List.append_eq_nil_iff.1 hnil).1, unquote] at hu
      · next r hpar =>
        cases token with
        | nil => simp [unquote] at hu
        | cons c token => simp [(List.cons.inj hpar).1] at hp
      · simp [ht, hu]

theorem Reads.eq {start : Nat} {s rest : Text} {name : PartialName} (h : Reads start s name rest) :
    s = name.token.text ++ rest ∧ name.token.start = start ∧ name.token.text ≠ [] := by
  cases h with
  | computed _ hb => exact ⟨rfl, rfl, hb.ne_nil⟩
  | @fixed token _ _ _ hu =>
    refine ⟨rfl, rfl, fun h0 => ?_⟩
    obtain rfl : token = [] := h0
    exact nomatch hu

theorem Reads.unquote_ne_nil {start : Nat} {s rest : Text} {name : PartialName}
    (h : Reads start s name rest) : unquote name.token.text ≠ [] := by
  cases h with
  | @computed e _ hp _ =>
    obtain ⟨r, rfl⟩ := List.head?_eq_some_iff.1 hp
    change unquote ('(' :: r) ≠ []
    cases hr : r.getLast? <;> simp [unquote, hr]
  | @fixed token _ _ _ hu =>
    change unquote token ≠ []
    exact fun h0 => by simp [h0] at hu

/-- A name whose token is bare ends before a blank. -/
theorem Reads.apart_of_bare {start : Nat} {s rest : Text} {token : Slice}
    (h : Reads start s (.fixed token) rest)
    (hbare : ∀ q ∈ ['"', '\'', '['], token.text.head? ≠ some q) : Apart rest := by
  cases h with
  | @fixed t _ _ ht hu =>
    have head {q : Char} {r : Text} (hr : t ++ rest = q :: r) : t.head? = some q := by
      cases t with
      | nil => simp [unquote] at hu
      | cons c t => rw [List.head?_cons, (List.cons.inj hr).1]
    unfold splitToken at ht
    split at ht
    · next r hr => exact absurd (head hr) (hbare _ (by simp))
    · next r hr => exact absurd (head hr) (hbare _ (by simp))
    · next r hr => exact absurd (head hr) (hbare _ (by simp))
    · intro c hc
      have hrun := (Prod.mk.inj (Except.ok.inj ht)).2
      have := List.head?_dropWhile_not (fun c => !Text.isAsciiBlank c) (t ++ rest)
      rw [show List.dropWhile (fun c => !Text.isAsciiBlank c) (t ++ rest) = rest from hrun, hc] at this
      simpa using this

/-! ## Lowered names -/

/-- The name at another place. -/
def moved (start : Nat) : PartialName → PartialName
  | fixed token => fixed ⟨start, token.text⟩
  | computed expression => computed ⟨start, expression.text⟩

@[simp] theorem moved_moved (i j : Nat) (name : PartialName) :
    (name.moved i).moved j = name.moved j := by
  cases name <;> rfl

theorem Reads.moved {start : Nat} {s rest : Text} {name : PartialName} (h : Reads start s name rest)
    (start' : Nat) : Reads start' s (name.moved start') rest := by
  cases h with
  | computed hp hb => exact .computed hp hb
  | fixed hp ht hu => exact .fixed hp ht hu

/-- The name in the form that the runtime reads: a free name is a registry name, and in a computed one
each lone dot is spelled out. -/
def lowered (declared : List Text) (key : Text → Text) : PartialName → PartialName
  | fixed token =>
    if Node.isFree declared (unquote token.text) then
      fixed ⟨token.start, Alias.ofReference (key (unquote token.text))⟩
    else fixed token
  | computed expression => computed ⟨expression.start, Lowering.runtimeExpression expression.text⟩

variable {declared : List Text} {key : Text → Text}

theorem lowered_free {token : Slice} (h : Node.isFree declared (unquote token.text) = true) :
    (fixed token).lowered declared key =
      fixed ⟨token.start, Alias.ofReference (key (unquote token.text))⟩ :=
  if_pos h

theorem lowered_bound {token : Slice} (h : Node.isFree declared (unquote token.text) = false) :
    (fixed token).lowered declared key = fixed token :=
  if_neg (Bool.eq_false_iff.1 h)

theorem splitToken_ofReference {reference rest : Text} (h : Apart rest) :
    splitToken (Alias.ofReference reference ++ rest) = .ok (Alias.ofReference reference, rest) := by
  have hrun : Text.run (fun c => !Text.isAsciiBlank c) (Alias.ofReference reference ++ rest) =
      (Alias.ofReference reference, rest) := by
    have hplain : ∀ c ∈ Alias.ofReference reference, (!Text.isAsciiBlank c) = true := fun c hc => by
      simp [Alias.isAsciiBlank_of_plain (Alias.isPlainChar_of_mem hc)]
    exact Text.run_of_all hplain fun c hc => by simp [h c hc]
  have head {q : Char} {r : Text} (hq : Alias.isPlainChar q = false) :
      Alias.ofReference reference ++ rest ≠ q :: r := fun hr => by
    obtain ⟨c, a, ha⟩ := List.exists_cons_of_ne_nil (Alias.ofReference_ne_nil reference)
    rw [ha, List.cons_append] at hr
    refine Alias.notMem_ofReference reference hq ?_
    rw [ha, (List.cons.inj hr).1]
    exact List.mem_cons_self
  unfold splitToken
  split
  · next hr => exact absurd hr (head (by decide))
  · next hr => exact absurd hr (head (by decide))
  · next hr => exact absurd hr (head (by decide))
  · rw [hrun]

/-- A name reads back in its lowered form, unless it is to be a registry name and something stands right
after it. -/
theorem Reads.lowered {start : Nat} {s rest : Text} {name : PartialName} (h : Reads start s name rest)
    (ha : ∀ token, name = .fixed token → Node.isFree declared (unquote token.text) = true → Apart rest)
    (start' : Nat) :
    Reads start' ((name.lowered declared key).token.text ++ rest)
      ((name.lowered declared key).moved start')
      rest := by
  cases h with
  | @computed e _ hp hb =>
    refine .computed ?_ (Lowering.balanced_spellContext hb none none)
    obtain ⟨r, rfl⟩ := List.head?_eq_some_iff.1 hp
    rfl
  | @fixed token _ hp ht hu =>
    cases hfree : Node.isFree declared (unquote token) with
    | true =>
      rw [lowered_free hfree]
      refine .fixed (fun hh => ?_) (splitToken_ofReference (ha _ rfl hfree)) ?_
      · exact Alias.notMem_ofReference _ (by decide : Alias.isPlainChar '(' = false)
          (List.mem_of_head? hh)
      · change (unquote (Alias.ofReference _)).isEmpty = false
        simp [Alias.unquote_ofReference, Alias.ofReference_ne_nil]
    | false =>
      rw [lowered_bound hfree]
      exact .fixed hp ht hu

/-! ## Lowered names in a tag -/

/-- The text before `rest` can be exchanged for one that has no blank and no tilde at its ends. -/
theorem exchange_append {token new rest : Text} (hne : new ≠ [])
    (hhead : ∀ c, new.head? = some c → Text.isAsciiBlank c = false)
    (hlast : ∀ c, new.getLast? = some c → Text.isAsciiBlank c = false ∧ c ≠ '~')
    (hcl : ∀ x, Closeless (token ++ x) → Closeless (new ++ x)) (hold : Text.Trimmed (token ++ rest)) :
    Tag.Exchange (token ++ rest) (new ++ rest) where
  trimmed := by
    refine ⟨fun c hc => hhead c ?_, fun c hc => ?_⟩
    · obtain ⟨d, r, rfl⟩ := List.exists_cons_of_ne_nil hne
      exact hc
    · cases hr : rest.getLast? with
      | some d =>
        rw [List.getLast?_append, hr] at hc
        exact hold.2 c (by rw [List.getLast?_append, hr, ← hc]; rfl)
      | none =>
        rw [List.getLast?_append, hr, Option.none_or] at hc
        exact (hlast c hc).1
  ne_nil := by simp [hne]
  closeless := fun x h => by
    rw [List.append_assoc] at h ⊢
    exact hcl _ h
  tilde := fun h => by
    cases hr : rest.getLast? with
    | some d => rwa [List.getLast?_append, hr] at h ⊢
    | none =>
      rw [List.getLast?_append, hr, Option.none_or] at h
      exact absurd rfl (hlast _ h).2

/-- A registry name can stand in any tag in the place of a text. -/
theorem exchange_ofReference (reference : Text) {token rest : Text} (h : Text.Trimmed (token ++ rest)) :
    Tag.Exchange (token ++ rest) (Alias.ofReference reference ++ rest) := by
  have plain {c : Char} (hc : c ∈ Alias.ofReference reference) := Alias.isPlainChar_of_mem hc
  refine exchange_append (Alias.ofReference_ne_nil _) (fun c hc => ?_) (fun c hc => ⟨?_, ?_⟩)
    (fun x hx => ?_) h
  · exact Alias.isAsciiBlank_of_plain (plain (List.mem_of_head? hc))
  · exact Alias.isAsciiBlank_of_plain (plain (List.mem_of_getLast? hc))
  · rintro rfl
    exact Alias.notMem_ofReference _ (by decide) (List.mem_of_getLast? hc)
  · rw [Closeless.append_left (Alias.notMem_ofReference _ (by decide))]
    exact hx.of_append

variable (declared key) in
theorem exchange_lowered {start : Nat} {s rest : Text} {name : PartialName} (h : Reads start s name rest)
    (ht : Text.Trimmed s) : Tag.Exchange s ((name.lowered declared key).token.text ++ rest) := by
  cases h with
  | @computed e _ hp hb =>
    have hb' := Lowering.balanced_spellContext hb none none
    refine exchange_append hb'.ne_nil (fun c hc => ?_) (fun c hc => ?_)
      (fun x hx => Lowering.closeless_spellContext e x none none hx) ht
    · obtain ⟨r, rfl⟩ := List.head?_eq_some_iff.1 hp
      rw [← Option.some.inj hc]
      rfl
    · rw [← Option.some.inj (hb'.getLast?.symm.trans hc)]
      decide
  | @fixed token _ _ _ hu =>
    cases hfree : Node.isFree declared (unquote token) with
    | true =>
      rw [lowered_free hfree]
      exact exchange_ofReference _ ht
    | false =>
      rw [lowered_bound hfree]
      refine ⟨ht, fun h0 => ?_, fun _ h => h, id⟩
      obtain rfl : token = [] := (List.append_eq_nil_iff.1 h0).1
      exact nomatch hu

/-- The closing tag of an invocation as the runtime reads it. -/
def closing (declared : List Text) (key : Text → Text) (name : PartialName) (close : Text) : Text :=
  match name with
  | fixed token =>
    if Node.isFree declared (unquote token.text) then Alias.ofReference (key (unquote token.text))
    else close
  | computed _ => close

/-- Where a name stands does not matter for the tag that closes its block. -/
theorem closedBy_congr {name name' : PartialName} {params params' : Text}
    (h : name'.moved 0 = name.moved 0) (s : Text) :
    Opener.closedBy (.invocation name' params') s = Opener.closedBy (.invocation name params) s := by
  obtain ⟨i, a⟩ | ⟨i, a⟩ := name <;> obtain ⟨j, b⟩ | ⟨j, b⟩ := name' <;> cases h <;> rfl

/-- The lowered closing tag closes the block of the lowered name. -/
theorem closedBy_lowered {name : PartialName} {params close : Text}
    (h : Opener.closedBy (.invocation name params) close = true) :
    Opener.closedBy (.invocation (name.lowered declared key) params)
      (name.closing declared key close) = true := by
  cases name with
  | computed => simp [Opener.closedBy, lowered, isComputed]
  | fixed token =>
    cases hfree : Node.isFree declared (unquote token.text) with
    | true => simp [Opener.closedBy, Opener.closingName, lowered, closing, hfree, PartialName.token]
    | false => simpa [lowered, closing, hfree] using h

/-- A tag that closes the block of a fixed name is not empty. -/
theorem close_ne_nil {token : Slice} {params close : Text}
    (hc : Opener.closedBy (.invocation (.fixed token) params) close = true)
    (hne : unquote token.text ≠ []) : close ≠ [] := by
  intro h0
  simp only [Opener.closedBy, Opener.closingName, isComputed, h0, Bool.or_false, Bool.or_eq_true,
    decide_eq_true_eq] at hc
  rcases hc with hc | hc
  · exact hne (congrArg unquote hc)
  · exact hne hc

variable (declared key) in
/-- A closing tag that has to change is not empty, and the registry name can stand in it. -/
theorem exchange_closing {name : PartialName} {params close : Text}
    (hc : Opener.closedBy (.invocation name params) close = true) (hne : unquote name.token.text ≠ [])
    (ht : Text.Trimmed close) :
    name.closing declared key close = close ∨
      close ≠ [] ∧ Tag.Exchange close (name.closing declared key close) := by
  unfold closing
  cases name with
  | computed => exact .inl rfl
  | fixed token =>
    simp only
    split
    · have hx := exchange_ofReference (key (unquote token.text)) (List.append_nil close ▸ ht)
      rw [List.append_nil, List.append_nil] at hx
      exact .inr ⟨close_ne_nil hc hne, hx⟩
    · exact .inl rfl

end PartialName

/-! ## The end of a name in a source -/

/-- The text ends a name that stands before it: it begins with a blank or with the end of a tag. -/
def endsName (s : Text) : Bool :=
  Text.startsWith close2 s || Text.startsWith ('~' :: close2) s || s.head?.any Text.isAsciiBlank

theorem Closeless.eq_nil_of_startsWith {s x : Text} (h : Closeless s)
    (hx : Text.startsWith close2 (s ++ close2 ++ x) = true) : s = [] := by
  obtain ⟨y, hy⟩ := Option.isSome_iff_exists.1 hx
  have hcut := (cut_close2_iff (x := x)).2 h
  have := Text.cut_first hcut (a := []) (b := y) (Text.after?_eq hy)
  simpa using this

/-- What follows a name in the content of a tag is blank if it is so in the source. -/
theorem Tag.Spelled.apart {kind : TagKind} {a token rest b x : Text}
    (h : Tag.Spelled kind a (token ++ rest) b) (he : endsName (rest ++ (b ++ x)) = true) :
    PartialName.Apart rest := by
  intro c hc
  obtain ⟨r, rfl⟩ := List.head?_eq_some_iff.1 hc
  cases h with
  | @intro _ _ _ _ blanks tilde _ _ _ _ _ _ hcl htl =>
    rw [List.append_assoc] at hcl
    have hrest := hcl.of_append
    unfold endsName at he
    rw [Bool.or_eq_true, Bool.or_eq_true] at he
    rcases he with (he | he) | he
    · have := hrest.eq_nil_of_startsWith (x := x) (by simpa using he)
      simp at this
    · obtain ⟨y, hy⟩ := Option.isSome_iff_exists.1 he
      obtain ⟨rfl, -⟩ := List.cons.inj (Text.after?_eq hy)
      have htail : Closeless (r ++ (blanks ++ tilde)) := by
        rw [List.cons_append, closeless_cons] at hrest
        exact hrest.2
      have := htail.eq_nil_of_startsWith (x := x) (by
        simpa [Text.startsWith, Text.after?] using he)
      simp only [List.append_eq_nil_iff] at this
      obtain ⟨rfl, rfl, rfl⟩ := this
      rcases htl with h0 | ⟨-, h0⟩
      · cases h0
      · simp at h0
    · simpa using he

end Stencil
