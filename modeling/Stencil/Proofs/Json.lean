import Mathlib
import Stencil.Json.Reader
import Stencil.Proofs.Except
import Stencil.Proofs.Table
import Stencil.Proofs.Text.Cut
/-!
JSON documents that are written and read.

A document in which objects are in order, numbers are integers of 64 bits and values nest no deeper than
they may is read as it was written (`parse_compact`).  In every document that is read, objects are in
order (`ordered_of_parse`).
-/

namespace Stencil.Json

variable {r : Text} {n : Nat}

/-! ## Numbers -/

/-- The text ends, or goes on with what stands after a value. -/
inductive Ends : Text → Prop
  | nil : Ends []
  | comma {r : Text} : Ends (',' :: r)
  | bracket {r : Text} : Ends (']' :: r)
  | brace {r : Text} : Ends ('}' :: r)

theorem Ends.not_digit {c : Char} (h : Ends r) (hc : r.head? = some c) : c.isDigit = false := by
  cases h with
  | nil => exact nomatch hc
  | _ => exact Option.some.inj hc ▸ rfl

theorem isDigit_of_mem_ofNat {c : Char} (h : c ∈ Text.ofNat n) : c.isDigit = true :=
  Nat.isDigit_of_mem_toDigits (by decide) (by decide) h

theorem exists_head_ofNat (n : Nat) : ∃ c w, Text.ofNat n = c :: w ∧ c.isDigit = true := by
  obtain ⟨c, w, hw⟩ := List.exists_cons_of_ne_nil (Nat.toDigits_ne_nil (n := n) (b := 10))
  exact ⟨c, w, hw, isDigit_of_mem_ofNat (n := n) (by simp [Text.ofNat, hw])⟩

theorem head?_ofNat (h : 0 < n) : (Text.ofNat n).head? ≠ some '0' := by
  induction n using Nat.strong_induction_on with
  | _ n ih =>
  have hdigit : ∀ d, d < 10 → 0 < d → some (Nat.digitChar d) ≠ some '0' := by decide
  rw [Text.ofNat, Nat.toDigits_eq_if (by decide)]
  split
  · next hn => exact hdigit n hn h
  · rw [List.head?_append_of_ne_nil _ Nat.toDigits_ne_nil]
    exact ih (n / 10) (by omega) (by omega)

/-- A number in writing has no zero before other digits. -/
theorem no_leading_zero (n : Nat) :
    (decide ((Text.ofNat n).length > 1) && decide ((Text.ofNat n).head? = some '0')) = false := by
  rcases Nat.eq_zero_or_pos n with rfl | hn
  · rfl
  · simp [head?_ofNat hn]

theorem integral_of_lt {digits : Text} (h : Nat.ofDigitChars 10 digits 0 < Nat.pow 2 64) :
    Significand.integral digits = ⟨Nat.ofDigitChars 10 digits 0, 0⟩ := by
  induction digits using List.reverseRecOn with
  | nil => rfl
  | append_singleton digits c ih =>
    have hsnoc : Nat.ofDigitChars 10 (digits ++ [c]) 0 = Nat.ofDigitChars 10 digits 0 * 10 + digit c := by
      rw [Nat.ofDigitChars_append, Nat.ofDigitChars_cons, Nat.ofDigitChars_nil, Nat.mul_comm]
      rfl
    rw [hsnoc] at h ⊢
    rw [Significand.integral, List.foldl_append]
    have hfold := ih (by omega)
    rw [Significand.integral] at hfold
    rw [hfold, List.foldl_cons, List.foldl_nil, if_pos (by simpa using h)]

theorem integral_ofNat (h : n < Nat.pow 2 64) : Significand.integral (Text.ofNat n) = ⟨n, 0⟩ := by
  have hn : Nat.ofDigitChars 10 (Text.ofNat n) 0 = n := Nat.ofDigitChars_ten_toDigits
  rw [integral_of_lt (by rwa [hn]), hn]

theorem readNumber_digits (h : n < Nat.pow 2 64) (hr : Ends r) (negative : Bool) :
    readNumber ((if negative then ['-'] else []) ++ (Text.ofNat n ++ r)) =
      (readNumber.plain negative false ⟨n, 0⟩).map fun v => (v, r) := by
  have hrun : Text.run Char.isDigit (Text.ofNat n ++ r) = (Text.ofNat n, r) :=
    Text.run_of_all (fun _ => isDigit_of_mem_ofNat) fun _ => hr.not_digit
  have hne : (Text.ofNat n).isEmpty = false := List.isEmpty_eq_false_iff.2 Nat.toDigits_ne_nil
  have hsign : ∀ r', Text.ofNat n ++ r ≠ '-' :: r' := by
    intro r' he
    obtain ⟨c, w, hw, hc⟩ := exists_head_ofNat n
    rw [hw] at he
    rw [(List.cons.inj he).1] at hc
    exact nomatch hc
  have hmap (x : Except ReadFault Number) : (x >>= fun v => pure (v, r)) = x.map fun v => (v, r) := by
    cases x <;> rfl
  cases negative <;>
    simp only [readNumber, Bool.false_eq_true, if_true, if_false, List.nil_append, List.singleton_append,
      hrun, hne, no_leading_zero, integral_ofNat h]
  · cases hr <;> exact hmap (readNumber.plain false false ⟨n, 0⟩)
  · cases hr <;> exact hmap (readNumber.plain true false ⟨n, 0⟩)

/-- The integers of 64 bits, with a sign or without. -/
def IsWord (n : Int) : Prop :=
  -(2 ^ 63) ≤ n ∧ n < 2 ^ 64

theorem readNumber_text {n : Int} (h : IsWord n) (hr : Ends r) :
    readNumber ((Number.integer n).text ++ r) = .ok (.integer n, r) := by
  obtain ⟨hlo, hhi⟩ := h
  have h64 : Nat.pow 2 64 = 2 ^ 64 := rfl
  have h63 : Nat.pow 2 63 = 2 ^ 63 := rfl
  have hread := readNumber_digits (n := n.natAbs) (by omega) hr (decide (n < 0))
  rw [Number.text, List.append_assoc]
  by_cases hn : n < 0
  · have hplain : readNumber.plain true false ⟨n.natAbs, 0⟩ = .ok (.integer n) := by
      have hrange : (decide (n.natAbs = 0) || decide (n.natAbs > Nat.pow 2 63)) = false := by
        rw [Bool.or_eq_false_iff, decide_eq_false_iff_not, decide_eq_false_iff_not]
        omega
      have hvalue : -(n.natAbs : Int) = n := by omega
      rw [readNumber.plain, if_neg (by simp), if_neg (by simp), if_neg (Bool.eq_false_iff.1 hrange), hvalue]
    rw [decide_eq_true hn, hplain, if_pos rfl] at hread
    rw [if_pos hn, hread]
    rfl
  · have hplain : readNumber.plain false false ⟨n.natAbs, 0⟩ = .ok (.integer n) := by
      have hvalue : (n.natAbs : Int) = n := by omega
      simp [readNumber.plain, hvalue]
    rw [decide_eq_false hn, hplain, if_neg (by decide)] at hread
    rw [if_neg hn, hread]
    rfl

/-! ## Strings -/

theorem hex4_digits {c : Char} (h : c.toNat < 32) (r : Text) :
    hex4 ('0' :: '0' :: Text.Hex.digit (c.toNat / 16) :: Text.Hex.digit (c.toNat % 16) :: r) =
      some (c.toNat, r) := by
  have hzero : Text.Hex.value? '0' = some 0 := by decide
  have hsum : ((0 * 16 + 0) * 16 + c.toNat / 16) * 16 + c.toNat % 16 = c.toNat := by omega
  simp only [hex4, hzero, Text.Hex.value?_digit (c.toNat / 16) (by omega),
    Text.Hex.value?_digit (c.toNat % 16) (by omega), Option.bind_eq_bind, Option.bind_some, Option.pure_def,
    hsum]

theorem readUnits_digits {c : Char} (h : c.toNat < 32) (r : Text) :
    readUnits ('0' :: '0' :: Text.Hex.digit (c.toNat / 16) :: Text.Hex.digit (c.toNat % 16) :: r) =
      some (c, r) := by
  rw [readUnits, hex4_digits h]
  have hlow : (decide (0xD800 ≤ c.toNat) && decide (c.toNat < 0xDC00)) = false := by
    simp only [Bool.and_eq_false_iff, decide_eq_false_iff_not]
    omega
  have hhigh : (decide (0xDC00 ≤ c.toNat) && decide (c.toNat < 0xE000)) = false := by
    simp only [Bool.and_eq_false_iff, decide_eq_false_iff_not]
    omega
  simp only [hlow, hhigh, Bool.false_eq_true, if_false, Char.ofNat_toNat]

theorem readString_plain {c : Char} (hq : c ≠ '"') (hb : c ≠ '\\') (h : ¬ c.toNat < 32) (r : Text) :
    readString (c :: r) = (readString r).map fun p => (c :: p.1, p.2) := by
  rw [readString]
  · rw [if_neg (by simp [h, hb])]
  · exact hq
  · rintro r' rfl
    exact absurd rfl hb
  · rintro e r' rfl
    exact absurd rfl hb

/-- Each character is read as it was written. -/
theorem readString_escapeChar (c : Char) (r : Text) :
    readString (escapeChar c ++ r) = (readString r).map fun p => (c :: p.1, p.2) := by
  unfold escapeChar
  split
  case h_8 c hq hb hn hr ht h8 hc =>
    split
    · next hlt =>
      have hunits := readUnits_digits hlt r
      simp only [List.cons_append, List.nil_append]
      rw [readString]
      split
      · next hnone => cases hunits.symm.trans hnone
      · next hsome =>
        obtain ⟨rfl, rfl⟩ := Prod.mk.inj (Option.some.inj (hunits.symm.trans hsome))
        rfl
    · next hge => exact readString_plain hq hb hge r
  all_goals
    rw [List.cons_append, List.cons_append, readString]
    · rfl
    · decide

theorem readString_literal (s r : Text) : readString (s.flatMap escapeChar ++ '"' :: r) = .ok (s, r) := by
  induction s with
  | nil => rw [List.flatMap_nil, List.nil_append, readString]
  | cons c s ih =>
    rw [List.flatMap_cons, List.append_assoc, readString_escapeChar, ih]
    rfl

/-! ## Values -/

variable {depth fuel : Nat} {j : Json} {items : List Json} {fields : List (Text × Json)}

/-- What is read as it was written: no object has a field out of order, numbers are integers of 64 bits,
and values nest to `depth` at most. -/
inductive Readable : Nat → Json → Prop
  | null {depth : Nat} : Readable depth null
  | bool {depth : Nat} {b : Bool} : Readable depth (bool b)
  | integer {depth : Nat} {n : Int} : IsWord n → Readable depth (number (.integer n))
  | string {depth : Nat} {s : Text} : Readable depth (string s)
  | array {depth : Nat} {items : List Json} : (∀ v ∈ items, Readable depth v) →
      Readable (depth + 1) (array items)
  | object {depth : Nat} {fields : List (Text × Json)} : Table.Sorted fields →
      (∀ f ∈ fields, Readable depth f.2) → Readable (depth + 1) (object fields)

/-- The value is read where it is written, if there is fuel for each of its characters twice. -/
def ReadsBack (depth : Nat) (j : Json) : Prop :=
  ∀ fuel r, 2 * (compact j).length ≤ fuel → Ends r → readValue fuel depth (compact j ++ r) = .ok (j, r)

theorem skip_cons {c : Char} (h : isSpace c = false) (r : Text) : skip (c :: r) = c :: r :=
  List.dropWhile_cons_of_neg (by simp [h])

theorem exists_head_number (n : Int) :
    ∃ c w, (Number.integer n).text = c :: w ∧ (c = '-' ∨ c.isDigit = true) := by
  obtain ⟨c, w, hw, hc⟩ := exists_head_ofNat n.natAbs
  rw [Number.text, hw]
  by_cases hn : n < 0
  · exact ⟨'-', c :: w, by rw [if_pos hn, List.singleton_append], .inl rfl⟩
  · exact ⟨c, w, by rw [if_neg hn, List.nil_append], .inr hc⟩

theorem isSpace_of_number {c : Char} (h : c = '-' ∨ c.isDigit = true) : isSpace c = false ∧ c ≠ ']' := by
  rcases h with rfl | h
  · decide
  · constructor
    · rw [Bool.eq_false_iff]
      intro hs
      simp only [isSpace, Bool.or_eq_true, decide_eq_true_eq] at hs
      rcases hs with ((rfl | rfl) | rfl) | rfl <;> exact nomatch h
    · rintro rfl
      exact nomatch h

/-- A value in writing begins with a mark of its own. -/
theorem Readable.exists_head (h : Readable depth j) :
    ∃ c w, compact j = c :: w ∧ isSpace c = false ∧ c ≠ ']' := by
  cases h with
  | null => exact ⟨'n', "ull".toList, by rw [compact]; rfl, by decide, by decide⟩
  | @bool _ b =>
    cases b
    · exact ⟨'f', "alse".toList, by rw [compact]; rfl, by decide, by decide⟩
    · exact ⟨'t', "rue".toList, by rw [compact]; rfl, by decide, by decide⟩
  | @integer _ n _ =>
    obtain ⟨c, w, hw, hc⟩ := exists_head_number n
    exact ⟨c, w, by rw [compact, hw], isSpace_of_number hc⟩
  | string => exact ⟨'"', _, by rw [compact]; rfl, by decide, by decide⟩
  | array => exact ⟨'[', _, by rw [compact]; rfl, by decide, by decide⟩
  | object => exact ⟨'{', _, by rw [compact]; rfl, by decide, by decide⟩

theorem readValue_number {c : Char} (h : c = '-' ∨ c.isDigit = true) (r : Text) :
    readValue (fuel + 1) depth (c :: r) = (readNumber (c :: r)).map fun p => (number p.1, p.2) := by
  have hne (d : Char) (hd : d ≠ '-') (hd' : d.isDigit = false) : c ≠ d := by
    rintro rfl
    rcases h with rfl | h
    · exact hd rfl
    · exact nomatch h.symm.trans hd'
  rw [readValue, skip_cons (isSpace_of_number h).1]
  split
  case h_8 he =>
    obtain ⟨rfl, rfl⟩ := List.cons.inj he
    exact if_pos (by simpa using h)
  case h_1 he => exact nomatch he
  all_goals
    next he => exact absurd (List.cons.inj he).1 (hne _ (by decide) rfl)

theorem compactItems_cons (v w : Json) (rest : List Json) :
    compactItems (v :: w :: rest) = compact v ++ ',' :: compactItems (w :: rest) := by
  rw [compactItems]
  exact List.cons_ne_nil w rest

theorem compactFields_cons (k : Text) (v : Json) (f : Text × Json) (rest : List (Text × Json)) :
    compactFields ((k, v) :: f :: rest) =
      literal k ++ ':' :: compact v ++ ',' :: compactFields (f :: rest) := by
  rw [compactFields]
  exact List.cons_ne_nil f rest

theorem readItems_last {s : Text} {v : Json} (hv : readValue fuel depth s = .ok (v, ']' :: r)) :
    readItems (fuel + 1) depth s = .ok ([v], r) := by
  rw [readItems, hv]
  rfl

theorem readItems_next {s x : Text} {v : Json} (hv : readValue fuel depth s = .ok (v, ',' :: x))
    (hrest : readItems fuel depth x = .ok (items, r)) :
    readItems (fuel + 1) depth s = .ok (v :: items, r) := by
  rw [readItems, hv]
  change (readItems fuel depth x >>= _) = _
  rw [hrest]
  rfl

theorem readFields_last {k x : Text} {v : Json} (hv : readValue fuel depth x = .ok (v, '}' :: r)) :
    readFields (fuel + 1) depth (literal k ++ ':' :: x) = .ok ([(k, v)], r) := by
  rw [literal, List.append_assoc, List.cons_append, readFields, skip_cons (by decide)]
  change (readString (k.flatMap escapeChar ++ '"' :: ':' :: x) >>= _) = _
  rw [readString_literal]
  change (readValue fuel depth x >>= _) = _
  rw [hv]
  rfl

theorem readFields_next {k x y : Text} {v : Json} (hv : readValue fuel depth x = .ok (v, ',' :: y))
    (hrest : readFields fuel depth y = .ok (fields, r)) :
    readFields (fuel + 1) depth (literal k ++ ':' :: x) = .ok ((k, v) :: fields, r) := by
  rw [literal, List.append_assoc, List.cons_append, readFields, skip_cons (by decide)]
  change (readString (k.flatMap escapeChar ++ '"' :: ':' :: x) >>= _) = _
  rw [readString_literal]
  change (readValue fuel depth x >>= _) = _
  rw [hv]
  change (readFields fuel depth y >>= _) = _
  rw [hrest]
  rfl

theorem readValue_items {c : Char} {w : Text} (hc : isSpace c = false) (hne : c ≠ ']')
    (h : readItems fuel depth (c :: w) = .ok (items, r)) :
    readValue (fuel + 1) (depth + 1) ('[' :: c :: w) = .ok (array items, r) := by
  rw [readValue, skip_cons (by decide)]
  simp only [skip_cons hc]
  split
  · next he => exact absurd (List.cons.inj he).1 hne
  · rw [h]
    rfl

theorem readValue_fields {w : Text} (h : readFields fuel depth ('"' :: w) = .ok (fields, r)) :
    readValue (fuel + 1) (depth + 1) ('{' :: '"' :: w) = .ok (object (Table.ofPairs fields), r) := by
  rw [readValue, skip_cons (by decide)]
  change (readFields fuel depth ('"' :: w)).map _ = _
  rw [h]
  rfl

theorem readItems_compact (hne : items ≠ []) (h : ∀ v ∈ items, ReadsBack depth v) (r : Text)
    (hfuel : 2 * (compactItems items).length < fuel) :
    readItems fuel depth (compactItems items ++ ']' :: r) = .ok (items, r) := by
  induction items generalizing fuel with
  | nil => exact absurd rfl hne
  | cons v rest ih =>
    obtain ⟨fuel, rfl⟩ := Nat.exists_eq_succ_of_ne_zero (Nat.ne_zero_of_lt hfuel)
    have hv := h v List.mem_cons_self
    cases rest with
    | nil =>
      rw [compactItems] at hfuel ⊢
      exact readItems_last (hv fuel _ (by omega) .bracket)
    | cons w rest =>
      rw [compactItems_cons, List.length_append, List.length_cons] at hfuel
      rw [compactItems_cons, List.append_assoc, List.cons_append]
      refine readItems_next (hv fuel _ (by omega) .comma) ?_
      exact ih (List.cons_ne_nil w rest) (fun u hu => h u (List.mem_cons_of_mem v hu)) (by omega)

theorem readFields_compact (hne : fields ≠ []) (h : ∀ f ∈ fields, ReadsBack depth f.2) (r : Text)
    (hfuel : 2 * (compactFields fields).length < fuel) :
    readFields fuel depth (compactFields fields ++ '}' :: r) = .ok (fields, r) := by
  induction fields generalizing fuel with
  | nil => exact absurd rfl hne
  | cons f rest ih =>
    obtain ⟨k, v⟩ := f
    obtain ⟨fuel, rfl⟩ := Nat.exists_eq_succ_of_ne_zero (Nat.ne_zero_of_lt hfuel)
    have hv : ReadsBack depth v := h (k, v) List.mem_cons_self
    cases rest with
    | nil =>
      rw [compactFields, List.length_append, List.length_cons] at hfuel
      rw [compactFields, List.append_assoc, List.cons_append]
      exact readFields_last (hv fuel _ (by omega) .brace)
    | cons f rest =>
      simp only [compactFields_cons, List.length_append, List.length_cons] at hfuel
      rw [compactFields_cons, List.append_assoc, List.append_assoc, List.cons_append, List.cons_append]
      refine readFields_next (hv fuel _ (by omega) .comma) ?_
      exact ih (List.cons_ne_nil f rest) (fun g hg => h g (List.mem_cons_of_mem (k, v) hg)) (by omega)

theorem exists_head_items (hne : items ≠ []) (h : ∀ v ∈ items, Readable depth v) :
    ∃ c w, compactItems items = c :: w ∧ isSpace c = false ∧ c ≠ ']' := by
  obtain ⟨v, rest, rfl⟩ := List.exists_cons_of_ne_nil hne
  obtain ⟨c, w, hw, hc⟩ := (h v List.mem_cons_self).exists_head
  cases rest with
  | nil => exact ⟨c, w, by rw [compactItems, hw], hc⟩
  | cons u rest => exact ⟨c, _, by rw [compactItems_cons, hw, List.cons_append], hc⟩

theorem exists_head_fields (hne : fields ≠ []) : ∃ w, compactFields fields = '"' :: w := by
  obtain ⟨⟨k, v⟩, rest, rfl⟩ := List.exists_cons_of_ne_nil hne
  cases rest with
  | nil => exact ⟨_, by rw [compactFields, literal, List.cons_append, List.cons_append]⟩
  | cons f rest =>
    exact ⟨_, by rw [compactFields_cons, literal, List.cons_append, List.cons_append, List.cons_append]⟩

theorem Readable.compact_pos (h : Readable depth j) : 0 < (compact j).length := by
  obtain ⟨c, w, hw, -⟩ := h.exists_head
  rw [hw]
  exact Nat.succ_pos _

theorem Readable.readsBack_of (h : Readable depth j)
    (hread : ∀ fuel r, 2 * (compact j).length ≤ fuel + 1 → Ends r →
      readValue (fuel + 1) depth (compact j ++ r) = .ok (j, r)) : ReadsBack depth j := by
  intro fuel r hfuel hr
  have hpos := h.compact_pos
  obtain ⟨fuel, rfl⟩ := Nat.exists_eq_succ_of_ne_zero (show fuel ≠ 0 by omega)
  exact hread fuel r hfuel hr

/-- A value is read where it is written. -/
theorem Readable.readsBack (h : Readable depth j) : ReadsBack depth j := by
  induction h with
  | null =>
    refine readsBack_of .null fun fuel r _ _ => ?_
    rw [compact, readValue]
    rfl
  | @bool _ b =>
    refine readsBack_of .bool fun fuel r _ _ => ?_
    cases b <;>
    · rw [compact, readValue]
      rfl
  | @integer _ n hn =>
    refine readsBack_of (.integer hn) fun fuel r _ hr => ?_
    have hread := readNumber_text hn hr
    obtain ⟨c, w, hw, hc⟩ := exists_head_number n
    rw [hw, List.cons_append] at hread
    rw [compact, hw, List.cons_append, readValue_number hc, hread]
    rfl
  | @string _ s =>
    refine readsBack_of .string fun fuel r _ _ => ?_
    rw [compact, literal, List.append_assoc, List.cons_append, readValue, skip_cons (by decide)]
    change (readString (s.flatMap escapeChar ++ '"' :: r)).map _ = _
    rw [readString_literal]
    rfl
  | @array depth items h ih =>
    refine readsBack_of (.array h) fun fuel r hfuel _ => ?_
    rw [compact, List.length_append, List.length_cons, List.length_singleton] at hfuel
    rw [compact, List.append_assoc, List.cons_append, List.singleton_append]
    by_cases hne : items = []
    · rw [hne, readValue]
      rfl
    · have hitems : readItems fuel depth (compactItems items ++ ']' :: r) = .ok (items, r) :=
        readItems_compact hne ih r (by omega)
      obtain ⟨c, w, hw, hc, hc'⟩ := exists_head_items hne h
      rw [hw, List.cons_append] at hitems ⊢
      exact readValue_items hc hc' hitems
  | @object depth fields hs h ih =>
    refine readsBack_of (.object hs h) fun fuel r hfuel _ => ?_
    rw [compact, List.length_append, List.length_cons, List.length_singleton] at hfuel
    rw [compact, List.append_assoc, List.cons_append, List.singleton_append]
    by_cases hne : fields = []
    · rw [hne, readValue]
      rfl
    · have hfields : readFields fuel depth (compactFields fields ++ '}' :: r) = .ok (fields, r) :=
        readFields_compact hne ih r (by omega)
      obtain ⟨w, hw⟩ := exists_head_fields hne
      rw [hw, List.cons_append] at hfields ⊢
      rw [readValue_fields hfields, Table.ofPairs_of_sorted hs]

/-- A document in writing is read. -/
theorem parse_compact (h : Readable 127 j) : parse (compact j) = .ok j := by
  have hread := h.readsBack (2 * (compact j).length + 2) [] (Nat.le_add_right _ _) .nil
  rw [List.append_nil] at hread
  rw [parse, hread]
  rfl

/-! ## What is read is in order -/

/-- No object in the document has a field out of order. -/
inductive Ordered : Json → Prop
  | null : Ordered null
  | bool {b : Bool} : Ordered (bool b)
  | number {n : Number} : Ordered (number n)
  | string {s : Text} : Ordered (string s)
  | array {items : List Json} : (∀ v ∈ items, Ordered v) → Ordered (array items)
  | object {fields : List (Text × Json)} : Table.Sorted fields → (∀ f ∈ fields, Ordered f.2) →
      Ordered (object fields)

theorem ordered_of_readWord {word s : Text} {v w : Json} (hv : Ordered v) (h : readWord word v s = .ok (w, r)) :
    Ordered w := by
  unfold readWord at h
  split at h
  · exact (Prod.mk.inj (Except.ok.inj h)).1 ▸ hv
  · exact nomatch h

/-- The items of an array, taken apart: one, or one and more. -/
theorem readItems_eq_ok {s : Text} (h : readItems (fuel + 1) depth s = .ok (items, r)) :
    ∃ v x, readValue fuel depth s = .ok (v, x) ∧
      (items = [v] ∨ ∃ y more, readItems fuel depth y = .ok (more, r) ∧ items = v :: more) := by
  rw [readItems] at h
  obtain ⟨⟨v, x⟩, hv, h⟩ := Except.bind_eq_ok_iff.1 h
  refine ⟨v, x, hv, ?_⟩
  simp only at h
  split at h
  · exact .inl (Prod.mk.inj (Except.ok.inj h)).1.symm
  · next y _ =>
    obtain ⟨⟨more, rest⟩, hmore, h⟩ := Except.bind_eq_ok_iff.1 h
    obtain ⟨rfl, rfl⟩ := Prod.mk.inj (Except.ok.inj h)
    exact .inr ⟨y, more, hmore, rfl⟩
  · exact nomatch h
  · exact nomatch h

/-- The fields of an object, taken apart: one, or one and more. -/
theorem readFields_eq_ok {s : Text} (h : readFields (fuel + 1) depth s = .ok (fields, r)) :
    ∃ k v s' x, readValue fuel depth s' = .ok (v, x) ∧
      (fields = [(k, v)] ∨ ∃ y more, readFields fuel depth y = .ok (more, r) ∧ fields = (k, v) :: more) := by
  rw [readFields] at h
  split at h
  · obtain ⟨⟨k, x⟩, -, h⟩ := Except.bind_eq_ok_iff.1 h
    simp only at h
    split at h
    · next s' _ =>
      obtain ⟨⟨v, x⟩, hv, h⟩ := Except.bind_eq_ok_iff.1 h
      refine ⟨k, v, s', x, hv, ?_⟩
      simp only at h
      split at h
      · exact .inl (Prod.mk.inj (Except.ok.inj h)).1.symm
      · next y _ =>
        obtain ⟨⟨more, rest⟩, hmore, h⟩ := Except.bind_eq_ok_iff.1 h
        obtain ⟨rfl, rfl⟩ := Prod.mk.inj (Except.ok.inj h)
        exact .inr ⟨y, more, hmore, rfl⟩
      · exact nomatch h
      · exact nomatch h
    · exact nomatch h
    · exact nomatch h
  · exact nomatch h
  · exact nomatch h

theorem ordered_of_read (fuel : Nat) :
    (∀ depth s v r, readValue fuel depth s = .ok (v, r) → Ordered v) ∧
    (∀ depth s items r, readItems fuel depth s = .ok (items, r) → ∀ v ∈ items, Ordered v) ∧
    ∀ depth s fields r, readFields fuel depth s = .ok (fields, r) → ∀ f ∈ fields, Ordered f.2 := by
  induction fuel with
  | zero => exact ⟨nofun, nofun, nofun⟩
  | succ fuel ih =>
    obtain ⟨ihv, ihi, ihf⟩ := ih
    refine ⟨fun depth s v r h => ?_, fun depth s items r h => ?_, fun depth s fields r h => ?_⟩
    · rw [readValue] at h
      split at h
      case h_1 => exact nomatch h
      case h_2 =>
        obtain ⟨p, -, hp⟩ := Except.map_eq_ok_iff.1 h
        exact (Prod.mk.inj hp).1 ▸ .string
      case h_3 =>
        split at h
        · exact nomatch h
        · split at h
          · rw [← (Prod.mk.inj (Except.ok.inj h)).1]
            exact .array nofun
          · obtain ⟨p, hp, he⟩ := Except.map_eq_ok_iff.1 h
            rw [← (Prod.mk.inj he).1]
            exact .array (ihi _ _ _ _ hp)
      case h_4 =>
        split at h
        · exact nomatch h
        · split at h
          · rw [← (Prod.mk.inj (Except.ok.inj h)).1]
            exact .object Table.sorted_nil nofun
          · obtain ⟨p, hp, he⟩ := Except.map_eq_ok_iff.1 h
            rw [← (Prod.mk.inj he).1]
            exact .object (Table.sorted_ofPairs _) fun f hf =>
              ihf _ _ _ _ hp f (Table.mem_of_mem_ofPairs hf)
      case h_5 => exact ordered_of_readWord .null h
      case h_6 => exact ordered_of_readWord .bool h
      case h_7 => exact ordered_of_readWord .bool h
      case h_8 =>
        split at h
        · obtain ⟨p, -, hp⟩ := Except.map_eq_ok_iff.1 h
          exact (Prod.mk.inj hp).1 ▸ .number
        · exact nomatch h
    · obtain ⟨v, x, hv, rfl | ⟨y, more, hmore, rfl⟩⟩ := readItems_eq_ok h
      · exact List.forall_mem_singleton.2 (ihv _ _ _ _ hv)
      · exact List.forall_mem_cons.2 ⟨ihv _ _ _ _ hv, ihi _ _ _ _ hmore⟩
    · obtain ⟨k, v, s', x, hv, rfl | ⟨y, more, hmore, rfl⟩⟩ := readFields_eq_ok h
      · exact List.forall_mem_singleton.2 (ihv _ _ _ _ hv)
      · exact List.forall_mem_cons.2 ⟨ihv _ _ _ _ hv, ihf _ _ _ _ hmore⟩

/-- A document that is read is in order. -/
theorem ordered_of_parse {s : Text} (h : parse s = .ok j) : Ordered j := by
  obtain ⟨⟨v, rest⟩, hread, hend⟩ := Except.bind_eq_ok_iff.1 h
  simp only at hend
  split at hend
  · exact Except.ok.inj hend ▸ (ordered_of_read _).1 _ _ _ _ hread
  · exact nomatch hend

end Stencil.Json
