import Stencil.Proofs.Markup.Cursor
/-!
The loops of the markup scanner that only move an offset, and the search for the end of a raw block.

Each ends where the reader that works on the rest of the text leaves off: the loops over attribute names,
bare values and raw text, and `findRawBlock`.
-/

namespace Stencil.Scan

variable {s r mark name helper : Text} {i j k : Nat} {c d : Char}

/-! ## Attribute names and values -/

/-- The end of the attribute name at an offset. -/
def attributeEnd (s : Text) (i : Nat) : Scan Nat :=
  walk s (fun i => do
    let c ← byte s i
    if Text.isAsciiBlank c || c = '=' || c = '>' then .ok none
    else if ← stands s i ['/', '>'] then .ok none
    else .ok (some (i + 1))) i

/-- The end of the attribute value without quotation marks at an offset; mustache tags are passed over
whole. -/
def bareEnd (s : Text) (i : Nat) : Scan Nat :=
  walk s (fun i => do
    let c ← byte s i
    if Text.isAsciiBlank c || c = '>' then .ok none
    else if ← stands s i open2 then .ok (some (← skipPast s (i + 2) close2))
    else .ok (some (i + 1))) i

/-- The end of the content of a raw-text element at an offset. -/
def rawTextEnd (s lower : Text) (name : Text) (i : Nat) : Scan Nat :=
  walk s (fun i => do
    if ← isEndTag lower i name then .ok none else .ok (some (i + 1))) i

theorem endsAttribute_inAscii : Text.InAscii fun c => Text.isAsciiBlank c || c = '=' || c = '>' := by
  intro c h
  simp only [Bool.or_eq_true, decide_eq_true_eq] at h
  rcases h with (h | rfl) | rfl
  · exact Text.inAscii_isAsciiBlank c h
  · decide
  · decide

theorem endsBare_inAscii : Text.InAscii fun c => Text.isAsciiBlank c || c = '>' := by
  intro c h
  exact endsName_inAscii c ((Bool.or_comm _ _).trans h)

theorem At.attributeEnd (h : At s i r) :
    attributeEnd s i = .ok (i + Text.size (Markup.attributeName r).1) := by
  rw [Scan.attributeEnd]
  fun_induction Markup.attributeName r generalizing i with
  | case1 => exact walk_of_le (Nat.le_of_eq h.size_eq.symm)
  | case2 r =>
    rw [walk_stop]
    · rfl
    · rw [h.byte_ascii (by decide), h.stands]
      rfl
  | case3 c r hn hc =>
    obtain ⟨d, hd, hs⟩ := h.byte_head
    rw [walk_stop]
    · rfl
    · rw [hd, ok_bind, if_pos ((hs.congr endsAttribute_inAscii).trans hc)]
  | case4 c r hn hc ih =>
    rw [h.walk_char fun k hk => ?_]
    · rw [Text.size_cons, ← Nat.add_assoc]
      exact ih h.cons
    · obtain ⟨d, hd, hs⟩ := h.byte hk
      rw [hd, ok_bind, if_neg (by rw [hs.congr endsAttribute_inAscii]; exact hc),
        h.stands_amid hk (by decide) (Text.startsWith_pair_eq_false hn)]
      rfl

theorem At.bareEnd (h : At s i r) : bareEnd s i = .ok (i + Text.size (Markup.bareValue r).1) := by
  rw [Scan.bareEnd]
  fun_induction Markup.bareValue r generalizing i with
  | case1 => exact walk_of_le (Nat.le_of_eq h.size_eq.symm)
  | case2 r p q =>
    rename_i ih
    have h2 : At s (i + 2) r := h.append (t := open2)
    have hp : At s (i + 2 + Text.size p.1) p.2 := h2.past close2
    rw [walk_onward (j := i + 2 + Text.size p.1) _ (by omega) hp.le, ih hp]
    · simp only [Text.size_append, Nat.add_assoc]
      rfl
    · rw [h.byte_ascii (by decide), ok_bind, if_neg (by decide), h.stands]
      exact congrArg (· >>= fun j => Except.ok (some j)) (h2.skipPast close2)
  | case3 c r hn hc =>
    obtain ⟨d, hd, hs⟩ := h.byte_head
    rw [walk_stop]
    · rfl
    · rw [hd, ok_bind, if_pos ((hs.congr endsBare_inAscii).trans hc)]
  | case4 c r hn hc ih =>
    rw [h.walk_char fun k hk => ?_]
    · rw [Text.size_cons, ← Nat.add_assoc]
      exact ih h.cons
    · obtain ⟨d, hd, hs⟩ := h.byte hk
      rw [hd, ok_bind, if_neg (by rw [hs.congr endsBare_inAscii]; exact hc), open2,
        h.stands_amid hk (by decide) (Text.startsWith_pair_eq_false hn)]
      rfl

theorem At.rawTextEnd (h : At s i r) (name : Text) :
    rawTextEnd s (Text.lowerAscii s) name i = .ok (i + Text.size (Markup.rawText name r).1) := by
  rw [Scan.rawTextEnd]
  fun_induction Markup.rawText name r generalizing i with
  | case1 => exact walk_of_le (Nat.le_of_eq h.size_eq.symm)
  | case2 c r he =>
    rw [walk_stop]
    · rfl
    · rw [h.isEndTag name, he]
      rfl
  | case3 c r he ih =>
    rw [h.walk_char fun k hk => ?_]
    · rw [Text.size_cons, ← Nat.add_assoc]
      exact ih h.cons
    · rw [h.isEndTag_amid hk (Bool.eq_false_iff.2 he)]
      rfl

/-! ## Raw blocks -/

/-- Where the body of a raw block of `helper` stops and where its closing marker ends.  The search goes on
at the offset `i` with `depth` inner blocks of that helper open. -/
def bodyEnd (s helper : Text) (depth i : Nat) : Scan (Option (Nat × Nat)) := do
  match ← find s i open4 with
  | none => .ok none
  | some marker =>
    match ← find s (marker + 4) close4 with
    | none => .ok none
    | some tagEnd =>
      match RawBlock.depthAfter helper (← slice s (marker + 4) tagEnd) depth with
      | none => .ok (some (marker, tagEnd + 4))
      | some d => onward s i (tagEnd + 4) fun _ => bodyEnd s helper d (tagEnd + 4)
termination_by Text.size s - i
decreasing_by omega

/-- A raw block in a text: its helper, the offsets around its content, and the offset after it. -/
structure FoundBlock where
  helper : Text
  contentStart : Nat
  contentEnd : Nat
  stop : Nat

/-- The raw block whose opening marker stands at an offset. -/
def findRawBlock (s : Text) (i : Nat) : Scan (Option FoundBlock) := do
  match ← find s (i + 4) close4 with
  | none => .ok none
  | some openEnd =>
    match Text.firstWord (← slice s (i + 4) openEnd) with
    | none => .ok none
    | some helper =>
      if helper.head? = some '/' then .ok none
      else do
        let found ← bodyEnd s helper 0 (openEnd + 4)
        .ok (found.map fun p => ⟨helper, openEnd + 4, p.1, p.2⟩)

theorem At.bodyEnd {depth : Nat} (h : At s i r) :
    bodyEnd s helper depth i = .ok ((RawBlock.readBody helper depth r).map fun p =>
      (i + Text.size p.1, i + Text.size p.1 + 4 + Text.size p.2.1 + 4)) := by
  fun_induction RawBlock.readBody helper depth r generalizing i with
  | case1 depth r hc =>
    rw [Scan.bodyEnd, h.find, hc]
    rfl
  | case2 depth r before r' hc hc' =>
    have h' : At s (i + Text.size before + 4) r' := h.cut hc
    rw [Scan.bodyEnd, h.find, hc]
    simp only [Option.map_some, ok_bind, h'.find, hc']
    rfl
  | case3 depth r before r' hc tag r'' hc' hd =>
    have h' : At s (i + Text.size before + 4) r' := h.cut hc
    rw [Scan.bodyEnd, h.find, hc]
    simp only [Option.map_some, ok_bind, h'.find, hc', h'.slice_cut hc', hd]
  | case4 depth r before r' hc tag r'' hc' d hd ih =>
    have h' : At s (i + Text.size before + 4) r' := h.cut hc
    have h'' : At s (i + Text.size before + 4 + Text.size tag + 4) r'' := h'.cut hc'
    rw [Scan.bodyEnd, h.find, hc]
    simp only [Option.map_some, ok_bind, h'.find, hc', h'.slice_cut hc', hd]
    rw [onward_of ⟨by omega, h''.le⟩, ih h'', Option.map_map]
    congr 2
    funext p
    have h4 : Text.size open4 = 4 ∧ Text.size close4 = 4 := ⟨rfl, rfl⟩
    simp only [Function.comp, Text.size_append, h4, Nat.add_assoc]

theorem At.findRawBlock (h : At s i (open4 ++ r)) :
    findRawBlock s i = .ok ((RawBlock.read (open4 ++ r)).map fun p =>
      ⟨p.1.helper, i + 4 + Text.size p.1.head + 4,
        i + 4 + Text.size p.1.head + 4 + Text.size p.1.content, i + Text.size p.1.written⟩) := by
  have h' : At s (i + 4) r := h.append
  generalize hread : RawBlock.read (open4 ++ r) = found
  rw [RawBlock.read, Text.after?_append] at hread
  simp only at hread
  rw [Scan.findRawBlock, h'.find]
  split at hread
  · next hc =>
    subst hread
    rw [hc]
    rfl
  · next head r' hc =>
    have hbody : At s (i + 4 + Text.size head + 4) r' := h'.cut hc
    rw [hc]
    simp only [Option.map_some, ok_bind, h'.slice_cut hc]
    split at hread
    · next hw =>
      subst hread
      rw [hw]
      rfl
    · next hw =>
      subst hread
      rw [hw]
      exact if_pos rfl
    · next helper hns hw =>
      have hhead : helper.head? ≠ some '/' := fun he =>
        (List.head?_eq_some_iff.1 he).elim hns
      subst hread
      rw [hw]
      refine (if_neg hhead).trans ?_
      rw [hbody.bodyEnd, ok_bind, Option.map_map, Option.map_map]
      congr 2
      funext p
      have h4 : Text.size open4 = 4 ∧ Text.size close4 = 4 := ⟨rfl, rfl⟩
      simp [RawBlock.helper, hw, RawBlock.written, h4, Nat.add_assoc]

end Stencil.Scan
