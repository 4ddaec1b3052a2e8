import Stencil.Markup.StartTag
/-!
Reading markup, and the escaping that keeps local templates for a later pass.

The reader is a text scanner: it knows start tags, comments, mustache tags, raw blocks and the elements
whose content is raw text, and takes everything else as it stands.  `source_ofText` says that nothing of
the markup is lost or changed in reading.
-/

namespace Stencil.Markup

/-- The name of local-template elements, unless another is chosen. -/
def defaultTag : Text := "template".toList

/-- Elements whose content is raw text. -/
def rawTextElements : List Text :=
  ["script".toList, "style".toList, "textarea".toList]

/-- Whether the end tag of the element `name` stands at the head of a text, in any case of ASCII
letters. -/
def isEndTag (name s : Text) : Bool :=
  match Text.after? ['<', '/'] s with
  | none => false
  | some r =>
    Text.lowerAscii (r.take name.length) = name &&
      match r.drop name.length with
      | [] => true
      | c :: _ => c = '>' || Text.isAsciiBlank c

/-- The content of a raw-text element, up to its end tag, and the rest. -/
def rawText (name : Text) : Text → Text × Text
  | [] => ([], [])
  | c :: r =>
    if isEndTag name (c :: r) then ([], c :: r)
    else (c :: (rawText name r).1, (rawText name r).2)

theorem rawText_eq (name s : Text) : (rawText name s).1 ++ (rawText name s).2 = s := by
  fun_induction rawText name s <;> simp_all

theorem rawText_rest_length (name s : Text) : (rawText name s).2.length ≤ s.length := by
  have h := congrArg List.length (rawText_eq name s)
  rw [List.length_append] at h
  omega

/-- The part after a start tag that is not scanned for tags, and the rest. -/
def plainContent (name s : Text) : Text × Text :=
  if rawTextElements.contains name then rawText name s else ([], s)

theorem plainContent_eq (name s : Text) : (plainContent name s).1 ++ (plainContent name s).2 = s := by
  unfold plainContent
  split
  · exact rawText_eq name s
  · rfl

theorem plainContent_rest_length (name s : Text) : (plainContent name s).2.length ≤ s.length := by
  have h := congrArg List.length (plainContent_eq name s)
  rw [List.length_append] at h
  omega

/-- The raw block, mustache tag or comment at the head of a text, and the rest. -/
def verbatim? (s : Text) : Option (Text × Text) :=
  match Text.after? open4 s with
  | some r =>
    match RawBlock.read s with
    | some (b, rest) => some (b.written, rest)
    | none => some (open4 ++ (Text.through close4 r).1, (Text.through close4 r).2)
  | none =>
    match Text.after? open2 s with
    | some r => some (open2 ++ (Text.through close2 r).1, (Text.through close2 r).2)
    | none =>
      (Text.after? "<!--".toList s).map fun r =>
        ("<!--".toList ++ (Text.through "-->".toList r).1, (Text.through "-->".toList r).2)

theorem verbatim?_eq {s t rest : Text} (h : verbatim? s = some (t, rest)) :
    s = t ++ rest ∧ t ≠ [] := by
  have key {mark close r : Text} (hr : Text.after? mark s = some r) (hm : mark ≠ [])
      (h : (mark ++ (Text.through close r).1, (Text.through close r).2) = (t, rest)) :
      s = t ++ rest ∧ t ≠ [] := by
    simp only [Prod.mk.injEq] at h
    rw [← h.1, ← h.2, List.append_assoc, Text.through_eq]
    exact ⟨Text.after?_eq hr, by simp [hm]⟩
  unfold verbatim? at h
  split at h
  · next r hr =>
    split at h
    · next b rest' hb =>
      simp only [Option.some.injEq, Prod.mk.injEq] at h
      rw [← h.1, ← h.2]
      exact ⟨RawBlock.read_eq hb, List.length_pos_iff.1 b.written_length_pos⟩
    · exact key hr (by simp [open4]) (Option.some.inj h)
  · split at h
    · next r hr => exact key hr (by simp [open2]) (Option.some.inj h)
    · obtain ⟨r, hr, h⟩ := Option.map_eq_some_iff.1 h
      exact key hr (by simp) h

theorem verbatim?_rest_length {s t rest : Text} (h : verbatim? s = some (t, rest)) :
    rest.length < s.length := by
  obtain ⟨he, hne⟩ := verbatim?_eq h
  have := List.length_pos_iff.2 hne
  rw [he, List.length_append]
  omega

/-! ## Reading -/

/-- What was read of a text of at most `n` characters, and what is left of it. -/
abbrev Reading (n : Nat) := { p : Markup × Text // p.2.length ≤ n }

/-- A reading of the rest of a text, with pieces put in front. -/
def Reading.lead {m n : Nat} (put : Markup → Markup) (h : m ≤ n) (p : Reading m) : Reading n :=
  ⟨(put p.1.1, p.1.2), Nat.le_trans p.2 h⟩

/-- Reads markup in which the local templates are named `tag`.  Inside the body of a local template,
reading stops before its end tag; what is left is handed back. -/
def read (tag : Text) (inside : Bool) (s : Text) : Except Disallowed (Reading s.length) :=
  match s with
  | [] => .ok ⟨(nil, []), Nat.le_refl _⟩
  | c :: r =>
    match _hv : verbatim? (c :: r) with
    | some (t, rest) =>
      (read tag inside rest).map
        (Reading.lead (addText t) (Nat.le_of_lt (verbatim?_rest_length _hv)))
    | none =>
      if inside && isEndTag tag (c :: r) then .ok ⟨(nil, c :: r), Nat.le_refl _⟩
      else if _ho : opensTag (c :: r) = true then
        match _ht : readStartTag (c :: r) with
        | .error e => .error e
        | .ok none => .ok ⟨(text (c :: r) nil, []), Nat.zero_le _⟩
        | .ok (some (name, t)) =>
          have _hr := readStartTag_rest_length _ho _ht
          if t.selfClosing then
            (read tag inside t.rest).map (Reading.lead (append t.pieces) (Nat.le_of_lt _hr))
          else if name = tag then
            match read tag true t.rest with
            | .error e => .error e
            | .ok ⟨(body, left), _hl⟩ =>
              let close := Text.through ['>'] left
              have hc : close.2.length ≤ (c :: r).length :=
                Nat.le_trans (Text.through_rest_length ['>'] left)
                  (Nat.le_trans _hl (Nat.le_of_lt _hr))
              (read tag inside close.2).map
                (Reading.lead (fun m => append t.pieces (definition body close.1 m)) hc)
          else
            let content := plainContent name t.rest
            have hc : content.2.length ≤ t.rest.length := plainContent_rest_length name t.rest
            (read tag inside content.2).map
              (Reading.lead (fun m => append t.pieces (addText content.1 m))
                (Nat.le_trans hc (Nat.le_of_lt _hr)))
      else
        (read tag inside r).map (Reading.lead (addText [c]) (Nat.le_succ _))
termination_by s.length
decreasing_by
  · exact verbatim?_rest_length _hv
  · exact _hr
  · exact _hr
  · have := Text.through_rest_length ['>'] left
    simp only at _hl
    omega
  · have := plainContent_rest_length name t.rest
    omega
  · simp

theorem Reading.lead_eq_ok {n m : Nat} {put : Markup → Markup} {hn : m ≤ n}
    {r : Except Disallowed (Reading m)} {p : Reading n}
    (h : r.map (Reading.lead put hn) = .ok p) :
    ∃ q, r = .ok q ∧ p.1 = (put q.1.1, q.1.2) := by
  cases r with
  | error e => simp [Except.map] at h
  | ok q => exact ⟨q, rfl, by rw [← Except.ok.inj h]; rfl⟩

theorem read_eq {tag s : Text} {inside : Bool} {p : Reading s.length}
    (h : read tag inside s = .ok p) : s = p.1.1.source ++ p.1.2 := by
  fun_induction read tag inside s with
  | case1 => rw [← Except.ok.inj h]; rfl
  | case2 inside c r t rest hv ih =>
    obtain ⟨q, hq, he⟩ := Reading.lead_eq_ok h
    simp [he, (verbatim?_eq hv).1, ← ih hq]
  | case3 => rw [← Except.ok.inj h]; rfl
  | case4 => simp at h
  | case5 => rw [← Except.ok.inj h]; simp [source]
  | case6 inside c r hv _ ho name t ht hr _ ih =>
    obtain ⟨q, hq, he⟩ := Reading.lead_eq_ok h
    simp [he, readStartTag_eq ht, ← ih hq]
  | case7 => simp at h
  | case8 inside c r hv _ ho t _ body left hl hb close ht hr hc ihb =>
    rename_i ih
    obtain ⟨q, hq, he⟩ := Reading.lead_eq_ok h
    have hclose : close.1 ++ close.2 = left := Text.through_eq ['>'] left
    have hbody : t.rest = body.source ++ left := ihb hb
    simp [he, readStartTag_eq ht, source, ← ih hq, hclose, ← hbody]
  | case9 inside c r hv _ ho name t ht hr _ _ content hc =>
    rename_i ih
    obtain ⟨q, hq, he⟩ := Reading.lead_eq_ok h
    have hcontent : content.1 ++ content.2 = t.rest := plainContent_eq name t.rest
    simp [he, readStartTag_eq ht, ← ih hq, hcontent]
  | case10 inside c r hv _ _ ih =>
    obtain ⟨q, hq, he⟩ := Reading.lead_eq_ok h
    simp [he, ← ih hq]

/-- Markup read from a text, with the local templates named `tag`. -/
def ofText (tag s : Text) : Except Disallowed Markup :=
  (read tag false s).map fun p => p.1.1

/-- Outside local templates, reading goes on to the end of the text. -/
theorem read_outside {tag s : Text} {p : Reading s.length} (h : read tag false s = .ok p) :
    p.1.2 = [] := by
  suffices ∀ inside, inside = false → ∀ p : Reading s.length, read tag inside s = .ok p → p.1.2 = [] from
    this false rfl p h
  clear h p
  intro inside hi p h
  fun_induction read tag inside s with
  | case1 => rw [← Except.ok.inj h]
  | case2 inside c r t rest hv ih =>
    obtain ⟨q, hq, he⟩ := Reading.lead_eq_ok h
    simp [he, ih hi q hq]
  | case3 inside c r hv hend => simp [hi] at hend
  | case4 => simp at h
  | case5 => rw [← Except.ok.inj h]
  | case6 inside c r hv _ ho name t ht hr _ ih =>
    obtain ⟨q, hq, he⟩ := Reading.lead_eq_ok h
    simp [he, ih hi q hq]
  | case7 => simp at h
  | case8 inside c r hv _ ho t _ body left hl hb close ht hr hc ihb =>
    rename_i ih
    obtain ⟨q, hq, he⟩ := Reading.lead_eq_ok h
    simp [he, ih hi q hq]
  | case9 inside c r hv _ ho name t ht hr _ _ content hc =>
    rename_i ih
    obtain ⟨q, hq, he⟩ := Reading.lead_eq_ok h
    simp [he, ih hi q hq]
  | case10 inside c r hv _ _ ih =>
    obtain ⟨q, hq, he⟩ := Reading.lead_eq_ok h
    simp [he, ih hi q hq]

theorem source_ofText {tag s : Text} {m : Markup} (h : ofText tag s = .ok m) : m.source = s := by
  unfold ofText at h
  cases hr : read tag false s with
  | error e => simp [hr, Except.map] at h
  | ok p =>
    simp only [hr, Except.map, Except.ok.injEq] at h
    have := read_eq hr
    rw [read_outside hr, List.append_nil] at this
    rw [← h, ← this]

/-- The text with everything guarded that only a later pass may expand. -/
def escape (tag s : Text) : Except Disallowed Text :=
  (ofText tag s).map guarded

end Stencil.Markup
