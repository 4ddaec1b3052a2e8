import Stencil.Markup
/-!
Start tags of markup and the invocations inside their attribute values.

A start tag runs to its `>` or `/>`; quoted values and mustache tags are passed over whole.  A value that
opens an invocation with a body is refused, because the body would end outside the value.
-/

namespace Stencil

/-- An attribute value that opens an invocation with a body. -/
structure Disallowed where
  element : Text
  name : Text
  opener : Text
  deriving DecidableEq, Repr

namespace Markup

/-! ## Attribute values -/

/-- The opener of an invocation with a body at the head of a text. -/
def bodyOpener? (s : Text) : Option Text :=
  let tight := open2 ++ ['#', '>']
  let tilde := open2 ++ ['~', '#', '>']
  if Text.startsWith tight s then some tight
  else if Text.startsWith tilde s then some tilde
  else none

/-- The first opener of an invocation with a body. -/
def firstBodyOpener? : Text → Option Text
  | [] => none
  | c :: r => (bodyOpener? (c :: r)).orElse fun _ => firstBodyOpener? r

/-- What begins with `opener` and runs to the first closing braces, and the rest. -/
def closed? (opener s : Text) : Option (Text × Text) :=
  (Text.after? opener s).bind fun r =>
    (Text.cut close2 r).map fun p => (opener ++ p.1 ++ close2, p.2)

theorem closed?_eq {opener s t rest : Text} (h : closed? opener s = some (t, rest)) :
    s = t ++ rest ∧ t ≠ [] := by
  obtain ⟨r, hr, h⟩ := Option.bind_eq_some_iff.1 h
  obtain ⟨⟨a, b⟩, hp, he⟩ := Option.map_eq_some_iff.1 h
  simp only [Prod.mk.injEq] at he
  constructor
  · rw [Text.after?_eq hr, Text.cut_eq hp, ← he.1, ← he.2]
    simp
  · simp [← he.1, close2]

/-- The invocation at the head of a text, up to its first closing braces, and the rest. -/
def invocation? (s : Text) : Option (Text × Text) :=
  match closed? (open2 ++ ['>']) s with
  | some p => some p
  | none => closed? (open2 ++ ['~', '>']) s

theorem invocation?_eq {s t rest : Text} (h : invocation? s = some (t, rest)) :
    s = t ++ rest ∧ t ≠ [] := by
  unfold invocation? at h
  split at h
  · next p hp =>
    obtain rfl := Option.some.inj h
    exact closed?_eq hp
  · exact closed?_eq h

theorem invocation?_length {s t rest : Text} (h : invocation? s = some (t, rest)) :
    rest.length < s.length := by
  obtain ⟨he, hne⟩ := invocation?_eq h
  have := List.length_pos_iff.2 hne
  rw [he, List.length_append]
  omega

/-- The text with its invocations told apart. -/
def ofValue (s : Text) : Markup :=
  match s with
  | [] => nil
  | c :: r =>
    match _h : invocation? (c :: r) with
    | some (t, rest) => invocation t (ofValue rest)
    | none => addText [c] (ofValue r)
termination_by s.length
decreasing_by
  · exact invocation?_length _h
  · simp

/-- The pieces of an attribute value. -/
def readValue (element name value : Text) : Except Disallowed Markup :=
  match firstBodyOpener? value with
  | some opener => .error ⟨element, name, opener⟩
  | none => .ok (ofValue value)

theorem source_ofValue (s : Text) : (ofValue s).source = s := by
  fun_induction ofValue s with
  | case1 => rfl
  | case2 c r t rest h ih => simp [source, ih, (invocation?_eq h).1]
  | case3 c r h ih => simp [ih]

/-! ## Parts of a tag -/

/-- The characters of a tag name. -/
def isNameChar (c : Char) : Bool :=
  c.isAlphanum || c = '-' || c = '_' || c = ':' || c = '.'

/-- The longest attribute name at the head, and the rest. -/
def attributeName : Text → Text × Text
  | [] => ([], [])
  | '/' :: '>' :: r => ([], '/' :: '>' :: r)
  | c :: r =>
    if Text.isAsciiBlank c || c = '=' || c = '>' then ([], c :: r)
    else (c :: (attributeName r).1, (attributeName r).2)

theorem attributeName_eq (s : Text) : (attributeName s).1 ++ (attributeName s).2 = s := by
  fun_induction attributeName s <;> simp_all

theorem eq_of_attributeName {s t u : Text} (h : attributeName s = (t, u)) : s = t ++ u := by
  rw [← attributeName_eq s, h]

theorem attributeName_rest_length (s : Text) : (attributeName s).2.length ≤ s.length := by
  have h := congrArg List.length (attributeName_eq s)
  rw [List.length_append] at h
  omega

theorem attributeName_rest_lt (s : Text) (h : (attributeName s).1 ≠ []) :
    (attributeName s).2.length < s.length := by
  have h₁ := congrArg List.length (attributeName_eq s)
  have h₂ := List.length_pos_iff.2 h
  rw [List.length_append] at h₁
  omega

/-- An attribute value without quotation marks, and the rest. -/
def bareValue (s : Text) : Text × Text :=
  match s with
  | [] => ([], [])
  | '{' :: '{' :: r =>
    let p := Text.through close2 r
    let q := bareValue p.2
    (open2 ++ p.1 ++ q.1, q.2)
  | c :: r =>
    if Text.isAsciiBlank c || c = '>' then ([], c :: r)
    else (c :: (bareValue r).1, (bareValue r).2)
termination_by s.length
decreasing_by
  · have := Text.through_rest_length close2 r
    simp only [List.length_cons]
    omega
  all_goals simp

theorem bareValue_eq (s : Text) : (bareValue s).1 ++ (bareValue s).2 = s := by
  fun_induction bareValue s with
  | case1 => rfl
  | case2 r p q ih =>
    have h : (Text.through close2 r).1 ++ (Text.through close2 r).2 = r := Text.through_eq close2 r
    simp only [q, open2, List.append_assoc, ih]
    simp [p, h]
  | case3 => rfl
  | case4 => simp_all

/-- A value with the quotation mark around it, empty for a bare one, and the text after it. -/
structure Value where
  mark : Text
  text : Text
  rest : Text

/-- The attribute value at the head of a text, `none` if the text ends before it does. -/
def value? : Text → Option Value
  | [] => none
  | c :: r =>
    if c = '"' || c = '\'' then (Text.cut [c] r).map fun p => ⟨[c], p.1, p.2⟩
    else some ⟨[], (bareValue (c :: r)).1, (bareValue (c :: r)).2⟩

theorem value?_eq {s : Text} {v : Value} (h : value? s = some v) :
    s = v.mark ++ v.text ++ v.mark ++ v.rest := by
  unfold value? at h
  split at h
  · simp at h
  · next c r =>
    split at h
    · obtain ⟨⟨a, b⟩, hp, rfl⟩ := Option.map_eq_some_iff.1 h
      simp [Text.cut_eq hp]
    · obtain rfl := Option.some.inj h
      simp [bareValue_eq]

theorem value?_rest_length {s : Text} {v : Value} (h : value? s = some v) :
    v.rest.length ≤ s.length := by
  have h := congrArg List.length (value?_eq h)
  simp only [List.length_append] at h
  omega

/-! ## Tags -/

/-- A start tag, or the rest of one: its pieces, whether it closes itself, and what follows it. -/
structure StartTag where
  pieces : Markup
  selfClosing : Bool
  rest : Text

/-- The outcome of reading the rest of a tag, with pieces put in front. -/
def StartTag.after (m : Markup) :
    Except Disallowed (Option StartTag) → Except Disallowed (Option StartTag)
  | .ok (some t) => .ok (some { t with pieces := append m t.pieces })
  | r => r

theorem StartTag.after_eq_ok {m : Markup} {r : Except Disallowed (Option StartTag)} {t : StartTag}
    (h : StartTag.after m r = .ok (some t)) :
    ∃ u, r = .ok (some u) ∧ t = { u with pieces := append m u.pieces } := by
  unfold StartTag.after at h
  split at h
  · next u => exact ⟨u, rfl, by simpa using h.symm⟩
  · next hr => exact absurd h (hr t)

/-- What follows the name of a start tag; `none` if the tag does not end. -/
def readAttributes (element s : Text) : Except Disallowed (Option StartTag) :=
  let blanks := Text.run Text.isAsciiBlank s
  match _h : blanks.2 with
  | [] => .ok none
  | '>' :: r => .ok (some ⟨text (blanks.1 ++ ['>']) nil, false, r⟩)
  | '/' :: '>' :: r => .ok (some ⟨text (blanks.1 ++ ['/', '>']) nil, true, r⟩)
  | '{' :: '{' :: r =>
    let tag := Text.through close2 r
    StartTag.after (text (blanks.1 ++ open2 ++ tag.1) nil) (readAttributes element tag.2)
  | c :: r =>
    let name := attributeName (c :: r)
    if _hn : name.1 = [] then
      StartTag.after (text (blanks.1 ++ [c]) nil) (readAttributes element r)
    else
      let gap := Text.run Text.isAsciiBlank name.2
      match _hg : gap.2 with
      | '=' :: afterSign =>
        let gap' := Text.run Text.isAsciiBlank afterSign
        match _hv : value? gap'.2 with
        | none => .ok none
        | some v =>
          match readValue element name.1 v.text with
          | .error e => .error e
          | .ok pieces =>
            let before := blanks.1 ++ name.1 ++ gap.1 ++ '=' :: gap'.1 ++ v.mark
            StartTag.after (addText before (append pieces (addText v.mark nil)))
              (readAttributes element v.rest)
      | _ =>
        StartTag.after (text (blanks.1 ++ name.1) nil) (readAttributes element name.2)
termination_by s.length
decreasing_by
  all_goals
    have h₁ := Text.run_rest_length Text.isAsciiBlank s
    rw [show (Text.run Text.isAsciiBlank s).2 = _ from _h] at h₁
    simp only [List.length_cons] at h₁
  · have := Text.through_rest_length close2 r
    omega
  · omega
  · have h₂ := attributeName_rest_length (c :: r)
    have h₃ := Text.run_rest_length Text.isAsciiBlank (attributeName (c :: r)).2
    rw [show (Text.run Text.isAsciiBlank (attributeName (c :: r)).2).2 = _ from _hg] at h₃
    have h₄ : gap'.2.length ≤ afterSign.length := Text.run_rest_length Text.isAsciiBlank afterSign
    have h₅ := value?_rest_length _hv
    simp only [List.length_cons] at h₂ h₃
    omega
  · have h₂ := attributeName_rest_lt (c :: r) _hn
    simp only [List.length_cons] at h₂
    omega

theorem source_of_readValue {element name value : Text} {m : Markup}
    (h : readValue element name value = .ok m) : m.source = value := by
  unfold readValue at h
  split at h
  · simp at h
  · obtain rfl := Except.ok.inj h
    exact source_ofValue value

/-- A text at which a start tag goes on with an attribute. -/
def AtAttribute (s : Text) : Prop :=
  (∀ r, s ≠ '>' :: r) ∧ (∀ r, s ≠ '/' :: '>' :: r) ∧ ∀ r, s ≠ '{' :: '{' :: r

theorem AtAttribute.of_not {c : Char} {r : Text} (h₁ : c = '>' → False)
    (h₂ : ∀ r', c = '/' → r = '>' :: r' → False) (h₃ : ∀ r', c = '{' → r = '{' :: r' → False) :
    AtAttribute (c :: r) :=
  ⟨by simpa using h₁, by simpa using h₂, by simpa using h₃⟩

/-- Induction on the rest of a start tag, by the ways in which the reader goes on or ends. -/
@[elab_as_elim]
theorem readAttributes_induction {element : Text}
    {motive : Text → Except Disallowed (Option StartTag) → Prop}
    (unended : ∀ {s b}, Text.run Text.isAsciiBlank s = (b, []) → motive s (.ok none))
    (close : ∀ {s b r}, Text.run Text.isAsciiBlank s = (b, '>' :: r) →
      motive s (.ok (some ⟨text (b ++ ['>']) nil, false, r⟩)))
    (closeSelf : ∀ {s b r}, Text.run Text.isAsciiBlank s = (b, '/' :: '>' :: r) →
      motive s (.ok (some ⟨text (b ++ ['/', '>']) nil, true, r⟩)))
    (mustache : ∀ {s b r t r'}, Text.run Text.isAsciiBlank s = (b, '{' :: '{' :: r) →
      Text.through close2 r = (t, r') → motive r' (readAttributes element r') →
      motive s (StartTag.after (text (b ++ open2 ++ t) nil) (readAttributes element r')))
    (stray : ∀ {s b c r r'}, Text.run Text.isAsciiBlank s = (b, c :: r) → AtAttribute (c :: r) →
      attributeName (c :: r) = ([], r') → motive r (readAttributes element r) →
      motive s (StartTag.after (text (b ++ [c]) nil) (readAttributes element r)))
    (valueless : ∀ {s b c w name r gap sign gap' r'}, Text.run Text.isAsciiBlank s = (b, c :: w) →
      AtAttribute (c :: w) → attributeName (c :: w) = (name, r) → name ≠ [] →
      Text.run Text.isAsciiBlank r = (gap, '=' :: sign) →
      Text.run Text.isAsciiBlank sign = (gap', r') → value? r' = none → motive s (.ok none))
    (refused : ∀ {s b c w name r gap sign gap' r' v d}, Text.run Text.isAsciiBlank s = (b, c :: w) →
      AtAttribute (c :: w) → attributeName (c :: w) = (name, r) → name ≠ [] →
      Text.run Text.isAsciiBlank r = (gap, '=' :: sign) →
      Text.run Text.isAsciiBlank sign = (gap', r') → value? r' = some v →
      readValue element name v.text = .error d → motive s (.error d))
    (valued : ∀ {s b c w name r gap sign gap' r' v pieces}, Text.run Text.isAsciiBlank s = (b, c :: w) →
      AtAttribute (c :: w) → attributeName (c :: w) = (name, r) → name ≠ [] →
      Text.run Text.isAsciiBlank r = (gap, '=' :: sign) →
      Text.run Text.isAsciiBlank sign = (gap', r') → value? r' = some v →
      readValue element name v.text = .ok pieces → motive v.rest (readAttributes element v.rest) →
      motive s (StartTag.after (addText (b ++ name ++ gap ++ '=' :: gap' ++ v.mark)
        (append pieces (addText v.mark nil))) (readAttributes element v.rest)))
    (bare : ∀ {s b c w name r}, Text.run Text.isAsciiBlank s = (b, c :: w) → AtAttribute (c :: w) →
      attributeName (c :: w) = (name, r) → name ≠ [] →
      (∀ sign, (Text.run Text.isAsciiBlank r).2 ≠ '=' :: sign) → motive r (readAttributes element r) →
      motive s (StartTag.after (text (b ++ name) nil) (readAttributes element r)))
    (s : Text) : motive s (readAttributes element s) := by
  fun_induction readAttributes element s with
  | case1 s _ hb => exact unended (Prod.ext rfl hb)
  | case2 s _ r hb => exact close (Prod.ext rfl hb)
  | case3 s _ r hb => exact closeSelf (Prod.ext rfl hb)
  | case4 s _ r hb _ ih => exact mustache (Prod.ext rfl hb) rfl ih
  | case5 s _ c r h₁ h₂ h₃ hb _ hn ih =>
    exact stray (Prod.ext rfl hb) (.of_not h₁ h₂ h₃) (Prod.ext hn rfl) ih
  | case6 s _ c r h₁ h₂ h₃ hb _ hn _ sign hg _ hv =>
    exact valueless (Prod.ext rfl hb) (.of_not h₁ h₂ h₃) rfl hn (Prod.ext rfl hg) rfl hv
  | case7 s _ c r h₁ h₂ h₃ hb _ hn _ sign hg _ v hv d hd =>
    exact refused (Prod.ext rfl hb) (.of_not h₁ h₂ h₃) rfl hn (Prod.ext rfl hg) rfl hv hd
  | case8 s _ c r h₁ h₂ h₃ hb _ hn _ sign hg _ v hv pieces hp _ ih =>
    exact valued (Prod.ext rfl hb) (.of_not h₁ h₂ h₃) rfl hn (Prod.ext rfl hg) rfl hv hp ih
  | case9 s _ c r h₁ h₂ h₃ hb _ hn _ hg ih =>
    exact bare (Prod.ext rfl hb) (.of_not h₁ h₂ h₃) rfl hn hg ih

theorem readAttributes_eq {element s : Text} {t : StartTag}
    (h : readAttributes element s = .ok (some t)) : s = t.pieces.source ++ t.rest := by
  induction s using readAttributes_induction generalizing t with
  | unended => simp at h
  | close hb =>
    obtain rfl := Option.some.inj (Except.ok.inj h)
    simp [Text.eq_of_run hb, source]
  | closeSelf hb =>
    obtain rfl := Option.some.inj (Except.ok.inj h)
    simp [Text.eq_of_run hb, source]
  | mustache hb ht ih =>
    obtain ⟨u, hu, rfl⟩ := StartTag.after_eq_ok h
    simp [Text.eq_of_run hb, Text.eq_of_through ht, ih hu, source, open2]
  | stray hb _ _ ih =>
    obtain ⟨u, hu, rfl⟩ := StartTag.after_eq_ok h
    simp [Text.eq_of_run hb, ← ih hu, source]
  | valueless => simp at h
  | refused => simp at h
  | valued hb _ hw _ hg hg' hv hp ih =>
    obtain ⟨u, hu, rfl⟩ := StartTag.after_eq_ok h
    rw [Text.eq_of_run hb, eq_of_attributeName hw, Text.eq_of_run hg, Text.eq_of_run hg',
      value?_eq hv, ih hu]
    simp [source, source_of_readValue hp]
  | bare hb _ hw _ _ ih =>
    obtain ⟨u, hu, rfl⟩ := StartTag.after_eq_ok h
    simp [Text.eq_of_run hb, eq_of_attributeName hw, ih hu, source]

/-- Whether a start tag begins at the head of a text. -/
def opensTag : Text → Bool
  | '<' :: c :: _ => c.isAlpha
  | _ => false

/-- The start tag at the head of a text, with its name in lower case; `none` if it does not end. -/
def readStartTag (s : Text) : Except Disallowed (Option (Text × StartTag)) :=
  let p := Text.run isNameChar (s.drop 1)
  let name := Text.lowerAscii p.1
  match StartTag.after (text (s.take 1 ++ p.1) nil) (readAttributes name p.2) with
  | .error e => .error e
  | .ok none => .ok none
  | .ok (some t) => .ok (some (name, t))

theorem readStartTag_eq {s name : Text} {t : StartTag}
    (h : readStartTag s = .ok (some (name, t))) : s = t.pieces.source ++ t.rest := by
  unfold readStartTag at h
  simp only at h
  split at h
  · simp at h
  · simp at h
  · next u hu =>
    simp only [Except.ok.injEq, Option.some.injEq, Prod.mk.injEq] at h
    obtain ⟨v, hv, rfl⟩ := StartTag.after_eq_ok hu
    obtain ⟨_, rfl⟩ := h
    have h₁ := readAttributes_eq hv
    have h₂ := Text.run_eq isNameChar (s.drop 1)
    simp only [source_append, source, List.append_nil, List.append_assoc, ← h₁, h₂,
      List.take_append_drop]

theorem length_pos_of_after {m : Markup} {r : Except Disallowed (Option StartTag)} {t : StartTag}
    (hm : m.source ≠ []) (h : StartTag.after m r = .ok (some t)) : 0 < t.pieces.source.length := by
  obtain ⟨u, _, rfl⟩ := StartTag.after_eq_ok h
  have := List.length_pos_iff.2 hm
  rw [source_append, List.length_append]
  omega

theorem readStartTag_rest_length {s name : Text} {t : StartTag} (ho : opensTag s = true)
    (h : readStartTag s = .ok (some (name, t))) : t.rest.length < s.length := by
  have hp : 0 < t.pieces.source.length := by
    unfold readStartTag at h
    simp only at h
    split at h
    · simp at h
    · simp at h
    · next u hu =>
      simp only [Except.ok.injEq, Option.some.injEq, Prod.mk.injEq] at h
      rw [← h.2]
      refine length_pos_of_after ?_ hu
      unfold opensTag at ho
      split at ho <;> simp_all [source]
  rw [readStartTag_eq h, List.length_append]
  omega

end Markup

end Stencil
