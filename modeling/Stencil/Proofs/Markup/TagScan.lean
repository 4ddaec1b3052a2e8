import Stencil.Proofs.Markup.Reads
import Stencil.Proofs.Markup.Sweep
/-!
Start tags, scanned by byte offsets.

`startTag` rewrites the attribute values of a start tag: it copies the source up to a value, writes the
escaped value, and goes on copying after it.  What comes of it is what the reader of start tags gives
(`At.startTag`).
-/

namespace Stencil.Scan

open Markup

/-! ## Attribute values -/

/-- Whether an invocation stands somewhere in a text. -/
def hasInvocation : Text → Bool
  | [] => false
  | c :: r => (invocation? (c :: r)).isSome || hasInvocation r

/-- An attribute value with its invocations guarded, `none` if it has no invocation. -/
def escapeAttribute (element key value : Text) : Scan (Option Text) :=
  match firstBodyOpener? value with
  | some opener => .error (.disallowed ⟨element, key, opener⟩)
  | none => .ok (if hasInvocation value then some (ofValue value).guarded else none)

/-! ## The parts of a start tag -/

/-- What stands in a start tag at an offset, by the offsets at which it ends.  In a tag that is not ended,
the text ends. -/
inductive Part
  | unended
  | close (stop : Nat) (selfClosing : Bool)
  | passed (stop : Nat)
  | value (key : Text) (start stop next : Nat)

/-- The attribute with the value at an offset. -/
def valuePart (s key : Text) (i : Nat) : Scan Part := do
  let c ← byte s i
  if c = '"' || c = '\'' then
    match ← find s (i + 1) [c] with
    | none => .ok .unended
    | some close => .ok (.value key (i + 1) close (close + 1))
  else
    let stop ← bareEnd s i
    .ok (.value key i stop stop)

/-- The attribute whose name ends at an offset. -/
def namedPart (s key : Text) (i : Nat) : Scan Part := do
  let sign ← skip Text.isAsciiBlank s i
  if ← both (.ok (sign < Text.size s)) (do .ok ((← byte s sign) = '=')) then
    let start ← skip Text.isAsciiBlank s (sign + 1)
    if start < Text.size s then valuePart s key start else .ok .unended
  else .ok (.passed i)

/-- The attribute at an offset. -/
def attributePart (s : Text) (i : Nat) : Scan Part := do
  let stop ← attributeEnd s i
  if stop = i then .ok (.passed (i + 1)) else namedPart s (← slice s i stop) stop

/-- What stands at an offset at which there is no blank. -/
def solidPart (s : Text) (i : Nat) : Scan Part := do
  if (← byte s i) = '>' then .ok (.close (i + 1) false)
  else if ← stands s i ['/', '>'] then .ok (.close (i + 2) true)
  else if ← stands s i open2 then .ok (.passed (← skipPast s (i + 2) close2))
  else attributePart s i

def part (s : Text) (i : Nat) : Scan Part := do
  let i ← skip Text.isAsciiBlank s i
  if i < Text.size s then solidPart s i else .ok .unended

/-- A start tag as it is written, and the offset after it. -/
structure ScannedTag where
  name : Text
  text : Text
  stop : Nat
  selfClosing : Bool

/-- Goes through the rest of a start tag of `element` from the offset `i`; `text` is written, and the source
from the offset `copied` on is not yet copied. -/
def attributes (s element : Text) (copied i : Nat) (text : Text) : Scan (Option ScannedTag) := do
  match ← part s i with
  | .unended => .ok none
  | .close stop selfClosing => .ok (some ⟨element, text ++ (← slice s copied stop), stop, selfClosing⟩)
  | .passed stop => onward s i stop fun _ => attributes s element copied stop text
  | .value key start stop next =>
    match ← escapeAttribute element key (← slice s start stop) with
    | none => onward s i next fun _ => attributes s element copied next text
    | some escaped =>
      let before ← slice s copied start
      onward s i next fun _ => attributes s element stop next (text ++ before ++ escaped)
termination_by Text.size s - i
decreasing_by all_goals omega

/-- The start tag at an offset; `lower` is the text in small letters. -/
def startTag (s lower : Text) (i : Nat) : Scan (Option ScannedTag) := do
  let nameEnd ← skip isNameChar s (i + 1)
  attributes s (← slice lower (i + 1) nameEnd) i nameEnd []

/-! ## What the parts are -/

variable {s r u w b name key element text : Text} {i copied : Nat} {c : Char}

theorem At.run {p : Char → Bool} (h : At s i r) (hr : Text.run p r = (b, w)) :
    At s (i + Text.size b) w := by
  refine h.of_eq ?_
  rw [← Text.run_eq p r, hr]

theorem At.skip_of_run {p : Char → Bool} (hp : Text.InAscii p) (h : At s i r)
    (hr : Text.run p r = (b, w)) : Scan.skip p s i = .ok (i + Text.size b) := by
  rw [h.skip hp, hr]

/-- The attribute `key` with a value that is read at the offset `i`. -/
def Part.ofValue (key : Text) (i : Nat) : Option Value → Part
  | none => .unended
  | some v =>
    let start := i + Text.size v.mark
    .value key start (start + Text.size v.text) (start + Text.size v.text + Text.size v.mark)

theorem At.valuePart (h : At s i w) (hw : w ≠ []) :
    Scan.valuePart s key i = .ok (Part.ofValue key i (value? w)) := by
  obtain ⟨c, r, rfl⟩ := List.exists_cons_of_ne_nil hw
  obtain ⟨d, hd, hs⟩ := h.byte_head
  have hquote : (d = '"' ∨ d = '\'') ↔ (c = '"' ∨ c = '\'') :=
    or_congr (hs.eq_iff (by decide)) (hs.eq_iff (by decide))
  rw [Scan.valuePart, hd, ok_bind, value?]
  simp only [Bool.or_eq_true, decide_eq_true_eq, hquote]
  split
  · next hc =>
    have hascii : c.toNat < 128 := by rcases hc with rfl | rfl <;> decide
    have h1 : c.utf8Size = 1 := Text.utf8Size_of_lt hascii
    obtain rfl : d = c := (hs.eq_iff hascii).2 rfl
    have hr : At s (i + 1) r := h1 ▸ h.cons
    rw [hr.find]
    cases Text.cut [d] r <;> simp [ok_bind, Part.ofValue, h1]
  · rw [h.bareEnd]
    rfl

/-! ## The next part of a start tag -/

theorem At.part_unended (h : At s i r) (hb : Text.run Text.isAsciiBlank r = (b, [])) :
    Scan.part s i = .ok .unended := by
  have hend := (h.run hb).size_eq
  rw [Text.size_nil] at hend
  rw [Scan.part, h.skip_of_run Text.inAscii_isAsciiBlank hb, ok_bind, if_neg (by omega)]

theorem At.part_of_run (h : At s i r) (hb : Text.run Text.isAsciiBlank r = (b, c :: w)) :
    Scan.part s i = solidPart s (i + Text.size b) := by
  rw [Scan.part, h.skip_of_run Text.inAscii_isAsciiBlank hb, ok_bind,
    if_pos ((h.run hb).lt_of_ne_nil (List.cons_ne_nil c w))]

theorem At.solidPart_close (h : At s i ('>' :: w)) : solidPart s i = .ok (.close (i + 1) false) := by
  rw [solidPart, h.byte_ascii (by decide)]
  rfl

theorem At.solidPart_closeSelf (h : At s i ('/' :: '>' :: w)) :
    solidPart s i = .ok (.close (i + 2) true) := by
  rw [solidPart, h.byte_ascii (by decide), ok_bind, if_neg (by decide), h.stands]
  rfl

theorem At.solidPart_mustache (h : At s i ('{' :: '{' :: w)) :
    solidPart s i = .ok (.passed (i + 2 + Text.size (Text.through close2 w).1)) := by
  rw [solidPart, h.byte_ascii (by decide), ok_bind, if_neg (by decide), h.stands, h.stands]
  exact congrArg (· >>= fun j => Except.ok (Part.passed j)) ((h.append (t := open2)).skipPast close2)

theorem At.solidPart_attribute (h : At s i (c :: w)) (ha : AtAttribute (c :: w)) :
    solidPart s i = attributePart s i := by
  obtain ⟨d, hd, hs⟩ := h.byte_head
  have hgt : d ≠ '>' := fun he => ha.1 w (by rw [(hs.eq_iff (by decide)).1 he])
  have hself := Text.startsWith_pair_eq_false (a := '/') (b := '>') (c := c) (s := w)
    fun r hc hw => ha.2.1 r (by rw [hc, hw])
  have hopen := Text.startsWith_pair_eq_false (a := '{') (b := '{') (c := c) (s := w)
    fun r hc hw => ha.2.2 r (by rw [hc, hw])
  rw [solidPart, hd, ok_bind, if_neg hgt, h.stands, h.stands, hself, open2, hopen]
  rfl

/-- A character at which no attribute name begins is a single byte. -/
theorem utf8Size_of_stray (ha : AtAttribute (c :: w)) (hn : (attributeName (c :: w)).1 = []) :
    c.utf8Size = 1 := by
  unfold attributeName at hn
  split at hn
  · exact absurd ‹_› (List.cons_ne_nil c w)
  · next he => exact absurd he (ha.2.1 _)
  · next he =>
    obtain ⟨rfl, rfl⟩ := List.cons.inj he
    split at hn
    · next hc => exact Text.utf8Size_of_lt (endsAttribute_inAscii c hc)
    · exact nomatch hn

theorem At.attributePart_stray (h : At s i w) (hn : (attributeName w).1 = []) :
    attributePart s i = .ok (.passed (i + 1)) := by
  rw [attributePart, h.attributeEnd, hn]
  exact if_pos rfl

theorem At.attributePart_of_name (h : At s i w) (hw : attributeName w = (name, r)) (hn : name ≠ []) :
    attributePart s i = namedPart s name (i + Text.size name) := by
  have hpos := Text.size_pos hn
  have hw' := attributeName_eq w
  rw [hw] at hw'
  have hmoved : i + Text.size name ≠ i := by omega
  rw [attributePart, h.attributeEnd, hw, ok_bind, if_neg hmoved, h.slice_of_eq hw'.symm]
  rfl

theorem At.namedPart_bare (h : At s i r) (hg : ∀ x, (Text.run Text.isAsciiBlank r).2 ≠ '=' :: x) :
    namedPart s name i = .ok (.passed i) := by
  have hsign := h.run (Prod.eta (Text.run Text.isAsciiBlank r)).symm
  rw [namedPart, h.skip Text.inAscii_isAsciiBlank, ok_bind]
  cases hx : (Text.run Text.isAsciiBlank r).2 with
  | nil =>
    rw [hx] at hsign
    have hend := hsign.size_eq
    rw [Text.size_nil] at hend
    rw [decide_eq_false (by omega), both_false]
    rfl
  | cons c x =>
    rw [hx] at hsign hg
    obtain ⟨d, hd, hs⟩ := hsign.byte_head
    have hne : d ≠ '=' := fun he => hg x (by rw [(hs.eq_iff (by decide)).1 he])
    rw [decide_eq_true (hsign.lt_of_ne_nil (List.cons_ne_nil c x)), both_true, hd, ok_bind,
      decide_eq_false hne]
    rfl

theorem At.namedPart_sign {gap sign gap' : Text} (h : At s i r)
    (hg : Text.run Text.isAsciiBlank r = (gap, '=' :: sign))
    (hg' : Text.run Text.isAsciiBlank sign = (gap', u)) :
    namedPart s name i =
      if u = [] then .ok .unended
      else Scan.valuePart s name (i + Text.size gap + 1 + Text.size gap') := by
  have hsign := h.run hg
  have hafter : At s (i + Text.size gap + 1) sign := hsign.cons
  have hstart := hafter.run hg'
  rw [namedPart, h.skip_of_run Text.inAscii_isAsciiBlank hg, ok_bind,
    decide_eq_true (hsign.lt_of_ne_nil (List.cons_ne_nil _ _)), both_true,
    hsign.byte_ascii (by decide), ok_bind, decide_eq_true rfl, ok_bind, if_pos rfl,
    hafter.skip_of_run Text.inAscii_isAsciiBlank hg', ok_bind]
  by_cases hu : u = []
  · have hend := hstart.size_eq
    rw [hu, Text.size_nil] at hend
    rw [if_neg (by omega), if_pos hu]
  · rw [if_pos (hstart.lt_of_ne_nil hu), if_neg hu]

theorem eq_of_valued {gap sign gap' x : Text} {v : Value} (hb : Text.run Text.isAsciiBlank r = (b, w))
    (hw : attributeName w = (name, x)) (hg : Text.run Text.isAsciiBlank x = (gap, '=' :: sign))
    (hg' : Text.run Text.isAsciiBlank sign = (gap', u)) (hv : value? u = some v) :
    r = b ++ name ++ gap ++ '=' :: gap' ++ v.mark ++ (v.text ++ (v.mark ++ v.rest)) := by
  rw [Text.eq_of_run hb, eq_of_attributeName hw, Text.eq_of_run hg, Text.eq_of_run hg', value?_eq hv]
  simp

theorem At.part_close (h : At s i r) (hb : Text.run Text.isAsciiBlank r = (b, '>' :: w)) :
    Scan.part s i = .ok (.close (i + Text.size (b ++ ['>'])) false) := by
  rw [h.part_of_run hb, (h.run hb).solidPart_close, Text.size_append, ← Nat.add_assoc]
  rfl

theorem At.part_closeSelf (h : At s i r) (hb : Text.run Text.isAsciiBlank r = (b, '/' :: '>' :: w)) :
    Scan.part s i = .ok (.close (i + Text.size (b ++ ['/', '>'])) true) := by
  rw [h.part_of_run hb, (h.run hb).solidPart_closeSelf, Text.size_append, ← Nat.add_assoc]
  rfl

theorem At.part_mustache {t x : Text} (h : At s i r)
    (hb : Text.run Text.isAsciiBlank r = (b, '{' :: '{' :: w)) (ht : Text.through close2 w = (t, x)) :
    Scan.part s i = .ok (.passed (i + Text.size (b ++ open2 ++ t))) := by
  rw [h.part_of_run hb, (h.run hb).solidPart_mustache, ht, Text.size_append, Text.size_append,
    ← Nat.add_assoc, ← Nat.add_assoc]
  rfl

theorem At.part_stray {x : Text} (h : At s i r) (hb : Text.run Text.isAsciiBlank r = (b, c :: w))
    (ha : AtAttribute (c :: w)) (hn : attributeName (c :: w) = ([], x)) :
    Scan.part s i = .ok (.passed (i + Text.size (b ++ [c]))) := by
  have hr := h.run hb
  have hempty : (attributeName (c :: w)).1 = [] := congrArg Prod.fst hn
  rw [h.part_of_run hb, hr.solidPart_attribute ha, hr.attributePart_stray hempty, Text.size_append,
    Text.size_cons, utf8Size_of_stray ha hempty, ← Nat.add_assoc]
  rfl

theorem At.part_bare {x : Text} (h : At s i r) (hb : Text.run Text.isAsciiBlank r = (b, c :: w))
    (ha : AtAttribute (c :: w)) (hw : attributeName (c :: w) = (name, x)) (hn : name ≠ [])
    (hg : ∀ sign, (Text.run Text.isAsciiBlank x).2 ≠ '=' :: sign) :
    Scan.part s i = .ok (.passed (i + Text.size (b ++ name))) := by
  have hr := h.run hb
  have hx := hr.of_eq (eq_of_attributeName hw)
  rw [h.part_of_run hb, hr.solidPart_attribute ha, hr.attributePart_of_name hw hn, hx.namedPart_bare hg,
    Text.size_append, Nat.add_assoc]

theorem At.part_valued {gap sign gap' x : Text} (h : At s i r)
    (hb : Text.run Text.isAsciiBlank r = (b, c :: w)) (ha : AtAttribute (c :: w))
    (hw : attributeName (c :: w) = (name, x)) (hn : name ≠ [])
    (hg : Text.run Text.isAsciiBlank x = (gap, '=' :: sign))
    (hg' : Text.run Text.isAsciiBlank sign = (gap', u)) :
    Scan.part s i =
      .ok (Part.ofValue name (i + Text.size (b ++ name ++ gap ++ '=' :: gap')) (value? u)) := by
  have hr := h.run hb
  have hx : At s (i + Text.size b + Text.size name) x := hr.of_eq (eq_of_attributeName hw)
  have hsign : At s (i + Text.size b + Text.size name + Text.size gap + 1) sign := (hx.run hg).cons
  have hstart : i + Text.size (b ++ name ++ gap ++ '=' :: gap') =
      i + Text.size b + Text.size name + Text.size gap + 1 + Text.size gap' := by
    simp only [Text.size_append, Text.size_cons, Nat.add_assoc]
    rfl
  rw [h.part_of_run hb, hr.solidPart_attribute ha, hr.attributePart_of_name hw hn,
    hx.namedPart_sign hg hg', hstart]
  by_cases hu : u = []
  · rw [if_pos hu, hu]
    rfl
  · rw [if_neg hu, (hsign.run hg').valuePart hu]

/-! ## What is written -/

theorem guarded_of_not_hasInvocation {value : Text} (h : hasInvocation value = false) :
    (ofValue value).guarded = value := by
  fun_induction ofValue value with
  | case1 => rfl
  | case2 c r t rest hi => simp [hasInvocation, hi] at h
  | case3 c r hi ih =>
    rw [hasInvocation, hi] at h
    rw [guarded_addText, ih h]
    rfl

theorem guarded_of_readValue {value : Text} {m : Markup} (h : readValue element key value = .ok m)
    (hi : hasInvocation value = false) : m.guarded = value := by
  unfold readValue at h
  split at h
  · exact nomatch h
  · rw [← Except.ok.inj h]
    exact guarded_of_not_hasInvocation hi

/-- What is written of a start tag at the offset `i`, after `text`. -/
def ScannedTag.of (element text : Text) (i : Nat) (t : StartTag) : ScannedTag :=
  ⟨element, text ++ t.pieces.guarded, i + Text.size t.pieces.source, t.selfClosing⟩

/-- The outcome of a scan, from that of a reading. -/
def scanned (element text : Text) (i : Nat) (e : Except Disallowed (Option StartTag)) :
    Scan (Option ScannedTag) :=
  (e.map (Option.map (ScannedTag.of element text i))).mapError .disallowed

theorem scanned_after (m : Markup) (e : Except Disallowed (Option StartTag)) :
    scanned element text i (StartTag.after m e) =
      scanned element (text ++ m.guarded) (i + Text.size m.source) e := by
  unfold StartTag.after
  split
  · simp [scanned, ScannedTag.of, Except.map, Except.mapError, Nat.add_assoc]
  · next he =>
    match e with
    | .error d => rfl
    | .ok none => rfl
    | .ok (some t) => exact absurd rfl (he t)

theorem escapeAttribute_eq (element key value : Text) :
    escapeAttribute element key value = ((readValue element key value).map fun m =>
      if hasInvocation value then some m.guarded else none).mapError .disallowed := by
  rw [escapeAttribute, readValue]
  cases firstBodyOpener? value <;> rfl

theorem At.slice_to {t x : Text} (h : At s copied (u ++ r)) (hr : r = t ++ x) :
    Scan.slice s copied (copied + Text.size u + Text.size t) = .ok (u ++ t) := by
  rw [Nat.add_assoc, ← Text.size_append]
  exact h.slice_of_eq (by rw [hr, List.append_assoc])

/-- A part that is passed over is copied with what comes after it. -/
theorem At.attributes_passed {t x : Text} {e : Except Disallowed (Option StartTag)}
    (h : At s copied (u ++ r)) (hr : r = t ++ x) (ht : t ≠ [])
    (hp : Scan.part s (copied + Text.size u) = .ok (.passed (copied + Text.size u + Text.size t)))
    (ih : At s copied (u ++ t ++ x) → attributes s element copied (copied + Text.size (u ++ t)) text =
      scanned element (text ++ (u ++ t)) (copied + Text.size (u ++ t)) e) :
    attributes s element copied (copied + Text.size u) text =
      scanned element (text ++ u) (copied + Text.size u) (StartTag.after (.text t .nil) e) := by
  have hpos := Text.size_pos ht
  have hend := (h.append.of_eq hr).le
  rw [attributes, hp, ok_bind]
  refine (onward_of (by omega)).trans ?_
  rw [Nat.add_assoc, ← Text.size_append, ih (by rwa [List.append_assoc, ← hr]), scanned_after]
  simp [guarded, source, Nat.add_assoc]

/-- At the end of the tag the rest of it is copied. -/
theorem At.attributes_close {t x : Text} {selfClosing : Bool} (h : At s copied (u ++ r)) (hr : r = t ++ x)
    (hp : Scan.part s (copied + Text.size u) =
      .ok (.close (copied + Text.size u + Text.size t) selfClosing)) :
    attributes s element copied (copied + Text.size u) text =
      scanned element (text ++ u) (copied + Text.size u) (.ok (some ⟨.text t .nil, selfClosing, x⟩)) := by
  rw [attributes, hp, ok_bind]
  simp only
  rw [h.slice_to hr]
  simp [ok_bind, scanned, ScannedTag.of, Except.map, Except.mapError, guarded, source]

section Value

variable {before x : Text} {v : Value}

/-- The value is found after what stands before it and its opening mark. -/
theorem part_value (hp : Scan.part s i = .ok (Part.ofValue key (i + Text.size before) (some v))) :
    Scan.part s i = .ok (.value key (i + Text.size (before ++ v.mark))
      (i + Text.size (before ++ v.mark) + Text.size v.text)
      (i + Text.size (before ++ v.mark) + Text.size v.text + Text.size v.mark)) := by
  rw [hp, Text.size_append, ← Nat.add_assoc]
  rfl

theorem At.attributes_refused {d : Disallowed} (h : At s copied (u ++ r))
    (hr : r = before ++ v.mark ++ (v.text ++ x))
    (hp : Scan.part s (copied + Text.size u) =
      .ok (Part.ofValue key (copied + Text.size u + Text.size before) (some v)))
    (hv : readValue element key v.text = .error d) :
    attributes s element copied (copied + Text.size u) text =
      scanned element (text ++ u) (copied + Text.size u) (.error d) := by
  rw [attributes, part_value hp, ok_bind]
  simp only
  rw [(h.append.of_eq hr).slice, ok_bind, escapeAttribute_eq, hv]
  rfl

/-- The value of an attribute is escaped, and what is before and after it is copied. -/
theorem At.attributes_value {pieces : Markup} {e : Except Disallowed (Option StartTag)}
    (h : At s copied (u ++ r)) (hr : r = before ++ v.mark ++ (v.text ++ (v.mark ++ v.rest)))
    (hbefore : before ≠ [])
    (hp : Scan.part s (copied + Text.size u) =
      .ok (Part.ofValue key (copied + Text.size u + Text.size before) (some v)))
    (hv : readValue element key v.text = .ok pieces)
    (ih : ∀ {u text : Text} {copied : Nat}, At s copied (u ++ v.rest) →
      attributes s element copied (copied + Text.size u) text =
        scanned element (text ++ u) (copied + Text.size u) e) :
    attributes s element copied (copied + Text.size u) text =
      scanned element (text ++ u) (copied + Text.size u)
        (StartTag.after (addText (before ++ v.mark) (Markup.append pieces (addText v.mark .nil))) e) := by
  have hlead : 0 < Text.size (before ++ v.mark) := Text.size_pos (by simp [hbefore])
  rw [attributes, part_value hp, ok_bind, scanned_after]
  generalize before ++ v.mark = lead at hr hlead ⊢
  have hvalue : At s (copied + Text.size u + Text.size lead) (v.text ++ (v.mark ++ v.rest)) :=
    h.append.of_eq hr
  have hrest := hvalue.append.append
  have hmoved : copied + Text.size u <
      copied + Text.size u + Text.size lead + Text.size v.text + Text.size v.mark := by
    omega
  have hsource := source_of_readValue hv
  simp only
  rw [hvalue.slice, ok_bind, escapeAttribute_eq, hv]
  simp only [Except.map, Except.mapError, ok_bind]
  cases hi : hasInvocation v.text with
  | true =>
    simp only [if_true]
    rw [h.slice_to hr, ok_bind, onward_of ⟨hmoved, hrest.le⟩, ih hvalue.append]
    simp [hsource, source, guarded, Nat.add_assoc]
  | false =>
    have hu : copied + Text.size u + Text.size lead + Text.size v.text + Text.size v.mark =
        copied + Text.size (u ++ lead ++ v.text ++ v.mark) := by
      simp [Nat.add_assoc]
    have hx : At s copied (u ++ lead ++ v.text ++ v.mark ++ v.rest) := by
      simpa [hr] using h
    have hguarded : pieces.guarded = v.text := guarded_of_readValue hv hi
    simp only [Bool.false_eq_true, if_false]
    rw [onward_of ⟨hmoved, hrest.le⟩, hu, ih hx]
    simp [hsource, source, guarded, hguarded, Nat.add_assoc]

end Value

/-- The rest of a start tag is scanned as it is read. -/
theorem At.attributes (h : At s copied (u ++ r)) :
    attributes s element copied (copied + Text.size u) text =
      scanned element (text ++ u) (copied + Text.size u) (readAttributes element r) := by
  induction r using readAttributes_induction generalizing copied u text with
  | unended hb =>
    rw [Scan.attributes, h.append.part_unended hb]
    rfl
  | close hb =>
    refine h.attributes_close ?_ (h.append.part_close hb)
    simp [Text.eq_of_run hb]
  | closeSelf hb =>
    refine h.attributes_close ?_ (h.append.part_closeSelf hb)
    simp [Text.eq_of_run hb]
  | mustache hb ht ih =>
    refine h.attributes_passed ?_ (by simp [open2]) (h.append.part_mustache hb ht) ih
    simp [Text.eq_of_run hb, Text.eq_of_through ht, open2]
  | stray hb ha hn ih =>
    refine h.attributes_passed ?_ (by simp) (h.append.part_stray hb ha hn) ih
    simp [Text.eq_of_run hb]
  | valueless hb ha hw hn hg hg' hv =>
    rw [Scan.attributes, h.append.part_valued hb ha hw hn hg hg', hv]
    rfl
  | refused hb ha hw hn hg hg' hv hd =>
    have hp := h.append.part_valued hb ha hw hn hg hg'
    rw [hv] at hp
    exact h.attributes_refused (eq_of_valued hb hw hg hg' hv) hp hd
  | valued hb ha hw hn hg hg' hv hd ih =>
    have hp := h.append.part_valued hb ha hw hn hg hg'
    rw [hv] at hp
    exact h.attributes_value (eq_of_valued hb hw hg hg' hv) (by simp) hp hd ih
  | bare hb ha hw hn hg ih =>
    refine h.attributes_passed ?_ (by simp [hn]) (h.append.part_bare hb ha hw hn hg) ih
    simp [Text.eq_of_run hb, eq_of_attributeName hw]

theorem inAscii_isAlpha : Text.InAscii Char.isAlpha := by
  intro c h
  have hc : c.val ≤ 127 := by grind [Char.isAlpha, Char.isUpper, Char.isLower]
  exact Nat.lt_succ_of_le (UInt32.le_iff_toNat_le.1 hc)

theorem inAscii_isNameChar : Text.InAscii isNameChar := by
  intro c h
  simp only [isNameChar, Char.isAlphanum, Bool.or_eq_true, decide_eq_true_eq] at h
  rcases h with ((((h | h) | rfl) | rfl) | rfl) | rfl
  · exact inAscii_isAlpha c h
  · have hc : c.val ≤ 127 := by grind [Char.isDigit]
    exact Nat.lt_succ_of_le (UInt32.le_iff_toNat_le.1 hc)
  all_goals decide

theorem scanned_readStartTag (i : Nat) (s : Text) :
    ((readStartTag s).map (Option.map fun p => ScannedTag.of p.1 [] i p.2)).mapError .disallowed =
      scanned (Text.lowerAscii (Text.run isNameChar (s.drop 1)).1) [] i
        (StartTag.after (.text (s.take 1 ++ (Text.run isNameChar (s.drop 1)).1) .nil)
          (readAttributes (Text.lowerAscii (Text.run isNameChar (s.drop 1)).1)
            (Text.run isNameChar (s.drop 1)).2)) := by
  unfold readStartTag
  simp only
  split <;> next he =>
    rw [he]
    rfl

/-- The start tag at an offset is scanned as it is read. -/
theorem At.startTag (h : At s i r) (ho : opensTag r = true) :
    startTag s (Text.lowerAscii s) i = ((readStartTag r).map (Option.map fun p =>
      ScannedTag.of p.1 [] i p.2)).mapError .disallowed := by
  obtain ⟨c, r, rfl, -⟩ : ∃ c x, r = '<' :: c :: x ∧ c.isAlpha = true := by
    unfold opensTag at ho
    split at ho
    · next c x => exact ⟨c, x, rfl, ho⟩
    · exact nomatch ho
  have hname : At s (i + 1) (c :: r) := h.cons
  have hrun := Text.run_eq isNameChar (c :: r)
  have hlower := hname.lower
  rw [← hrun, Text.lowerAscii_append] at hlower
  have hslice := hlower.slice
  rw [Text.size_lowerAscii] at hslice
  have hrest : At s i ('<' :: (Text.run isNameChar (c :: r)).1 ++ (Text.run isNameChar (c :: r)).2) := by
    rwa [List.cons_append, hrun]
  have hstop : i + 1 + Text.size (Text.run isNameChar (c :: r)).1 =
      i + Text.size ('<' :: (Text.run isNameChar (c :: r)).1) := Nat.add_assoc ..
  rw [scanned_readStartTag, scanned_after, Scan.startTag, hname.skip inAscii_isNameChar, ok_bind, hslice,
    ok_bind, hstop, hrest.attributes]
  simp [guarded, source]

end Stencil.Scan
