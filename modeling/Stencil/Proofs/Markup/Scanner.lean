import Stencil.Escaper
import Stencil.Proofs.Markup.TagScan
/-!
Markup, scanned by byte offsets.

The scanner goes through the source byte by byte, jumps over what is not scanned for tags, and calls itself
for the body of a local template.  It looks up end tags in a copy of the source in small letters and
slices the source at the offsets found there.  All of its accesses are checked (`Stop`), and for every
markup it gives what the reader gives (`scan_eq`): so no check ever fails.
-/

namespace Stencil

open Markup

/-- The source, a copy of it in small letters, and the name of the local templates. -/
structure Scanner where
  source : Text
  lower : Text
  tag : Text
  lower_eq : lower = Text.lowerAscii source

/-- What is written of a part of the markup, the offset at which scanning goes on, and the offset at which
the content of the part ends. -/
structure Fragment where
  output : Text
  resume : Nat
  contentEnd : Nat

namespace Scanner

open Scan

/-- What stands in the markup at an offset. -/
inductive Spot
  | passed (stop : Nat)
  | endTag
  | startTag

variable (sc : Scanner)

/-- The end of the raw block or mustache tag that opens at an offset. -/
def bracesEnd (i : Nat) : Scan Nat := do
  if ← stands sc.source i open4 then
    match ← findRawBlock sc.source i with
    | some b => .ok b.stop
    | none => skipPast sc.source i close4
  else skipPast sc.source (i + 2) close2

def spot (inside : Bool) (i : Nat) : Scan Spot := do
  let c ← byte sc.source i
  if ← both (.ok (c = '{')) (stands sc.source i open2) then .ok (.passed (← sc.bracesEnd i))
  else if c = '<' then
    if ← stands sc.source i "<!--".toList then
      .ok (.passed (← skipPast sc.source (i + 4) "-->".toList))
    else if ← both (.ok inside) (isEndTag sc.lower i sc.tag) then .ok .endTag
    else if (byte? sc.source (i + 1)).any Char.isAlpha then .ok .startTag
    else .ok (.passed (i + 1))
  else .ok (.passed (i + 1))

/-- A local template as it is written, with its end tag; its body begins at an offset. -/
def localTemplate (bodyStart : Nat) (body : Fragment) : Scan Text := do
  let original ← slice sc.source bodyStart body.contentEnd
  let endTag ← slice sc.source body.contentEnd body.resume
  .ok ((if Text.trim original = [] then original else guard body.output) ++ endTag)

/-- What is copied unscanned after the start tag of the element `name`, and the offset after it. -/
def plainContent (name : Text) (i : Nat) : Scan (Text × Nat) :=
  if rawTextElements.contains name then do
    let stop ← rawTextEnd sc.source sc.lower name i
    .ok (← slice sc.source i stop, stop)
  else .ok ([], i)

/-- All that is left is copied. -/
def copyRest (textStart : Nat) (output : Text) : Scan Fragment := do
  let rest ← slice sc.source textStart (Text.size sc.source)
  .ok ⟨output ++ rest, Text.size sc.source, Text.size sc.source⟩

/-- Scans the markup from the offset `i` on; `output` is written, and the source from the offset `textStart`
on is not yet copied.  Inside a local template the scan ends before its end tag. -/
def fragment (inside : Bool) (i textStart : Nat) (output : Text) : Scan Fragment :=
  if i < Text.size sc.source then do
    match ← sc.spot inside i with
    | .passed stop => onward sc.source i stop fun _ => fragment inside stop textStart output
    | .endTag =>
      let before ← slice sc.source textStart i
      let resume ← skipPast sc.source i ['>']
      .ok ⟨output ++ before, resume, i⟩
    | .startTag =>
      match ← startTag sc.source sc.lower i with
      | none => sc.copyRest textStart output
      | some t =>
        let before ← slice sc.source textStart i
        let output := output ++ before ++ t.text
        onward sc.source i t.stop fun _ =>
          if t.selfClosing then fragment inside t.stop t.stop output
          else if t.name = sc.tag then do
            let body ← fragment true t.stop t.stop []
            let written ← sc.localTemplate t.stop body
            onward sc.source i body.resume fun _ =>
              fragment inside body.resume body.resume (output ++ written)
          else do
            let content ← sc.plainContent t.name t.stop
            onward sc.source i content.2 fun _ =>
              fragment inside content.2 content.2 (output ++ content.1)
  else sc.copyRest textStart output
termination_by Text.size sc.source - i
decreasing_by all_goals omega

/-! ## What stands in the markup -/

variable {sc : Scanner} {inside : Bool} {i k textStart : Nat} {r u t x name output : Text} {c : Char}

theorem bracesEnd_of_open4 (h : At sc.source i (open4 ++ r)) :
    sc.bracesEnd i = .ok (i + Text.size (match RawBlock.read (open4 ++ r) with
      | some (b, _) => b.written
      | none => open4 ++ (Text.through close4 r).1)) := by
  rw [bracesEnd, h.stands, Text.startsWith, Text.after?_append]
  simp only [Option.isSome_some, ok_bind, if_true]
  rw [h.findRawBlock, ok_bind]
  cases RawBlock.read (open4 ++ r) with
  | none =>
    simp only [Option.map_none]
    rw [h.skipPast, close4, Text.through_append_of_notMem (by decide)]
  | some p => rfl

theorem bracesEnd_of_open2 (h : At sc.source i (open2 ++ r)) (hn : Text.after? open4 (open2 ++ r) = none) :
    sc.bracesEnd i = .ok (i + Text.size (open2 ++ (Text.through close2 r).1)) := by
  rw [bracesEnd, h.stands, Text.startsWith, hn]
  simp only [Option.isSome_none, ok_bind, Bool.false_eq_true, if_false]
  rw [Text.size_append, ← Nat.add_assoc]
  exact h.append.skipPast close2

theorem spot_of_open2 (h : At sc.source i (open2 ++ r)) :
    sc.spot inside i = (sc.bracesEnd i >>= fun j => .ok (.passed j)) := by
  have hc : At sc.source i ('{' :: '{' :: r) := h
  rw [spot, hc.byte_ascii (by decide), ok_bind, h.stands, Text.startsWith, Text.after?_append]
  rfl

theorem spot_of_comment (h : At sc.source i ("<!--".toList ++ r)) :
    sc.spot inside i =
      .ok (.passed (i + Text.size ("<!--".toList ++ (Text.through "-->".toList r).1))) := by
  have hc : At sc.source i ('<' :: '!' :: '-' :: '-' :: r) := h
  rw [spot, hc.byte_ascii (by decide), ok_bind, decide_eq_false (by decide), both_false, ok_bind,
    if_neg (by decide), if_pos rfl, h.stands, Text.startsWith, Text.after?_append, Text.size_append,
    ← Nat.add_assoc]
  exact congrArg (· >>= fun j => Except.ok (Spot.passed j)) (h.append.skipPast "-->".toList)

/-- What is verbatim is passed over whole. -/
theorem spot_verbatim (h : At sc.source i r) (hv : verbatim? r = some (t, x)) :
    sc.spot inside i = .ok (.passed (i + Text.size t)) := by
  unfold verbatim? at hv
  split at hv
  · next r' ho =>
    obtain rfl := Text.after?_eq ho
    have h2 : At sc.source i (open2 ++ (open2 ++ r')) := h
    rw [spot_of_open2 h2, bracesEnd_of_open4 h, ok_bind]
    generalize RawBlock.read (open4 ++ r') = block at hv ⊢
    rcases block with - | ⟨b, rest⟩ <;>
      obtain ⟨rfl, -⟩ := Prod.mk.inj (Option.some.inj hv) <;> rfl
  · next hn =>
    split at hv
    · next r' ho =>
      obtain rfl := Text.after?_eq ho
      obtain ⟨rfl, -⟩ := Prod.mk.inj (Option.some.inj hv)
      rw [spot_of_open2 h, bracesEnd_of_open2 h hn, ok_bind]
    · obtain ⟨r', ho, he⟩ := Option.map_eq_some_iff.1 hv
      obtain rfl := Text.after?_eq ho
      obtain ⟨rfl, -⟩ := Prod.mk.inj he
      exact spot_of_comment h

theorem startsWith_of_not_verbatim (hv : verbatim? r = none) :
    Text.startsWith open2 r = false ∧ Text.startsWith "<!--".toList r = false := by
  unfold verbatim? at hv
  split at hv
  · split at hv <;> exact nomatch hv
  · split at hv
    · exact nomatch hv
    · next hn =>
      rw [Text.startsWith, Text.startsWith, hn, Option.map_eq_none_iff.1 hv]
      exact ⟨rfl, rfl⟩

/-- A character other than `<` that begins nothing verbatim is passed byte by byte. -/
theorem spot_plain (h : At sc.source i (c :: r)) (hk : k < c.utf8Size) (hv : verbatim? (c :: r) = none)
    (hc : c ≠ '<') : sc.spot inside (i + k) = .ok (.passed (i + k + 1)) := by
  obtain ⟨d, hd, hs⟩ := h.byte hk
  have hlt : d ≠ '<' := fun he => hc ((hs.eq_iff (by decide)).1 he)
  rw [spot, hd, ok_bind, open2, h.stands_amid hk (by decide) (startsWith_of_not_verbatim hv).1,
    both_no, ok_bind, if_neg (by decide), if_neg hlt]

theorem byte?_any_isAlpha (h : At sc.source i ('<' :: r)) :
    (byte? sc.source (i + 1)).any Char.isAlpha = opensTag ('<' :: r) := by
  have hr : At sc.source (i + 1) r := h.cons
  cases r with
  | nil => rw [hr.byte?_nil]; rfl
  | cons c r =>
    obtain ⟨d, hd, hs⟩ := hr.byte? c.utf8Size_pos
    rw [Nat.add_zero] at hd
    rw [hd]
    exact hs.congr inAscii_isAlpha

theorem spot_lt (h : At sc.source i ('<' :: r)) (hv : verbatim? ('<' :: r) = none) :
    sc.spot inside i = .ok (if inside && Markup.isEndTag sc.tag ('<' :: r) then .endTag
      else if opensTag ('<' :: r) then .startTag else .passed (i + 1)) := by
  rw [spot, h.byte_ascii (by decide), ok_bind, decide_eq_false (by decide), both_false, ok_bind,
    if_neg (by decide), if_pos rfl, h.stands, (startsWith_of_not_verbatim hv).2, ok_bind,
    if_neg (by decide), sc.lower_eq, h.isEndTag, byte?_any_isAlpha h, both_ok, ok_bind]
  split
  · rfl
  · split <;> rfl

/-- A character that begins nothing is passed byte by byte. -/
theorem spot_char (h : At sc.source i (c :: r)) (hk : k < c.utf8Size) (hv : verbatim? (c :: r) = none)
    (he : (inside && Markup.isEndTag sc.tag (c :: r)) = false) (ho : opensTag (c :: r) = false) :
    sc.spot inside (i + k) = .ok (.passed (i + k + 1)) := by
  by_cases hc : c = '<'
  · subst hc
    obtain rfl : k = 0 := Nat.lt_one_iff.1 hk
    rw [Nat.add_zero, spot_lt h hv, he, ho]
    rfl
  · exact spot_plain h hk hv hc

/-! ## What is written -/

/-- What is written of a reading that begins at the offset `i`, after `output`. -/
def ofReading (output : Text) (i : Nat) (p : Markup × Text) : Fragment where
  output := output ++ p.1.guarded
  resume := i + Text.size p.1.source + Text.size (Text.through ['>'] p.2).1
  contentEnd := i + Text.size p.1.source

/-- The outcome of a scan, from that of a reading. -/
def outcome (output : Text) (i : Nat) {n : Nat} (e : Except Disallowed (Reading n)) : Scan Fragment :=
  (e.map fun p => ofReading output i p.1).mapError .disallowed

theorem outcome_lead {m n : Nat} {put : Markup → Markup} {hn : m ≤ n} {g : Text}
    (e : Except Disallowed (Reading m)) (hg : ∀ m, (put m).guarded = g ++ m.guarded)
    (hk : ∀ m, Text.size (put m).source = k + Text.size m.source) :
    outcome output i (e.map (Reading.lead put hn)) = outcome (output ++ g) (i + k) e := by
  cases e with
  | error d => rfl
  | ok p => simp [outcome, Except.map, Except.mapError, ofReading, Reading.lead, hg, hk, Nat.add_assoc]

theorem fragment_passed (h : At sc.source textStart (u ++ r)) (hr : r = t ++ x) (ht : t ≠ [])
    (hspot : sc.spot inside (textStart + Text.size u) =
      .ok (.passed (textStart + Text.size u + Text.size t))) :
    sc.fragment inside (textStart + Text.size u) textStart output =
      sc.fragment inside (textStart + Text.size (u ++ t)) textStart output := by
  have hpos := Text.size_pos ht
  have hend := (h.append.of_eq hr).le
  rw [fragment, if_pos (by omega), hspot, ok_bind, Text.size_append, ← Nat.add_assoc]
  exact onward_of (by omega)

theorem fragment_char (h : At sc.source i (c :: r))
    (hspot : ∀ k, k < c.utf8Size → sc.spot inside (i + k) = .ok (.passed (i + k + 1))) :
    sc.fragment inside i textStart output = sc.fragment inside (i + c.utf8Size) textStart output := by
  have hend := h.cons.le
  have upTo (k : Nat) (hk : k ≤ c.utf8Size) :
      sc.fragment inside i textStart output = sc.fragment inside (i + k) textStart output := by
    induction k with
    | zero => rfl
    | succ k ih =>
      rw [ih (by omega), fragment, if_pos (by omega), hspot k hk, ok_bind]
      exact onward_of (by omega)
  exact upTo _ (Nat.le_refl _)

theorem copyRest_eq (h : At sc.source textStart u) :
    sc.copyRest textStart output = .ok ⟨output ++ u, Text.size sc.source, Text.size sc.source⟩ := by
  rw [copyRest, ← h.size_eq, h.slice_of_eq (List.append_nil u).symm]
  rfl

theorem plainContent_eq (h : At sc.source i r) :
    sc.plainContent name i = .ok ((Markup.plainContent name r).1,
      i + Text.size (Markup.plainContent name r).1) := by
  rw [plainContent, Markup.plainContent]
  split
  · rw [sc.lower_eq, h.rawTextEnd, ok_bind, h.slice_of_eq (rawText_eq name r).symm]
    rfl
  · rfl

theorem trim_eq_nil_iff : Text.trim r = [] ↔ Text.allBlank r = true :=
  Text.trimBy_eq_nil_iff.trans List.all_eq_true.symm

theorem localTemplate_eq {p : Markup × Text} (h : At sc.source i (p.1.source ++ p.2)) :
    sc.localTemplate i (ofReading [] i p) =
      .ok ((if Text.allBlank p.1.source then p.1.source else guard p.1.guarded) ++
        (Text.through ['>'] p.2).1) := by
  rw [localTemplate]
  simp only [ofReading, List.nil_append]
  rw [h.slice, ok_bind, h.append.slice_of_eq (Text.through_eq ['>'] p.2).symm, ok_bind]
  simp only [trim_eq_nil_iff]

theorem spot_startTag (h : At sc.source i r) (ha : AtStartTag sc.tag inside r) :
    sc.spot inside i = .ok .startTag := by
  obtain ⟨c, x, rfl⟩ : ∃ c x, r = '<' :: c :: x := by
    have ho := ha.2.2
    unfold opensTag at ho
    split at ho
    · exact ⟨_, _, rfl⟩
    · exact nomatch ho
  rw [spot_lt h ha.1, ha.2.1, ha.2.2]
  rfl

theorem pieces_ne_nil {t : StartTag} (ho : opensTag r = true)
    (ht : readStartTag r = .ok (some (name, t))) : t.pieces.source ≠ [] := by
  intro hn
  have hlt := readStartTag_rest_length ho ht
  have heq := readStartTag_eq ht
  rw [hn, List.nil_append] at heq
  rw [heq] at hlt
  exact absurd hlt (Nat.lt_irrefl _)

/-- How a scan goes on at a start tag that is ended. -/
theorem fragment_startTag {t : StartTag} (h : At sc.source textStart (u ++ r))
    (ha : AtStartTag sc.tag inside r) (ht : readStartTag r = .ok (some (name, t))) :
    sc.fragment inside (textStart + Text.size u) textStart output =
      (let stop := textStart + Text.size u + Text.size t.pieces.source
      let output := output ++ u ++ t.pieces.guarded
      if t.selfClosing then sc.fragment inside stop stop output
      else if name = sc.tag then do
        let body ← sc.fragment true stop stop []
        let written ← sc.localTemplate stop body
        onward sc.source (textStart + Text.size u) body.resume fun _ =>
          sc.fragment inside body.resume body.resume (output ++ written)
      else do
        let content ← sc.plainContent name stop
        onward sc.source (textStart + Text.size u) content.2 fun _ =>
          sc.fragment inside content.2 content.2 (output ++ content.1)) := by
  have hi := h.append
  have hpos := Text.size_pos (pieces_ne_nil ha.2.2 ht)
  have hlt := hi.lt_of_ne_nil (r := r) (by rintro rfl; simp [AtStartTag, opensTag] at ha)
  have hend := (hi.of_eq (readStartTag_eq ht)).le
  rw [fragment, if_pos hlt, spot_startTag hi ha, ok_bind]
  simp only
  rw [sc.lower_eq, hi.startTag ha.2.2, ht]
  simp only [Except.map, Except.mapError, Option.map_some, ok_bind]
  rw [h.slice, ok_bind]
  have hmoved : textStart + Text.size u < textStart + Text.size u + Text.size t.pieces.source ∧
      textStart + Text.size u + Text.size t.pieces.source ≤ Text.size sc.source := by omega
  exact onward_of hmoved

theorem fragment_end (h : At sc.source textStart u) :
    sc.fragment inside (textStart + Text.size u) textStart output =
      .ok ⟨output ++ u, Text.size sc.source, Text.size sc.source⟩ := by
  have hend := h.size_eq
  rw [fragment, if_neg (by omega), copyRest_eq h]

theorem fragment_endTag (h : At sc.source textStart (u ++ r)) (hv : verbatim? r = none)
    (hend : Markup.isEndTag sc.tag r = true) :
    sc.fragment true (textStart + Text.size u) textStart output =
      .ok ⟨output ++ u, textStart + Text.size u + Text.size (Text.through ['>'] r).1,
        textStart + Text.size u⟩ := by
  obtain ⟨r, rfl⟩ := lt_of_isEndTag hend
  rw [fragment, if_pos (h.append.lt_of_ne_nil (List.cons_ne_nil _ _)), spot_lt h.append hv, hend, ok_bind]
  simp only [Bool.and_self, if_true]
  rw [h.slice, ok_bind, h.append.skipPast, ok_bind]

/-- A local template is scanned by a scan of its body and one of what follows its end tag. -/
theorem fragment_template {n : Nat} {t : StartTag} {body : Markup} {left : Text}
    {e : Except Disallowed (Reading n)} (h : At sc.source textStart (u ++ r))
    (ha : AtStartTag sc.tag inside r) (ht : readStartTag r = .ok (some (sc.tag, t)))
    (hs : t.selfClosing = false) (hrest : t.rest = body.source ++ left)
    (hbody : ∀ {i : Nat}, At sc.source i t.rest →
      sc.fragment true i i [] = .ok (ofReading [] i (body, left)))
    (hnext : ∀ {i : Nat} {output : Text}, At sc.source i (Text.through ['>'] left).2 →
      sc.fragment inside i i output = outcome output i e) :
    sc.fragment inside (textStart + Text.size u) textStart output =
      outcome (output ++ u ++ (t.pieces.guarded ++
          ((if Text.allBlank body.source then body.source else guard body.guarded) ++
            (Text.through ['>'] left).1)))
        (textStart + Text.size u + (Text.size t.pieces.source +
          (Text.size body.source + Text.size (Text.through ['>'] left).1))) e := by
  have hstop := h.append.of_eq (readStartTag_eq ht)
  have hpos := Text.size_pos (pieces_ne_nil ha.2.2 ht)
  rw [fragment_startTag h ha ht]
  simp only [hs, Bool.false_eq_true, if_false, if_true]
  generalize he : textStart + Text.size u + Text.size t.pieces.source = stop at hstop ⊢
  rw [hbody hstop, ok_bind]
  rw [hrest] at hstop
  have hresume := hstop.append.past ['>']
  have hmoved : textStart + Text.size u < (ofReading [] stop (body, left)).resume := by
    simp only [ofReading]
    omega
  rw [localTemplate_eq (p := (body, left)) hstop, ok_bind]
  refine (onward_of ⟨hmoved, hresume.le⟩).trans ((hnext hresume).trans ?_)
  simp [← he, Nat.add_assoc]

/-- After the start tag of another element its content is copied, if it is raw text. -/
theorem fragment_element {n : Nat} {t : StartTag} {e : Except Disallowed (Reading n)}
    (h : At sc.source textStart (u ++ r)) (ha : AtStartTag sc.tag inside r)
    (ht : readStartTag r = .ok (some (name, t))) (hs : t.selfClosing = false) (hn : name ≠ sc.tag)
    (hnext : ∀ {i : Nat} {output : Text}, At sc.source i (Markup.plainContent name t.rest).2 →
      sc.fragment inside i i output = outcome output i e) :
    sc.fragment inside (textStart + Text.size u) textStart output =
      outcome (output ++ u ++ (t.pieces.guarded ++ (Markup.plainContent name t.rest).1))
        (textStart + Text.size u + (Text.size t.pieces.source +
          Text.size (Markup.plainContent name t.rest).1)) e := by
  have hstop := h.append.of_eq (readStartTag_eq ht)
  have hpos := Text.size_pos (pieces_ne_nil ha.2.2 ht)
  rw [fragment_startTag h ha ht]
  simp only [hs, Bool.false_eq_true, if_false, hn]
  generalize he : textStart + Text.size u + Text.size t.pieces.source = stop at hstop ⊢
  have hafter := hstop.of_eq (Markup.plainContent_eq name t.rest).symm
  have hmoved : textStart + Text.size u < stop + Text.size (Markup.plainContent name t.rest).1 := by
    omega
  rw [plainContent_eq hstop, ok_bind]
  refine (onward_of ⟨hmoved, hafter.le⟩).trans ((hnext hafter).trans ?_)
  simp [← he, Nat.add_assoc]

/-- What is scanned from an offset on is what is read of the text that stands there. -/
theorem fragment_eq (h : At sc.source textStart (u ++ r)) :
    sc.fragment inside (textStart + Text.size u) textStart output =
      outcome (output ++ u) (textStart + Text.size u) (read sc.tag inside r) := by
  have hgt : Text.through ['>'] [] = ([], []) := rfl
  fun_induction read sc.tag inside r generalizing textStart u output with
  | case1 inside =>
    rw [List.append_nil] at h
    rw [fragment_end h, ← h.size_eq]
    simp [outcome, Except.map, Except.mapError, ofReading, guarded, Markup.source, hgt]
  | case2 inside c r t rest hv ih =>
    obtain ⟨ht, hne⟩ := verbatim?_eq hv
    rw [fragment_passed h ht hne (spot_verbatim h.append hv), ih (by rwa [List.append_assoc, ← ht]),
      outcome_lead _ (guarded_addText t) fun m => by rw [source_addText, Text.size_append]]
    simp [Nat.add_assoc]
  | case3 inside c r hv hend =>
    obtain ⟨rfl, he⟩ := (Bool.and_eq_true _ _).mp hend
    rw [fragment_endTag h hv he]
    simp [outcome, Except.map, Except.mapError, ofReading, guarded, Markup.source]
  | case4 inside c r hv hend ho d hd =>
    have ha : AtStartTag sc.tag inside (c :: r) := ⟨hv, Bool.eq_false_iff.2 hend, ho⟩
    rw [fragment, if_pos (h.append.lt_of_ne_nil (List.cons_ne_nil _ _)), spot_startTag h.append ha, ok_bind]
    simp only
    rw [sc.lower_eq, h.append.startTag ho, hd]
    rfl
  | case5 inside c r hv hend ho ht =>
    have ha : AtStartTag sc.tag inside (c :: r) := ⟨hv, Bool.eq_false_iff.2 hend, ho⟩
    rw [fragment, if_pos (h.append.lt_of_ne_nil (List.cons_ne_nil _ _)), spot_startTag h.append ha, ok_bind]
    simp only
    rw [sc.lower_eq, h.append.startTag ho, ht]
    refine (copyRest_eq h).trans ?_
    rw [← h.append.size_eq]
    simp [outcome, Except.map, Except.mapError, ofReading, guarded, Markup.source, hgt]
  | case6 inside c r hv hend ho name t ht hr hs ih =>
    have ha : AtStartTag sc.tag inside (c :: r) := ⟨hv, Bool.eq_false_iff.2 hend, ho⟩
    have hstop := h.append.of_eq (readStartTag_eq ht)
    rw [fragment_startTag h ha ht, outcome_lead _ (guarded_append t.pieces)
      fun m => by rw [source_append, Text.size_append]]
    simp only [hs, if_true]
    exact (ih (u := []) hstop).trans (by rw [List.append_nil]; rfl)
  | case7 inside c r hv hend ho t hs d hd ht hr ihb =>
    have ha : AtStartTag sc.tag inside (c :: r) := ⟨hv, Bool.eq_false_iff.2 hend, ho⟩
    have hstop := h.append.of_eq (readStartTag_eq ht)
    rw [fragment_startTag h ha ht]
    simp only [Bool.eq_false_iff.2 hs, Bool.false_eq_true, if_false, if_true]
    generalize textStart + Text.size u + Text.size t.pieces.source = stop at hstop ⊢
    have hbody : sc.fragment true stop stop [] = .error (.disallowed d) :=
      (ihb (u := []) hstop).trans (by rw [hd]; rfl)
    rw [hbody]
    rfl
  | case8 inside c r hv hend ho t hs body left hl hb close ht hr hc ihb =>
    rename_i ih
    have ha : AtStartTag sc.tag inside (c :: r) := ⟨hv, Bool.eq_false_iff.2 hend, ho⟩
    have hbody {i : Nat} (hi : At sc.source i t.rest) :
        sc.fragment true i i [] = .ok (ofReading [] i (body, left)) :=
      (ihb (u := []) hi).trans (by rw [hb]; rfl)
    refine (fragment_template h ha ht (Bool.eq_false_iff.2 hs) (read_eq hb) hbody fun hi => ?_).trans
      (outcome_lead _ (fun m => ?_) fun m => ?_).symm
    · exact (ih (u := []) hi).trans (by rw [List.append_nil]; rfl)
    · simp [guarded, close]
    · simp [Markup.source, close, Nat.add_assoc]
  | case9 inside c r hv hend ho name t ht hr hs hn content hc =>
    rename_i ih
    have ha : AtStartTag sc.tag inside (c :: r) := ⟨hv, Bool.eq_false_iff.2 hend, ho⟩
    refine (fragment_element h ha ht (Bool.eq_false_iff.2 hs) hn fun hi => ?_).trans
      (outcome_lead _ (fun m => ?_) fun m => ?_).symm
    · exact (ih (u := []) hi).trans (by rw [List.append_nil]; rfl)
    · simp [content]
    · simp [content, Nat.add_assoc]
  | case10 inside c r hv hend ho ih =>
    have hc : At sc.source textStart (u ++ [c] ++ r) := by rwa [List.append_assoc]
    have hnext : sc.fragment inside (textStart + Text.size (u ++ [c])) textStart output =
      outcome (output ++ (u ++ [c])) (textStart + Text.size (u ++ [c])) (read sc.tag inside r) := ih hc
    rw [Text.size_append, ← Nat.add_assoc, ← List.append_assoc] at hnext
    rw [fragment_char h.append fun k hk => spot_char h.append hk hv (Bool.eq_false_iff.2 hend)
        (Bool.eq_false_iff.2 ho),
      outcome_lead _ (guarded_addText [c]) fun m => by rw [source_addText, Text.size_append]]
    exact hnext

end Scanner

/-- Escapes markup by scanning it. -/
def Escaper.scan (e : Escaper) (markup : Text) : Scan Text := do
  let sc : Scanner := ⟨markup, Text.lowerAscii markup, e.tag, rfl⟩
  let f ← sc.fragment false 0 0 []
  .ok f.output

/-- Scanning by byte offsets and reading come to the same. -/
theorem Escaper.scan_eq (e : Escaper) (markup : Text) :
    e.scan markup = (e.escape markup).mapError .disallowed := by
  let sc : Scanner := ⟨markup, Text.lowerAscii markup, e.tag, rfl⟩
  have h : sc.fragment false 0 0 [] = Scanner.outcome [] 0 (Markup.read e.tag false markup) :=
    Scanner.fragment_eq (u := []) (Scan.at_zero markup)
  rw [Escaper.scan, Escaper.escape, Markup.escape, ofText]
  refine (congrArg (· >>= _) h).trans ?_
  cases Markup.read e.tag false markup with
  | error d => rfl
  | ok p => simp [Scanner.outcome, Scanner.ofReading, Except.map, Except.mapError, Scan.ok_bind]

/-- Scanning by byte offsets never looks or cuts where it must not, and always gets on: it ends with the
escaped markup, or with an attribute value that is refused. -/
theorem Escaper.scan_total (e : Escaper) (markup : Text) :
    (∃ out, e.scan markup = .ok out ∧ e.escape markup = .ok out) ∨
      ∃ d, e.scan markup = .error (.disallowed d) ∧ e.escape markup = .error d := by
  rw [Escaper.scan_eq]
  cases e.escape markup with
  | ok out => exact .inl ⟨out, rfl, rfl⟩
  | error d => exact .inr ⟨d, rfl, rfl⟩

end Stencil
