import Mathlib.Control.Monad.Basic
import Stencil.Escaper
import Stencil.Proofs.Markup.Reads
/-!
Escaping as insertion.

Escaped markup is the markup itself with a raw marker put in directly before and directly after each of
some ranges.  The ranges lie side by side or inside each other and none of them is blank, so that the
markers pair up (`escape_inserts`).  Nothing else is done to the markup.
-/

namespace Stencil

/-! ## Ranges -/

/-- A range of bytes of a text. -/
structure ByteRange where
  start : Nat
  stop : Nat
  deriving DecidableEq, Repr

namespace ByteRange

/-- The ranges have no byte in common, or one lies in the other. -/
def Laminar (a b : ByteRange) : Prop :=
  (a.stop ≤ b.start ∨ b.stop ≤ a.start) ∨
    (b.start ≤ a.start ∧ a.stop ≤ b.stop) ∨ a.start ≤ b.start ∧ b.stop ≤ a.stop

instance : DecidableRel Laminar := fun a b =>
  inferInstanceAs (Decidable ((a.stop ≤ b.start ∨ b.stop ≤ a.start) ∨
    (b.start ≤ a.start ∧ a.stop ≤ b.stop) ∨ a.start ≤ b.start ∧ b.stop ≤ a.stop))

/-- The range is that of a part of a text that begins at byte `start`, and the part is not blank. -/
def Covers (r : ByteRange) (start : Nat) (s : Text) : Prop :=
  ∃ a t b, s = a ++ t ++ b ∧ r = ⟨start + Text.size a, start + Text.size a + Text.size t⟩ ∧
    Text.allBlank t = false

/-- The range has a byte, and lies from byte `lo` to byte `hi`. -/
def Inside (r : ByteRange) (lo hi : Nat) : Prop :=
  lo ≤ r.start ∧ r.start < r.stop ∧ r.stop ≤ hi

end ByteRange

theorem Text.ne_nil_of_not_allBlank {s : Text} (h : allBlank s = false) : s ≠ [] := by
  rintro rfl
  exact nomatch h

namespace ByteRange.Covers

variable {r : ByteRange} {start : Nat} {s : Text}

theorem inside (h : r.Covers start s) : r.Inside start (start + Text.size s) := by
  obtain ⟨a, t, b, rfl, rfl, ht⟩ := h
  have := Text.size_pos (Text.ne_nil_of_not_allBlank ht)
  simp only [Inside, Text.size_append]
  omega

theorem whole (hs : Text.allBlank s = false) :
    (⟨start, start + Text.size s⟩ : ByteRange).Covers start s :=
  ⟨[], s, [], by simp, by simp, hs⟩

theorem append_right (h : r.Covers start s) (x : Text) : r.Covers start (s ++ x) := by
  obtain ⟨a, t, b, rfl, hr, ht⟩ := h
  exact ⟨a, t, b ++ x, by simp, hr, ht⟩

theorem append_left {x : Text} (h : r.Covers (start + Text.size x) s) : r.Covers start (x ++ s) := by
  obtain ⟨a, t, b, rfl, rfl, ht⟩ := h
  exact ⟨x ++ a, t, b, by simp, by simp [Nat.add_assoc], ht⟩

end ByteRange.Covers

/-! ## Insertion -/

/-- A character that was there, or a marker that was put in. -/
inductive Stroke
  | kept (c : Char)
  | opening
  | closing
  deriving DecidableEq, Repr

namespace Stroke

def text : Stroke → Text
  | kept c => [c]
  | opening => RawBlock.opening
  | closing => RawBlock.closing

def kept? : Stroke → Option Char
  | kept c => some c
  | _ => none

/-- The text that strokes make up. -/
def spelled (l : List Stroke) : Text :=
  l.flatMap text

@[simp] theorem spelled_append (l l' : List Stroke) : spelled (l ++ l') = spelled l ++ spelled l' :=
  List.flatMap_append

theorem spelled_kept (s : Text) : spelled (s.map kept) = s := by
  rw [spelled, List.flatMap_map]
  exact List.flatMap_singleton' s

/-- Every opening marker has its closing marker, and pairs lie side by side or inside each other. -/
inductive Nested : List Stroke → Prop
  | nil : Nested []
  | kept (c : Char) {l : List Stroke} : Nested l → Nested (.kept c :: l)
  | pair {l l' : List Stroke} : Nested l → Nested l' → Nested (.opening :: l ++ .closing :: l')

theorem Nested.append {l l' : List Stroke} (h : Nested l) (h' : Nested l') : Nested (l ++ l') := by
  induction h with
  | nil => exact h'
  | kept c _ ih => exact .kept c ih
  | pair hl _ _ ih =>
    rw [List.append_assoc, List.cons_append]
    exact .pair hl ih

theorem Nested.of_kept (s : Text) : Nested (s.map Stroke.kept) := by
  induction s with
  | nil => exact .nil
  | cons c r ih => exact .kept c ih

end Stroke

/-- The markers that stand after the ranges that end at byte `n`. -/
def closings (ranges : List ByteRange) (n : Nat) : List Stroke :=
  List.replicate (ranges.countP fun r => r.stop = n) .closing

/-- The markers that stand before the ranges that begin at byte `n`. -/
def openings (ranges : List ByteRange) (n : Nat) : List Stroke :=
  List.replicate (ranges.countP fun r => r.start = n) .opening

/-- The text with the markers that stand before its characters, the first of which is at byte `n`. -/
def strokesUpTo (ranges : List ByteRange) (n : Nat) : Text → List Stroke
  | [] => []
  | c :: r =>
    closings ranges n ++ openings ranges n ++ .kept c :: strokesUpTo ranges (n + c.utf8Size) r

/-- The text, its first character at byte `n`, with a marker directly before and directly after each of
the ranges.  Where one range ends and another begins, the marker of the end comes first. -/
def strokes (ranges : List ByteRange) (n : Nat) (s : Text) : List Stroke :=
  strokesUpTo ranges n s ++ closings ranges (n + Text.size s)

/-- Insertion loses and changes nothing of the text. -/
theorem kept_strokes (ranges : List ByteRange) (n : Nat) (s : Text) :
    (strokes ranges n s).filterMap Stroke.kept? = s := by
  have hc (m : Nat) : (closings ranges m).filterMap Stroke.kept? = [] :=
    List.filterMap_replicate_of_none rfl
  have ho (m : Nat) : (openings ranges m).filterMap Stroke.kept? = [] :=
    List.filterMap_replicate_of_none rfl
  have hs : (strokesUpTo ranges n s).filterMap Stroke.kept? = s := by
    induction s generalizing n with
    | nil => rfl
    | cons c r ih =>
      rw [strokesUpTo, List.filterMap_append, List.filterMap_append, hc, ho, List.filterMap_cons, ih]
      rfl
  rw [strokes, List.filterMap_append, hs, hc, List.append_nil]

section

variable {n : Nat} {s t : Text} {ranges ranges' : List ByteRange}

theorem closings_of_ne (h : ∀ r ∈ ranges, r.stop ≠ n) : closings ranges n = [] := by
  rw [closings, List.countP_eq_zero.2 fun r hr => by simpa using h r hr]
  rfl

theorem openings_of_ne (h : ∀ r ∈ ranges, r.start ≠ n) : openings ranges n = [] := by
  rw [openings, List.countP_eq_zero.2 fun r hr => by simpa using h r hr]
  rfl

/-- Outside of the texts of ranges there are no markers, nor are there closing markers where they begin. -/
theorem closings_eq_nil {lo hi : Nat} (h : ∀ r ∈ ranges, r.Inside lo hi) (hn : n ≤ lo ∨ hi < n) :
    closings ranges n = [] := by
  refine closings_of_ne fun r hr => ?_
  have := h r hr
  unfold ByteRange.Inside at this
  omega

/-- Outside of the texts of ranges there are no markers, nor are there opening markers where they end. -/
theorem openings_eq_nil {lo hi : Nat} (h : ∀ r ∈ ranges, r.Inside lo hi) (hn : n < lo ∨ hi ≤ n) :
    openings ranges n = [] := by
  refine openings_of_ne fun r hr => ?_
  have := h r hr
  unfold ByteRange.Inside at this
  omega

theorem closings_cons (r : ByteRange) (ranges : List ByteRange) (n : Nat) :
    closings (r :: ranges) n =
      if r.stop = n then closings ranges n ++ [.closing] else closings ranges n := by
  unfold closings
  split
  · next h => rw [List.countP_cons_of_pos (by simpa using h), List.replicate_succ']
  · next h => rw [List.countP_cons_of_neg (by simpa using h)]

theorem openings_cons (r : ByteRange) (ranges : List ByteRange) (n : Nat) :
    openings (r :: ranges) n =
      if r.start = n then .opening :: openings ranges n else openings ranges n := by
  unfold openings
  split
  · next h => rw [List.countP_cons_of_pos (by simpa using h), List.replicate_succ]
  · next h => rw [List.countP_cons_of_neg (by simpa using h)]

theorem closings_append (ranges ranges' : List ByteRange) (n : Nat) :
    closings (ranges ++ ranges') n = closings ranges n ++ closings ranges' n := by
  rw [closings, List.countP_append, ← List.replicate_append_replicate]
  rfl

theorem openings_append (ranges ranges' : List ByteRange) (n : Nat) :
    openings (ranges ++ ranges') n = openings ranges n ++ openings ranges' n := by
  rw [openings, List.countP_append, ← List.replicate_append_replicate]
  rfl

theorem strokesUpTo_append (ranges : List ByteRange) (n : Nat) (s t : Text) :
    strokesUpTo ranges n (s ++ t) =
      strokesUpTo ranges n s ++ strokesUpTo ranges (n + Text.size s) t := by
  induction s generalizing n with
  | nil => rfl
  | cons c r ih =>
    rw [List.cons_append, strokesUpTo, strokesUpTo, ih, Text.size_cons, Nat.add_assoc]
    simp only [List.append_assoc, List.cons_append]

/-- Only the ends that lie in a text matter for it. -/
theorem strokesUpTo_congr
    (hc : ∀ m, n ≤ m → m < n + Text.size s → closings ranges m = closings ranges' m)
    (ho : ∀ m, n ≤ m → m < n + Text.size s → openings ranges m = openings ranges' m) :
    strokesUpTo ranges n s = strokesUpTo ranges' n s := by
  induction s generalizing n with
  | nil => rfl
  | cons c r ih =>
    have hpos := c.utf8Size_pos
    rw [Text.size_cons] at hc ho
    rw [strokesUpTo, strokesUpTo, hc n (Nat.le_refl n) (by omega), ho n (Nat.le_refl n) (by omega),
      ih (fun m hm hm' => hc m (by omega) (by omega)) fun m hm hm' => ho m (by omega) (by omega)]

theorem strokesUpTo_plain (n : Nat) (s : Text) : strokesUpTo [] n s = s.map Stroke.kept := by
  induction s generalizing n with
  | nil => rfl
  | cons c r ih => exact congrArg (Stroke.kept c :: ·) (ih _)

/-- Ranges of two texts, one after the other, are marked in each text on its own. -/
theorem strokes_append (h : ∀ r ∈ ranges, r.Inside n (n + Text.size s))
    (h' : ∀ r ∈ ranges', r.Inside (n + Text.size s) (n + Text.size s + Text.size t)) :
    strokes (ranges ++ ranges') n (s ++ t) =
      strokes ranges n s ++ strokes ranges' (n + Text.size s) t := by
  have hleft : strokesUpTo (ranges ++ ranges') n s = strokesUpTo ranges n s := by
    refine strokesUpTo_congr (fun m _ hm => ?_) fun m _ hm => ?_
    · rw [closings_append, closings_eq_nil h' (.inl (by omega)), List.append_nil]
    · rw [openings_append, openings_eq_nil h' (.inl (by omega)), List.append_nil]
  have hend : closings ranges' (n + Text.size s) = [] := closings_eq_nil h' (.inl (Nat.le_refl _))
  rw [strokes, strokesUpTo_append, hleft, Text.size_append, ← Nat.add_assoc, strokes, strokes,
    List.append_assoc, List.append_assoc]
  congr 1
  cases t with
  | nil =>
    rw [Text.size_nil, Nat.add_zero, closings_append, hend]
    rfl
  | cons c t =>
    have hpos := c.utf8Size_pos
    rw [Text.size_cons] at h' ⊢
    have hright : strokesUpTo (ranges ++ ranges') (n + Text.size s + c.utf8Size) t =
        strokesUpTo ranges' (n + Text.size s + c.utf8Size) t := by
      refine strokesUpTo_congr (fun m hm _ => ?_) fun m hm _ => ?_
      · rw [closings_append, closings_eq_nil h (.inr (by omega)), List.nil_append]
      · rw [openings_append, openings_eq_nil h (.inr (by omega)), List.nil_append]
    have hfirst : openings ranges (n + Text.size s) = [] := openings_eq_nil h (.inr (Nat.le_refl _))
    have hlast : closings ranges (n + Text.size s + (c.utf8Size + Text.size t)) = [] :=
      closings_eq_nil h (.inr (by omega))
    rw [strokesUpTo, strokesUpTo, hright, closings_append, closings_append, openings_append, hend, hlast,
      hfirst]
    simp

/-- A range of the whole text puts one pair of markers around all. -/
theorem strokes_whole (hs : s ≠ []) (h : ∀ r ∈ ranges, r.Inside n (n + Text.size s)) :
    strokes (⟨n, n + Text.size s⟩ :: ranges) n s = .opening :: strokes ranges n s ++ [.closing] := by
  obtain ⟨c, t, rfl⟩ := List.exists_cons_of_ne_nil hs
  have hpos := c.utf8Size_pos
  have hstart : closings ranges n = [] := closings_eq_nil h (.inl (Nat.le_refl n))
  rw [Text.size_cons]
  have hrest : strokesUpTo (⟨n, n + (c.utf8Size + Text.size t)⟩ :: ranges) (n + c.utf8Size) t =
      strokesUpTo ranges (n + c.utf8Size) t := by
    refine strokesUpTo_congr (fun m _ hm => ?_) fun m hm _ => ?_
    · rw [closings_cons, if_neg (show ¬ n + (c.utf8Size + Text.size t) = m by omega)]
    · rw [openings_cons, if_neg (show ¬ n = m by omega)]
  rw [strokes, strokes, strokesUpTo, strokesUpTo, Text.size_cons, hrest, closings_cons, closings_cons,
    openings_cons, if_neg (show ¬ n + (c.utf8Size + Text.size t) = n by omega), if_pos rfl, if_pos rfl,
    hstart]
  simp

end

/-! ## Texts with markers put in -/

/-- `out` is the text `s`, which begins at byte `n`, with markers around ranges of it. -/
structure Inserted (ranges : List ByteRange) (n : Nat) (s out : Text) : Prop where
  covers : ∀ r ∈ ranges, r.Covers n s
  laminar : ranges.Pairwise ByteRange.Laminar
  nested : Stroke.Nested (strokes ranges n s)
  spelled : Stroke.spelled (strokes ranges n s) = out

namespace Inserted

variable {n : Nat} {s t out out' : Text} {ranges ranges' : List ByteRange}

theorem plain (n : Nat) (s : Text) : Inserted [] n s s := by
  have hs : strokes [] n s = s.map Stroke.kept := by
    rw [strokes, strokesUpTo_plain]
    exact List.append_nil _
  refine ⟨fun r hr => absurd hr List.not_mem_nil, List.Pairwise.nil, ?_, ?_⟩
  · rw [hs]
    exact .of_kept s
  · rw [hs, Stroke.spelled_kept]

theorem append (h : Inserted ranges n s out) (h' : Inserted ranges' (n + Text.size s) t out') :
    Inserted (ranges ++ ranges') n (s ++ t) (out ++ out') := by
  have hs := strokes_append (fun r hr => (h.covers r hr).inside) fun r hr => (h'.covers r hr).inside
  refine ⟨fun r hr => ?_, ?_, ?_, ?_⟩
  · rcases List.mem_append.1 hr with hr | hr
    · exact (h.covers r hr).append_right t
    · exact (h'.covers r hr).append_left
  · refine List.pairwise_append.2 ⟨h.laminar, h'.laminar, fun r hr r' hr' => .inl (.inl ?_)⟩
    have := (h.covers r hr).inside.2.2
    have := (h'.covers r' hr').inside.1
    omega
  · rw [hs]
    exact h.nested.append h'.nested
  · rw [hs, Stroke.spelled_append, h.spelled, h'.spelled]

theorem guard (h : Inserted ranges n s out) (hs : Text.allBlank s = false) :
    Inserted (⟨n, n + Text.size s⟩ :: ranges) n s (Markup.guard out) := by
  have hw := strokes_whole (Text.ne_nil_of_not_allBlank hs) fun r hr => (h.covers r hr).inside
  refine ⟨fun r hr => ?_, ?_, ?_, ?_⟩
  · rcases List.mem_cons.1 hr with rfl | hr
    · exact .whole hs
    · exact h.covers r hr
  · refine List.pairwise_cons.2 ⟨fun r hr => .inr (.inr ?_), h.laminar⟩
    have hi := (h.covers r hr).inside
    exact ⟨hi.1, hi.2.2⟩
  · rw [hw]
    exact .pair h.nested .nil
  · rw [hw, Stroke.spelled_append, ← List.singleton_append, Stroke.spelled_append, h.spelled]
    simp [Stroke.spelled, Stroke.text, Markup.guard]

end Inserted

/-! ## Markup -/

namespace Markup

/-- The ranges of markup, the first character of which is at byte `n`, that are guarded. -/
def ranges (n : Nat) : Markup → List ByteRange
  | nil => []
  | text t rest => ranges (n + Text.size t) rest
  | invocation t rest => ⟨n, n + Text.size t⟩ :: ranges (n + Text.size t) rest
  | definition body endTag rest =>
    (if Text.allBlank body.source then []
      else ⟨n, n + Text.size body.source⟩ :: ranges n body) ++
      ranges (n + Text.size body.source + Text.size endTag) rest

/-- No invocation is blank. -/
def Solid : Markup → Prop
  | nil => True
  | text _ rest => rest.Solid
  | invocation t rest => Text.allBlank t = false ∧ rest.Solid
  | definition body _ rest => body.Solid ∧ rest.Solid

theorem Solid.addText {m : Markup} (h : m.Solid) (t : Text) : (addText t m).Solid := by
  unfold Markup.addText
  split <;> exact h

theorem Solid.append {a b : Markup} (ha : a.Solid) (hb : b.Solid) : (append a b).Solid := by
  induction a with
  | nil => exact hb
  | text t rest ih => exact (ih ha).addText t
  | invocation t rest ih => exact ⟨ha.1, ih ha.2⟩
  | definition body endTag rest _ ih => exact ⟨ha.1, ih ha.2⟩

theorem inserted (n : Nat) {m : Markup} (h : m.Solid) : Inserted (m.ranges n) n m.source m.guarded := by
  induction m generalizing n with
  | nil => exact .plain n []
  | text t rest ih => exact (Inserted.plain n t).append (ih _ h)
  | invocation t rest ih =>
    exact ((Inserted.plain n t).guard h.1).append (ih _ h.2)
  | definition body endTag rest ihb ih =>
    have hrest : Inserted (rest.ranges (n + Text.size body.source + Text.size endTag))
        (n + Text.size body.source) (endTag ++ rest.source) (endTag ++ rest.guarded) :=
      (Inserted.plain _ endTag).append (ih _ h.2)
    rw [ranges, source, guarded, List.append_assoc, List.append_assoc]
    split
    · exact (Inserted.plain n body.source).append hrest
    · next hb =>
      exact ((ihb n h.1).guard (Bool.eq_false_iff.2 hb)).append hrest

/-! ### Markup that is read -/

theorem allBlank_of_closed? {opener s t rest : Text} (ho : Text.allBlank opener = false)
    (h : closed? opener s = some (t, rest)) : Text.allBlank t = false := by
  obtain ⟨r, -, h⟩ := Option.bind_eq_some_iff.1 h
  obtain ⟨⟨a, b⟩, -, he⟩ := Option.map_eq_some_iff.1 h
  rw [← (Prod.mk.inj he).1, Text.allBlank, List.all_append, List.all_append, ← Text.allBlank, ho]
  rfl

theorem allBlank_of_invocation? {s t rest : Text} (h : invocation? s = some (t, rest)) :
    Text.allBlank t = false := by
  unfold invocation? at h
  split at h
  · next p hp =>
    obtain rfl := Option.some.inj h
    exact allBlank_of_closed? (by decide) hp
  · exact allBlank_of_closed? (by decide) h

theorem solid_ofValue (s : Text) : (ofValue s).Solid := by
  fun_induction ofValue s with
  | case1 => trivial
  | case2 c r t rest h ih => exact ⟨allBlank_of_invocation? h, ih⟩
  | case3 c r h ih => exact ih.addText [c]

theorem solid_of_readValue {element name value : Text} {m : Markup}
    (h : readValue element name value = .ok m) : m.Solid := by
  unfold readValue at h
  split at h
  · exact nomatch h
  · rw [← Except.ok.inj h]
    exact solid_ofValue value

theorem StartTag.Reads.solid {element s : Text} {t : StartTag} (h : StartTag.Reads element s t) :
    t.pieces.Solid := by
  induction h with
  | close _ => trivial
  | closeSelf _ => trivial
  | mustache _ _ _ ih => exact ih.addText _
  | stray _ _ _ _ ih => exact ih.addText _
  | @valued _ _ _ _ _ _ _ _ _ v pieces _ _ _ _ _ _ _ _ hp _ ih =>
    have hmark : (Markup.append pieces (Markup.addText v.mark nil)).Solid :=
      (solid_of_readValue hp).append (Solid.addText (m := nil) trivial _)
    exact (hmark.addText _).append ih
  | bare _ _ _ _ _ _ ih => exact ih.addText _

theorem solid_of_readStartTag {s name : Text} {t : StartTag}
    (h : readStartTag s = .ok (some (name, t))) : t.pieces.Solid := by
  obtain ⟨n, r, v, -, -, hv, rfl⟩ := readStartTag_ok_iff.1 h
  exact hv.solid.addText _

theorem Reads.solid {tag s u : Text} {inside : Bool} {m : Markup} (h : Reads tag inside s m u) :
    m.Solid := by
  induction h with
  | done => trivial
  | verbatim _ _ ih => exact ih.addText _
  | stop _ _ => trivial
  | unended _ _ => trivial
  | single _ ht _ _ ih => exact (solid_of_readStartTag ht).append ih
  | template _ ht _ _ _ _ ihb ih => exact (solid_of_readStartTag ht).append ⟨ihb, ih⟩
  | element _ ht _ _ _ _ ih => exact (solid_of_readStartTag ht).append (ih.addText _)
  | char _ _ _ _ ih => exact ih.addText _

end Markup

/-! ## Escaping -/

namespace Escaper

/-- Escaped markup is the markup with a marker directly before and directly after each of some ranges of
it.  No range is blank, two of them are apart or one lies in the other, the markers are nested, and all
else is the markup, character for character. -/
theorem escape_inserts (e : Escaper) {markup out : Text} (h : e.escape markup = .ok out) :
    ∃ ranges, Inserted ranges 0 markup out ∧
      (strokes ranges 0 markup).filterMap Stroke.kept? = markup := by
  obtain ⟨m, hm, rfl⟩ := Except.map_eq_ok_iff.1 h
  have hi := Markup.inserted 0 (Markup.ofText_ok_iff.1 hm).solid
  rw [Markup.source_ofText hm] at hi
  exact ⟨m.ranges 0, hi, kept_strokes _ 0 markup⟩

/-- A local template with an invocation in a tag and a blank local template in it. -/
def markedSource : Text :=
  "<template><a b=\"{{>x}}\"><template> </template></template>".toList

def markedOut : Text :=
  "<template>{{{{raw}}}}<a b=\"{{{{raw}}}}{{>x}}{{{{/raw}}}}\"><template> </template>{{{{/raw}}}}</template>".toList

theorem escape_inserts_marked : Escaper.default.escape markedSource = .ok markedOut ∧
    ∃ ranges, Inserted ranges 0 markedSource markedOut ∧
      (strokes ranges 0 markedSource).filterMap Stroke.kept? = markedSource := by
  have h : Escaper.default.escape markedSource = .ok markedOut := by decide +kernel
  exact ⟨h, escape_inserts _ h⟩

end Escaper

end Stencil
