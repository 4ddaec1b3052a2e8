import Stencil.Text.Blank
/-!
Raw blocks: text between a quadruple-brace opener and the closer of the same helper.  Inner openers of
that helper nest, so reading a block takes off exactly one layer of markers.

`read_eq` says that the block read, as written, and the rest make up the text again.
-/

namespace Stencil

/-! ## Braces -/

def open2 : Text := ['{', '{']

def close2 : Text := ['}', '}']

def close3 : Text := ['}', '}', '}']

def open4 : Text := ['{', '{', '{', '{']

def close4 : Text := ['}', '}', '}', '}']

/-- A raw block by its parts: the text inside the opening marker, the content, and the text inside the
closing marker. -/
structure RawBlock where
  head : Text
  content : Text
  tail : Text
  deriving DecidableEq, Repr

namespace RawBlock

/-- The helper that the opening marker names. -/
def helper (b : RawBlock) : Text :=
  (Text.firstWord b.head).getD []

/-- The block as it stands in the source. -/
def written (b : RawBlock) : Text :=
  open4 ++ b.head ++ close4 ++ b.content ++ open4 ++ b.tail ++ close4

/-- The name of the protecting block. -/
def protector : Text := "raw".toList

/-- Marker written before protected text. -/
def opening : Text := open4 ++ protector ++ close4

/-- Marker written after protected text. -/
def closing : Text := open4 ++ '/' :: protector ++ close4

/-- Number of inner blocks of `helper` left open after a marker with the text `tag`, `none` when the
marker closes the block itself. -/
def depthAfter (helper tag : Text) (depth : Nat) : Option Nat :=
  match Text.trim tag with
  | '/' :: name =>
    if Text.trim name = helper then
      match depth with
      | 0 => none
      | d + 1 => some d
    else some depth
  | t => if Text.firstWord t = some helper then some (depth + 1) else some depth

/-- Content, text of the closing marker and rest of a block whose opening marker has been read, with
`depth` inner blocks of the same helper open. -/
def readBody (helper : Text) (depth : Nat) (s : Text) : Option (Text × Text × Text) :=
  match _h : Text.cut open4 s with
  | none => none
  | some (before, r) =>
    match _h' : Text.cut close4 r with
    | none => none
    | some (tag, r') =>
      match depthAfter helper tag depth with
      | none => some (before, tag, r')
      | some d =>
        (readBody helper d r').map fun p =>
          (before ++ open4 ++ tag ++ close4 ++ p.1, p.2.1, p.2.2)
termination_by s.length
decreasing_by
  have h1 := Text.cut_length _h
  have h2 := Text.cut_length _h'
  simp only [open4, close4, List.length_cons, List.length_nil] at h1 h2
  omega

/-- The raw block at the head of a text, and what follows it. -/
def read (s : Text) : Option (RawBlock × Text) :=
  match Text.after? open4 s with
  | none => none
  | some r =>
    match Text.cut close4 r with
    | none => none
    | some (head, r') =>
      match Text.firstWord head with
      | none => none
      | some ('/' :: _) => none
      | some helper =>
        (readBody helper 0 r').map fun p => (⟨head, p.1, p.2.1⟩, p.2.2)

theorem readBody_eq {helper s content tail rest : Text} {depth : Nat}
    (h : readBody helper depth s = some (content, tail, rest)) :
    s = content ++ open4 ++ tail ++ close4 ++ rest := by
  fun_induction readBody helper depth s generalizing content with
  | case1 => simp at h
  | case2 => simp at h
  | case3 depth s before r hc tag r' hc' hd =>
    simp only [Option.some.injEq, Prod.mk.injEq] at h
    obtain ⟨rfl, rfl, rfl⟩ := h
    rw [Text.cut_eq hc, Text.cut_eq hc']
    simp
  | case4 depth s before r hc tag r' hc' d hd ih =>
    obtain ⟨⟨c, t, u⟩, hp, he⟩ := Option.map_eq_some_iff.1 h
    simp only [Prod.mk.injEq] at he
    obtain ⟨rfl, rfl, rfl⟩ := he
    rw [Text.cut_eq hc, Text.cut_eq hc', ih hp]
    simp

theorem read_eq {s rest : Text} {b : RawBlock} (h : read s = some (b, rest)) :
    s = b.written ++ rest := by
  unfold read at h
  split at h
  · simp at h
  · next r hr =>
    split at h
    · simp at h
    · next head r' hc =>
      split at h
      · simp at h
      · simp at h
      · obtain ⟨⟨c, t, u⟩, hp, he⟩ := Option.map_eq_some_iff.1 h
        simp only [Prod.mk.injEq] at he
        obtain ⟨rfl, rfl⟩ := he
        rw [Text.after?_eq hr, Text.cut_eq hc, readBody_eq hp]
        simp [written]

theorem written_length_pos (b : RawBlock) : 0 < b.written.length := by
  simp [written, open4]

end RawBlock

end Stencil
