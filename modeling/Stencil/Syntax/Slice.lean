import Stencil.Text.Blank
/-!
Places in a source: a slice is a piece of text together with the byte offset at which it starts, and a
position is the line and column that a reader sees.
-/

namespace Stencil

/-- A piece of a source and the byte offset at which it starts. -/
structure Slice where
  start : Nat
  text : Text
  deriving DecidableEq, Repr

namespace Slice

/-- The offset just after the slice. -/
def stop (s : Slice) : Nat :=
  s.start + Text.size s.text

/-- The slice without its first `n` characters. -/
def drop (n : Nat) (s : Slice) : Slice :=
  ⟨s.start + Text.size (s.text.take n), s.text.drop n⟩

/-- The slice without the ASCII blanks at its ends. -/
def trim (s : Slice) : Slice :=
  let p := Text.run Text.isAsciiBlank s.text
  ⟨s.start + Text.size p.1, Text.trimEndBy Text.isAsciiBlank p.2⟩

end Slice

/-- A line and a column, both counted from one; columns count characters. -/
structure Position where
  line : Nat
  column : Nat
  deriving DecidableEq, Repr

namespace Position

/-- The position just after a text. -/
def after (before : Text) : Position where
  line := before.count '\n' + 1
  column := (before.reverse.takeWhile (· ≠ '\n')).length + 1

/-- The characters before byte `offset`; the whole source when the offset lies past the end or inside
a character. -/
def before (source : Text) (offset : Nat) : Text :=
  let p := Text.splitAtByte offset source
  if Text.size p.1 = offset then p.1 else source

/-- The position of a byte offset. -/
def ofOffset (source : Text) (offset : Nat) : Position :=
  after (before source offset)

end Position

end Stencil
