import Stencil.Text
/-!
White space: the five ASCII blanks that separate the parts of a tag, and the `White_Space` property
that trims loose text and separates words.
-/

namespace Stencil.Text

/-- Space, tab, line feed, form feed and carriage return. -/
def isAsciiBlank (c : Char) : Bool :=
  c = ' ' || c = '\t' || c = '\n' || c = '\x0c' || c = '\r'

/-- The characters with the Unicode property `White_Space`. -/
def isBlank (c : Char) : Bool :=
  let n := c.toNat
  (9 ≤ n && n ≤ 13) || n = 0x20 || n = 0x85 || n = 0xA0 || n = 0x1680 ||
    (0x2000 ≤ n && n ≤ 0x200A) || n = 0x2028 || n = 0x2029 || n = 0x202F || n = 0x205F || n = 0x3000

/-- The text without white space at its ends. -/
def trim (s : Text) : Text :=
  trimBy isBlank s

/-- The first word, if there is one. -/
def firstWord (s : Text) : Option Text :=
  match s.dropWhile isBlank with
  | [] => none
  | c :: r => some ((c :: r).takeWhile fun d => !isBlank d)

/-- Whether the text has no character but white space. -/
def allBlank (s : Text) : Bool :=
  s.all isBlank

/-- The leading word, up to the first ASCII blank, and the trimmed rest. -/
def splitHead (s : Text) : Text × Text :=
  let p := run (fun c => !isAsciiBlank c) s
  (p.1, trim p.2)

end Stencil.Text
