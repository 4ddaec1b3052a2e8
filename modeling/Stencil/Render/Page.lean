import Stencil.Render.Tag
import Stencil.Text.Blank
/-!
Pages: runtime sources read into elements.

A tag that stands alone on its line, values aside, takes the line with it: the blanks before it and the
line break after it are not part of the page.  The blanks before a partial are the indent of what is
inserted.
-/

namespace Stencil.Render

inductive Element
  | text (content : Text)
  | value (subject : Term) (escaped : Bool)
  | call (line : Line) (escaped : Bool)
  /-- A helper with a body, and what stands for it otherwise; `ownLine` tells whether the tag that opens
  it has a line of its own, here and in the other elements. -/
  | block (line : Line) (ownLine : Bool) (body inverse : List Element)
  | insert (name : Term) (arguments : Arguments) (ownLine : Bool) (indent : Text)
  /-- A partial with a body. -/
  | wrap (name : Term) (arguments : Arguments) (ownLine : Bool) (body : List Element)
  | directive (line : Line)
  /-- A directive with a body. -/
  | declare (line : Line) (body : List Element)
  deriving Inhabited

/-- A source that has been read. -/
abbrev Page := List Element

/-! ## Tags in their places -/

/-- What the source around a tag says about it. -/
structure Margins where
  trimBefore : Bool
  trimAfter : Bool
  /-- Whether nothing but blanks stands beside the tag on its line. -/
  alone : Bool
  /-- The blanks right before the tag. -/
  indent : Text

namespace Margins

/-- Whether the tag has a line of its own, with its blanks. -/
def ownLine (m : Margins) : Bool :=
  m.alone && !m.trimBefore

end Margins

inductive Piece
  | text (content : Text)
  | tag (value : Tag) (margins : Margins)

def isIndent (c : Char) : Bool :=
  c = ' ' || c = '\t'

def isLineBreak (c : Char) : Bool :=
  c = '\n' || c = '\r'

/-- The margins of a tag; `before` is the source before it, backwards. -/
def marginsOf (isRoot : Bool) (before : Text) (f : Found) : Margins :=
  let startsLine := ((before.dropWhile isIndent).head?.map isLineBreak).getD true
  let endsLine := (f.rest.dropWhile isIndent).head?.any isLineBreak || (isRoot && f.rest.isEmpty)
  { trimBefore := f.trimBefore
    trimAfter := f.trimAfter
    alone := startsLine && endsLine
    indent := (before.takeWhile isIndent).reverse }

/-- The pieces of a source, `none` if it has something that is no tag.  The end of a root counts as the
end of a line. -/
def pieces (isRoot : Bool) : Nat → Text → Text → Option (List Piece)
  | 0, _, _ => none
  | _ + 1, _, [] => some []
  | fuel + 1, before, s =>
    let behind (rest : Text) : Text := (s.take (s.length - rest.length)).reverse ++ before
    if Text.startsWith open2 s then
      (Tag.read? s).bind fun f =>
        (pieces isRoot fuel (behind f.rest) f.rest).map fun ps =>
          .tag f.tag (marginsOf isRoot before f) :: ps
    else
      let p := plainText s
      (pieces isRoot fuel (behind p.2) p.2).map fun ps => .text p.1 :: ps

/-! ## Assembly -/

/-- What an open tag will become. -/
inductive Opener
  | block (line : Line) (ownLine : Bool)
  | wrap (spelling : Option Text) (name : Term) (arguments : Arguments) (ownLine : Bool)
  | declare (line : Line)

/-- A finished branch of a block. -/
structure Branch where
  line : Line
  ownLine : Bool
  body : List Element

/-- A body that is not closed yet. -/
structure Frame where
  opener : Opener
  /-- The elements before it, the last first. -/
  outer : List Element
  /-- The earlier branches of the block, the last first. -/
  branches : List Branch
  /-- Whether the branch for all other cases has begun. -/
  last : Bool

structure Assembly where
  /-- The elements of the innermost body, the last first. -/
  done : List Element
  frames : List Frame
  /-- Whether the text that follows is trimmed. -/
  trims : Bool
  /-- Whether the rest of the line is dropped from the text that follows. -/
  endsLine : Bool

namespace Assembly

/-- Without the blanks up to the end of the line and the line break. -/
def afterLine (s : Text) : Text :=
  match s.dropWhile isIndent with
  | '\r' :: '\n' :: r => r
  | '\n' :: r => r
  | r => r

def addText (a : Assembly) (content : Text) : Assembly :=
  if a.trims && content.all Json.isSpace then a
  else
    let kept :=
      if a.trims then content.dropWhile Text.isBlank
      else if a.endsLine then afterLine content
      else content
    { a with done := .text kept :: a.done, endsLine := false }

/-- Drops the characters in `p` from the end of the text that was added last. -/
def trimLast (p : Char → Bool) (a : Assembly) : Assembly :=
  match a.done with
  | .text s :: rest => { a with done := .text (Text.trimEndBy p s) :: rest }
  | _ => a

def add (a : Assembly) (e : Element) : Assembly :=
  { a with done := e :: a.done }

def openBody (a : Assembly) (o : Opener) : Assembly :=
  { a with done := [], frames := ⟨o, a.done, [], false⟩ :: a.frames }

/-- The branches of a block, the last first, as one element: each is the inverse of the one before. -/
def nested (inverse : List Element) : List Branch → List Element
  | [] => inverse
  | ⟨l, ownLine, body⟩ :: earlier => nested [.block l ownLine body inverse] earlier

/-- Ends a branch of the innermost block; `next` is the line of the branch that follows, if it has a
condition, and `ownLine` tells about the tag between them.  The branch for all other cases begins with an
empty text, which tells it apart from none. -/
def turn (a : Assembly) (next : Option Line) (ownLine : Bool) : Option Assembly :=
  match a.frames with
  | ⟨.block l own, outer, branches, false⟩ :: rest =>
    let frame : Frame :=
      ⟨.block (next.getD l) ownLine, outer, ⟨l, own, a.done.reverse⟩ :: branches, next.isNone⟩
    some { a with done := if next.isNone then [.text []] else [], frames := frame :: rest }
  | _ => none

/-- The first line of a block of which `l` is the current one. -/
def firstLine (l : Line) (branches : List Branch) : Line :=
  (branches.getLast?.map Branch.line).getD l

/-- Closes the innermost body. -/
def closeBody (a : Assembly) (spelling : Option Text) : Option Assembly :=
  match a.frames with
  | [] => none
  | ⟨opener, outer, branches, last⟩ :: rest =>
    let body := a.done.reverse
    let closed (expected : Option Text) (elements : List Element) : Option Assembly :=
      if expected = spelling then
        some { a with done := elements.reverse ++ outer, frames := rest }
      else none
    match opener with
    | .block l ownLine =>
      let elements :=
        if last then nested body branches else nested [] (⟨l, ownLine, body⟩ :: branches)
      closed (some (firstLine l branches).name) elements
    | .wrap expected name arguments ownLine => closed expected [.wrap name arguments ownLine body]
    | .declare l => closed (some l.name) [.declare l body]

/-- Takes note of the source around a tag. -/
def settle (a : Assembly) (t : Tag) (m : Margins) : Assembly :=
  match t with
  | .comment =>
    let kept := if m.alone then a.trimLast isIndent else a
    { kept with endsLine := m.alone }
  | .value _ _ | .call _ _ => { trimmed with trims := m.trimAfter }
  | _ =>
    let kept := if m.alone then trimmed.trimLast isIndent else trimmed
    { kept with trims := m.trimAfter, endsLine := m.alone }
where
  trimmed : Assembly := if m.trimBefore then a.trimLast Text.isBlank else a

def addTag (a : Assembly) (t : Tag) (m : Margins) : Option Assembly :=
  let a := a.settle t m
  match t with
  | .value s escaped => some (a.add (.value s escaped))
  | .call l escaped => some (a.add (.call l escaped))
  | .comment => some (a.add (.text []))
  | .opening l => some (a.openBody (.block l m.ownLine))
  | .chain l => a.turn (some l) m.ownLine
  | .otherwise => a.turn none m.ownLine
  | .closing spelling => a.closeBody spelling
  | .insert name arguments =>
    some (a.add (.insert name arguments m.ownLine (if m.trimBefore then [] else m.indent)))
  | .openingInsert spelling name arguments =>
    some (a.openBody (.wrap spelling name arguments m.ownLine))
  | .directive l => some (a.add (.directive l))
  | .openingDirective l => some (a.openBody (.declare l))

def addPiece (a : Assembly) : Piece → Option Assembly
  | .text s => some (a.addText s)
  | .tag t m => a.addTag t m

end Assembly

namespace Page

/-- The page of a runtime source, `none` if it is malformed. -/
def read? (isRoot : Bool) (source : Text) : Option Page := do
  let ps ← pieces isRoot (source.length + 1) [] source
  let a ← ps.foldlM Assembly.addPiece ⟨[], [], false, false⟩
  if a.frames.isEmpty then some a.done.reverse else none

end Page

end Stencil.Render
