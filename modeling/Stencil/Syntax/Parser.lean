import Stencil.Syntax.Node
import Stencil.Syntax.Token
/-!
From tokens to the syntax tree.  The state of the parser is the forest read so far and the blocks that
are open; `step` takes one token, `finish` demands that every block has been closed.
-/

namespace Stencil

/-! ## Names of partials -/

namespace PartialName

/-- The text up to the parenthesis that closes the ones that are open, and the rest. -/
def balanced : Nat → Text → Option (Text × Text)
  | _, [] => none
  | depth, '(' :: r => (balanced (depth + 1) r).map fun p => ('(' :: p.1, p.2)
  | depth, ')' :: r =>
    if depth ≤ 1 then some ([')'], r)
    else (balanced (depth - 1) r).map fun p => (')' :: p.1, p.2)
  | depth, c :: r => (balanced depth r).map fun p => (c :: p.1, p.2)

/-- The name token of an invocation with the content `s`, and the text after it. -/
def splitToken (s : Text) : Except SyntaxFault (Text × Text) :=
  let enclosed (first last : Char) (r : Text) : Except SyntaxFault (Text × Text) :=
    match Text.splitOnce last r with
    | none => .error .unterminatedName
    | some (inner, rest) => .ok (first :: inner ++ [last], rest)
  match s with
  | '"' :: r => enclosed '"' '"' r
  | '\'' :: r => enclosed '\'' '\'' r
  | '[' :: r => enclosed '[' ']' r
  | s => .ok (Text.run (fun c => !Text.isAsciiBlank c) s)

/-- The name and the parameters in the content of an invocation. -/
def read (inner : Slice) : Except SyntaxFault (PartialName × Text) :=
  match inner.text with
  | [] => .error .invocationWithoutName
  | '(' :: _ =>
    match balanced 0 inner.text with
    | none => .error .unbalancedName
    | some (expression, rest) => .ok (.computed ⟨inner.start, expression⟩, Text.trim rest)
  | s =>
    match splitToken s with
    | .error fault => .error fault
    | .ok (token, rest) =>
      if (unquote token).isEmpty then .error .emptyName
      else .ok (.fixed ⟨inner.start, token⟩, Text.trim rest)

end PartialName

/-! ## Open blocks -/

/-- What opened a block. -/
inductive Opener
  | block (helper params : Text) (inverted : Bool)
  | invocation (name : PartialName) (params : Text)
  | decorator (name params : Text)
  deriving DecidableEq, Repr

namespace Opener

/-- The name that the closing tag has to repeat. -/
def closingName : Opener → Text
  | block helper _ _ => helper
  | invocation name _ => name.token.text
  | decorator name _ => name

/-- Whether a closing tag with the content `found` closes the block. -/
def closedBy (o : Opener) (found : Text) : Bool :=
  o.closingName = found || unquote o.closingName = unquote found ||
    match o with
    | invocation name _ => name.isComputed
    | _ => false

end Opener

/-- An open block: where its opening tag starts, and the nodes read so far. -/
structure Frame where
  opener : Opener
  openedAt : Nat
  body : List Node
  inverse : Option (List Node)

namespace Frame

/-- The frame with a node at the end of its current section. -/
def push (f : Frame) (n : Node) : Frame :=
  match f.inverse with
  | some nodes => { f with inverse := some (nodes ++ [n]) }
  | none => { f with body := f.body ++ [n] }

/-- The finished node, `close` being the content of the closing tag. -/
def toNode (f : Frame) (close : Slice) : Node :=
  match f.opener with
  | .block helper params inverted => .block helper params inverted f.body f.inverse
  | .invocation name params => .blockInvocation name params close (f.body ++ f.inverse.getD [])
  | .decorator name params => .decoratorBlock name params f.body

end Frame

/-! ## The parser -/

/-- The nodes outside all blocks, and the open blocks, innermost first. -/
structure Parser where
  root : List Node
  stack : List Frame

namespace Parser

def start : Parser :=
  ⟨[], []⟩

/-- Adds a node to the innermost open block. -/
def push (p : Parser) (n : Node) : Parser :=
  match p.stack with
  | [] => { p with root := p.root ++ [n] }
  | f :: outer => { p with stack := f.push n :: outer }

/-- Opens a block. -/
def enter (p : Parser) (opener : Opener) (openedAt : Nat) : Parser :=
  { p with stack := ⟨opener, openedAt, [], none⟩ :: p.stack }

/-- Turns to the inverse section of the innermost open block. -/
def otherwise (p : Parser) : Except SyntaxFault Parser :=
  match p.stack with
  | [] => .error .strayElse
  | f :: outer => .ok { p with stack := { f with inverse := some (f.inverse.getD []) } :: outer }

/-- Closes the innermost open block. -/
def close (p : Parser) (inner : Slice) : Except SyntaxFault Parser :=
  match p.stack with
  | [] => .error (.strayClose inner.text)
  | f :: outer =>
    if f.opener.closedBy inner.text then .ok (push { p with stack := outer } (f.toNode inner))
    else .error (.mismatchedClose f.opener.closingName inner.text)

/-- The text of a comment without the dashes at its end. -/
def commentText (s : Text) : Text :=
  let dashes := s.length - (Text.trimEndBy (· = '-') s).length
  s.take (s.length - 2 * (dashes / 2))

/-- Takes a tag. -/
def stepTag (p : Parser) (t : Tag) : Except SyntaxFault Parser :=
  let inner := t.inner.text
  match t.kind with
  | .comment => .ok (p.push (.comment (commentText inner)))
  | .expression => .ok (p.push (.expression inner true))
  | .unescaped => .ok (p.push (.expression inner false))
  | .decorator => .ok (p.push (.decorator inner))
  | .invocation => do
    let (name, params) ← PartialName.read t.inner
    return p.push (.invocation name params)
  | .openBlock => openBlock false
  | .openInverse => openBlock true
  | .openInvocation => do
    let (name, params) ← PartialName.read t.inner
    return p.enter (.invocation name params) t.whole.start
  | .openDecorator =>
    let (name, params) := Text.splitHead inner
    .ok (p.enter (.decorator name params) t.whole.start)
  | .otherwise => p.otherwise
  | .close => p.close t.inner
where
  openBlock (inverted : Bool) : Except SyntaxFault Parser :=
    let (helper, params) := Text.splitHead t.inner.text
    if helper.isEmpty then .error .blockWithoutHelper
    else .ok (p.enter (.block helper params inverted) t.whole.start)

/-- Takes a token. -/
def step (p : Parser) (t : Token) : Except SyntaxError Parser :=
  match t with
  | .text piece => .ok (p.push (.text piece.text))
  | .raw start block => .ok (p.push (.raw block.helper block.content ⟨start, block.written⟩))
  | .tag tag =>
    match p.stepTag tag with
    | .ok p' => .ok p'
    | .error fault => .error ⟨fault, tag.whole.start⟩

/-- Takes the tokens of a source, one after the other. -/
def run (p : Parser) : List Token → Except SyntaxError Parser
  | [] => .ok p
  | t :: rest =>
    match p.step t with
    | .ok p' => p'.run rest
    | .error e => .error e

/-- The tree, once no block is open. -/
def finish (p : Parser) : Except SyntaxError (List Node) :=
  match p.stack with
  | [] => .ok p.root
  | f :: _ => .error ⟨.unclosed f.opener.closingName, f.openedAt⟩

end Parser

/-- The syntax tree of a template source. -/
def parse (source : Text) : Except SyntaxError (List Node) := do
  let ts ← tokens source
  let p ← Parser.start.run ts
  p.finish

end Stencil
