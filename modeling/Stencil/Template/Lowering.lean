import Stencil.Alias
import Stencil.Reference
import Stencil.Syntax.RawBlock
/-!
Lowering: a template source in the form that the runtime reads.  Names of partials become registry names,
a lone dot in a computed name becomes `this`, and a raw block becomes a call that writes its content.

The changes are edits of slices of the source (`edits`), and `splice` carries them out; all between the
edited slices is copied.
-/

namespace Stencil

/-- A slice of a source and the text to put in its place. -/
structure Edit where
  slice : Slice
  replacement : Text
  deriving DecidableEq, Repr

namespace Edit

/-- The edit that changes nothing is no edit. -/
def needed (slice : Slice) (replacement : Text) : List Edit :=
  if slice.text = replacement then [] else [⟨slice, replacement⟩]

/-- The source with the edits carried out; `start` is the offset of its first character.  The edits are
in order and do not overlap. -/
def splice (start : Nat) (source : Text) : List Edit → Text
  | [] => source
  | e :: rest =>
    let p := Text.splitAtByte (e.slice.start - start) source
    let q := Text.splitAtByte (e.slice.stop - (start + Text.size p.1)) p.2
    p.1 ++ e.replacement ++ splice e.slice.stop q.2 rest

/-- The edits by increasing offset. -/
def sorted (edits : List Edit) : List Edit :=
  edits.mergeSort fun a b => a.slice.start ≤ b.slice.start

/-- The source with all edits carried out. -/
def applyAll (source : Text) (edits : List Edit) : Text :=
  splice 0 source (sorted edits)

end Edit

namespace Lowering

/-- Helper that writes the content of a raw block. -/
def literalHelper : Text := "__tscope_raw".toList

/-- A call of the helper with an argument in quotation marks. -/
def callOf (argument : Text) : Text :=
  open2 ++ literalHelper ++ " \"".toList ++ argument ++ '"' :: close2

/-- The call that stands for a raw block.  The content is in hexadecimal, free of quotation marks and
backslashes. -/
def literalCall (content : Text) : Text :=
  callOf (Text.Hex.encode (Text.utf8 content))

/-- Whether a dot may follow the character `prev` and stand alone. -/
def opensDot : Option Char → Bool
  | none => true
  | some c => c = '(' || Text.isBlank c

/-- Whether a dot may stand alone before the text `rest`. -/
def closesDot : Text → Bool
  | [] => true
  | c :: _ => c = ')' || Text.isBlank c

/-- An expression with each lone dot outside string literals spelled `this`; `quote` is the mark of the
literal that is open and `prev` the character before. -/
def spellContext (quote prev : Option Char) : Text → Text
  | [] => []
  | c :: r =>
    match quote with
    | some q => c :: spellContext (if c = q then none else some q) (some c) r
    | none =>
      if c = '"' || c = '\'' then c :: spellContext (some c) (some c) r
      else if c = '.' && opensDot prev && closesDot r then
        "this".toList ++ spellContext none (some c) r
      else c :: spellContext none (some c) r

/-- A computed name as the runtime reads it. -/
def runtimeExpression (expression : Text) : Text :=
  spellContext none none expression

/-- The edits of the name in a node, `key` giving the key under which a name is registered. -/
def nameEdits (declared : List Text) (key : Text → Text) (name : PartialName)
    (closing : List Slice) : List Edit :=
  match name with
  | .fixed token =>
    let n := unquote token.text
    if Node.isFree declared n then
      (token :: closing).flatMap fun s => Edit.needed s (Alias.ofReference (key n))
    else []
  | .computed expression => Edit.needed expression (runtimeExpression expression.text)

/-- The edits of a single node. -/
def nodeEdits (declared : List Text) (key : Text → Text) : Node → List Edit
  | .invocation name _ => nameEdits declared key name []
  | .blockInvocation name _ close _ => nameEdits declared key name [close]
  | .raw _ content whole => [⟨whole, literalCall content⟩]
  | _ => []

/-- The edits of a whole tree. -/
def edits (key : Text → Text) (nodes : List Node) : List Edit :=
  (Node.walk nodes).flatMap (nodeEdits (Node.declaredNames nodes) key)

end Lowering

/-- The runtime form of a source with the tree `nodes`. -/
def lower (key : Text → Text) (source : Text) (nodes : List Node) : Text :=
  Edit.applyAll source (Lowering.edits key nodes)

end Stencil
