import Stencil.Syntax.Slice
/-!
The syntax tree of a template.  Expressions and parameters stay opaque text; the names of invoked
partials keep their place in the source, so that they can be replaced there.
-/

namespace Stencil

/-- The token without the quotation marks or brackets around it. -/
def unquote (token : Text) : Text :=
  match token with
  | [] => []
  | q :: r =>
    match r.getLast? with
    | none => token
    | some e =>
      if (q = '"' && e = '"') || (q = '\'' && e = '\'') || (q = '[' && e = ']') then r.dropLast
      else token

/-- The name of an invoked partial: a token of the source, or an expression in parentheses that is
evaluated when the template is rendered. -/
inductive PartialName
  | fixed (token : Slice)
  | computed (expression : Slice)
  deriving DecidableEq, Repr

namespace PartialName

/-- The name as the source spells it. -/
def token : PartialName → Slice
  | fixed t => t
  | computed e => e

/-- The name, if it is known without rendering. -/
def fixed? : PartialName → Option Text
  | fixed t => some (unquote t.text)
  | computed _ => none

def isComputed : PartialName → Bool
  | fixed _ => false
  | computed _ => true

end PartialName

/-- A node of the syntax tree.  `inverse` is all that follows the first `else` of a block. -/
inductive Node
  | text (content : Text)
  | comment (content : Text)
  | expression (content : Text) (escaped : Bool)
  | decorator (content : Text)
  | invocation (name : PartialName) (params : Text)
  | block (helper params : Text) (inverted : Bool) (body : List Node) (inverse : Option (List Node))
  | blockInvocation (name : PartialName) (params : Text) (close : Slice) (body : List Node)
  | decoratorBlock (decorator params : Text) (body : List Node)
  | raw (helper content : Text) (whole : Slice)
  deriving Repr

namespace Node

mutual

/-- The nodes below a node, in source order. -/
def descendants : Node → List Node
  | block _ _ _ body inverse => walk body ++ walkOption inverse
  | blockInvocation _ _ _ body => walk body
  | decoratorBlock _ _ body => walk body
  | text _ => []
  | comment _ => []
  | expression _ _ => []
  | decorator _ => []
  | invocation _ _ => []
  | raw _ _ _ => []

/-- All nodes of a forest, depth first and in source order. -/
def walk : List Node → List Node
  | [] => []
  | n :: rest => n :: (descendants n ++ walk rest)

/-- All nodes of a forest that may be absent. -/
def walkOption : Option (List Node) → List Node
  | none => []
  | some nodes => walk nodes

end

/-- The name of the partial that a node invokes. -/
def invoked? : Node → Option PartialName
  | invocation name _ => some name
  | blockInvocation name _ _ _ => some name
  | _ => none

/-- The name that an inline definition declares. -/
def declared? : Node → Option Text
  | decoratorBlock name params _ =>
    if name = "inline".toList then (Text.firstWord params).map unquote else none
  | _ => none

end Node

end Stencil
