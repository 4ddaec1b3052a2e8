import Stencil.Syntax.Slice
/-!
What can be wrong with a template source, and how it is worded.
-/

namespace Stencil

/-- The ways in which a source can be malformed. -/
inductive SyntaxFault
  | rawBlock
  | unterminatedComment
  | unterminatedTriple
  | unterminatedTag
  | blockWithoutHelper
  | invocationWithoutName
  | unbalancedName
  | unterminatedName
  | emptyName
  | strayElse
  | strayClose (found : Text)
  | mismatchedClose (expected found : Text)
  | unclosed (name : Text)
  deriving DecidableEq, Repr

/-- A text between single quotation marks. -/
def quoted (t : Text) : Text :=
  '\'' :: t ++ ['\'']

namespace SyntaxFault

def message : SyntaxFault → Text
  | rawBlock => "unclosed or malformed raw block".toList
  | unterminatedComment => "unterminated comment".toList
  | unterminatedTriple => "unterminated triple-stash expression".toList
  | unterminatedTag => "unterminated mustache tag".toList
  | blockWithoutHelper => "block tag without a helper name".toList
  | invocationWithoutName => "partial tag without a name".toList
  | unbalancedName => "unbalanced parentheses in partial name".toList
  | unterminatedName => "unterminated partial name".toList
  | emptyName => "partial tag with an empty name".toList
  | strayElse => "'else' outside of a block".toList
  | strayClose found => "unexpected closing tag ".toList ++ quoted found
  | mismatchedClose expected found =>
    "expected closing tag for ".toList ++ quoted expected ++ " but found ".toList ++ quoted found
  | unclosed name => "unclosed block ".toList ++ quoted name

end SyntaxFault

/-- A fault and the byte offset of the tag or block that has it. -/
structure SyntaxError where
  fault : SyntaxFault
  offset : Nat
  deriving DecidableEq, Repr

end Stencil
