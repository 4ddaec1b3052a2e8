import Stencil.Table
import Stencil.Text.Blank
/-!
Expansion of compact identifiers.  Every spelling of one resource (`ex:footer`, `<http://…>`, the full
identifier) expands to the same text, so that they share one entry wherever identifiers are keys.
-/

namespace Stencil

/-- Namespaces by prefix, and the one for identifiers that begin with a colon. -/
structure Namespaces where
  prefixes : Table Text
  fallback : Option Text
  deriving DecidableEq, Repr

namespace Namespaces

/-- The content of a text in angle brackets. -/
def inBrackets? : Text → Option Text
  | '<' :: r => if r.getLast? = some '>' then some r.dropLast else none
  | _ => none

/-- The full identifier.  What cannot be expanded is only trimmed. -/
def expand (ns : Namespaces) (identifier : Text) : Text :=
  let trimmed := Text.trim identifier
  match inBrackets? trimmed with
  | some inner => inner
  | none =>
    if (Text.cut "://".toList trimmed).isSome then trimmed
    else
      match Text.splitOnce ':' trimmed with
      | none => trimmed
      | some ([], name) => (ns.fallback.map (· ++ name)).getD trimmed
      | some (head, name) => ((Table.find? head ns.prefixes).map (· ++ name)).getD trimmed

end Namespaces

/-- How remote references are expanded, each by itself. -/
structure Expander where
  expand : Text → Text

namespace Expander

/-- Leaves references as they are. -/
def identity : Expander :=
  ⟨id⟩

/-- Expands compact identifiers. -/
def namespaces (ns : Namespaces) : Expander :=
  ⟨ns.expand⟩

end Expander

end Stencil
