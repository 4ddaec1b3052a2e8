import Stencil.Table
/-!
What is registered with the runtime: sources that it can call by name.
-/

namespace Stencil

/-- The objection of the runtime to a source, if it has one. -/
abbrev Objection := Text → Option Text

/-- A source that the runtime can call by name. -/
structure Callable where
  source : Text
  /-- Whether it is a template of its own and not a partial. -/
  isRoot : Bool
  deriving DecidableEq, Repr

/-- The sources that the runtime can call. -/
abbrev Registry := Table Callable

end Stencil
