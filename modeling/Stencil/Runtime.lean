import Stencil.Helper
/-!
The runtime that renders what is registered with it.
-/

namespace Stencil

/-- A runtime: how it reads the names in a source, and how it renders. -/
structure Runtime where
  /-- The names by which a source inserts others, `none` if it computes one of them. -/
  callees? : Callable → Option (List Text)
  /-- The text of the source that is registered under a name, over data. -/
  render : Table Helper → Registry → Text → Json → Except Text Text

end Stencil
