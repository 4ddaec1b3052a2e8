import Stencil.Syntax.Node
/-!
The references of a template: the fixed names of the partials that it invokes.  A name with a colon is
remote and is fetched; any other is local and resolves against the partials of a scope.
-/

namespace Stencil

namespace Reference

/-- Whether a reference is fetched. -/
def isRemote (r : Text) : Bool :=
  r.contains ':'

/-- Whether a reference is answered by the runtime itself. -/
def isMeta (r : Text) : Bool :=
  r.head? = some '@'

end Reference

namespace Node

/-- The names that inline definitions declare, anywhere in the forest. -/
def declaredNames (nodes : List Node) : List Text :=
  (walk nodes).filterMap declared?

/-- The names of the partials that the nodes invoke, in source order. -/
def invokedNames (nodes : List Node) : List PartialName :=
  (walk nodes).filterMap invoked?

/-- Whether a name is bound outside the template: it is neither meta nor declared inline. -/
def isFree (declared : List Text) (name : Text) : Bool :=
  !Reference.isMeta name && !declared.contains name

/-- The names that denote dependencies, in source order. -/
def collected (nodes : List Node) : List Text :=
  ((invokedNames nodes).filterMap PartialName.fixed?).filter (isFree (declaredNames nodes))

/-- The local names among the collected ones, each once. -/
def localNames (nodes : List Node) : List Text :=
  ((collected nodes).filter fun r => !Reference.isRemote r).eraseDups

/-- The remote names among the collected ones, as written and as often as written. -/
def remoteNames (nodes : List Node) : List Text :=
  (collected nodes).filter Reference.isRemote

end Node

end Stencil
