import Stencil.Identifier
import Stencil.Syntax.Parser
import Stencil.Template.Lowering
import Stencil.Text.Quoted
/-!
A parsed template: its source, its tree, the keys of the templates it depends on, and its runtime form.
-/

namespace Stencil

/-- A template.  `references` are distinct: first the local names, then the expanded remote ones, each
group in the order of the source. -/
structure Template where
  source : Text
  nodes : List Node
  references : List Text
  runtimeSource : Text

namespace Template

/-- The key under which a collected name is registered. -/
def key (e : Expander) (name : Text) : Text :=
  if Reference.isRemote name then e.expand name else name

/-- The keys of the templates that a tree depends on. -/
def dependencyKeys (e : Expander) (nodes : List Node) : List Text :=
  (Node.localNames nodes ++ (Node.remoteNames nodes).map e.expand).eraseDups

/-- The template with a given source. -/
def parse (e : Expander) (source : Text) : Except SyntaxError Template := do
  let nodes ← Stencil.parse source
  return {
    source
    nodes
    references := dependencyKeys e nodes
    runtimeSource := lower (key e) source nodes }

/-- The template as diagnostics show it. -/
def shown (t : Template) : Text :=
  Text.shownRecord "ParsedTemplate".toList
    [("source_len".toList, Text.ofNat (Text.size t.source)),
      ("references".toList, Text.shownList t.references)]

end Template

end Stencil
