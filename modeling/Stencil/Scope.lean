import Stencil.Alias
import Stencil.Runtime
import Stencil.Scope.Draft
/-!
Scopes: partials and helpers that are fixed, a registry of runtime sources, and the templates compiled
so far by source.

Building a scope registers its partials.  Compiling registers what the source depends on and is not a
partial of the scope, then the source itself; if the runtime rejects one of them the others stay.
-/

namespace Stencil

namespace Registry

/-- Registers a source under a name, unless the runtime objects; `shown` is what the error calls it. -/
def add (objection : Objection) (g : Registry) (name : Text) (c : Callable) (shown : Text) :
    Except TemplateError Registry :=
  match objection c.source with
  | some reason => .error (.compile shown reason)
  | none => .ok (g.insert name c)

/-- Registers the template that a reference stands for. -/
def addPartial (objection : Objection) (g : Registry) (reference : Text) (t : Template) :
    Except TemplateError Registry :=
  g.add objection (Alias.ofReference reference) ⟨t.runtimeSource, false⟩ reference

/-- Registers templates by reference, in order; with the registry that is left, the failure that ended
it, if one did. -/
def addAll (objection : Objection) (g : Registry) :
    Table Template → Registry × Except TemplateError Unit
  | [] => (g, .ok ())
  | (reference, t) :: rest =>
    match g.addPartial objection reference t with
    | .error e => (g, .error e)
    | .ok g => g.addAll objection rest

end Registry

/-- A compiled template, told apart from all others of its scope by a number. -/
structure Compiled where
  name : Text
  number : Nat
  deriving DecidableEq, Repr

/-- A compiled template as diagnostics show it; the empty one has no name. -/
def Compiled.shown (c : Option Compiled) : Text :=
  Text.shownRecord "CompiledTemplate".toList
    [("name".toList, Text.shownOption (c.map Compiled.name))]

structure Scope where
  partials : Table Instance
  helpers : Table Helper
  owner : Option Owner
  registry : Registry
  compiled : Table Compiled
  /-- How many templates have been compiled. -/
  made : Nat

namespace Scope

/-- The scope of a draft. -/
def ofDraft (objection : Objection) (d : Draft) : Except TemplateError Scope :=
  match Registry.addAll objection [] (d.partials.map fun p => (p.1, p.2.template)) with
  | (_, .error e) => .error e
  | (g, .ok ()) => .ok ⟨d.partials, d.helpers, d.owner, g, [], 0⟩

/-- A draft that begins with what the scope was built from. -/
def draft (s : Scope) : Draft :=
  ⟨s.partials, s.helpers, s.owner⟩

/-- Drops the compiled templates. -/
def clear (s : Scope) : Scope :=
  { s with compiled := [] }

/-- The sources of the partials, enough to make the scope again. -/
def sources (s : Scope) : Table Text :=
  s.partials.map fun p => (p.1, p.2.template.source)

/-- The dependencies that compiling registers. -/
def foreign (s : Scope) (deps : Table Instance) : Table Template :=
  (deps.filter fun d => !s.partials.contains d.1).map fun d => (d.1, d.2.template)

/-- Registers a root template and what it depends on. -/
def install (objection : Objection) (s : Scope) (root : Template) (deps : Table Instance) :
    Except TemplateError Compiled × Scope :=
  match s.registry.addAll objection (s.foreign deps) with
  | (g, .error e) => (.error e, { s with registry := g })
  | (g, .ok ()) =>
    let name := Alias.ofRoot root.source
    match g.add objection name ⟨root.runtimeSource, true⟩ name with
    | .error e => (.error e, { s with registry := g })
    | .ok g =>
      let c : Compiled := ⟨name, s.made⟩
      (.ok c, { s with
        registry := g
        compiled := s.compiled.insert root.source c
        made := s.made + 1 })

/-- The helpers that the runtime has for a scope: the one that writes raw blocks, and those of the scope. -/
def runtimeHelpers (s : Scope) : Table Helper :=
  Table.merge [(Lowering.literalHelper, Helper.literal)] s.helpers

/-- The text of a compiled template over data; that of the empty template is empty. -/
def render (rt : Runtime) (s : Scope) (c : Option Compiled) (data : Json) : Except TemplateError Text :=
  match c with
  | none => .ok []
  | some c => (rt.render s.runtimeHelpers s.registry c.name data).mapError .render

/-- The scope as diagnostics show it. -/
def shown (s : Scope) : Text :=
  Text.shownRecord "TemplateScope".toList
    [("partials".toList, Text.shownList s.partials.keys),
      ("helpers".toList, Helper.shownTable s.helpers),
      ("trace".toList, Owner.shown s.owner),
      ("compiled".toList, Text.ofNat s.compiled.length)]

end Scope

end Stencil
