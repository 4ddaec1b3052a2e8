import Stencil.Fetches
import Stencil.Helper
/-!
Drafts of scopes: partials, helpers and an owner, collected before the scope is built.

A partial is registered once, under its name or, if that is remote, under the full identifier.
-/

namespace Stencil

/-- The component that a scope belongs to, for diagnostics. -/
structure Owner where
  tag : Option Text
  id : Option Text
  template : Option Text
  deriving DecidableEq, Repr

namespace Owner

def text (o : Owner) : Text :=
  '<' :: o.tag.getD "unknown".toList ++
    ((o.id.map fun i => " id=\"".toList ++ i ++ ['"']).getD []) ++ ['>'] ++
    ((o.template.map fun t => " in template ".toList ++ quoted t).getD [])

/-- The owner as diagnostics show it. -/
def shown (o : Option Owner) : Text :=
  match o with
  | none => "None".toList
  | some o =>
    "Some(".toList ++ Text.shownRecord "ScopeTrace".toList
      [("component_tag".toList, Text.shownOption o.tag),
        ("component_id".toList, Text.shownOption o.id),
        ("template_id".toList, Text.shownOption o.template)] ++ [')']

end Owner

/-- A partial as it is given: markup that is still to be parsed, or a template. -/
inductive Partial
  | markup (source : Text)
  | parsed (template : Template)

namespace Partial

def template (e : Expander) : Partial → Except TemplateError Template
  | markup source => (Template.parse e source).mapError (TemplateError.ofSyntax source)
  | parsed t => .ok t

end Partial

structure Draft where
  partials : Table Instance
  helpers : Table Helper
  owner : Option Owner

namespace Draft

def empty : Draft := ⟨[], [], none⟩

/-- Registers a partial. -/
def register (e : Expander) (d : Draft) (name : Text) (p : Partial) :
    Except TemplateError Draft :=
  let key := Template.key e name
  if d.partials.contains key then .error (.duplicatePartial name)
  else (p.template e).map fun t => { d with partials := d.partials.insert key ⟨.given, t⟩ }

/-- Registers partials in order, up to the first failure. -/
def registerAll (e : Expander) (d : Draft) : List (Text × Partial) → Except TemplateError Draft
  | [] => .ok d
  | (name, p) :: rest =>
    match d.register e name p with
    | .error err => .error err
    | .ok d => d.registerAll e rest

/-- Adds helpers; of two with one name the new one stays. -/
def withHelpers (d : Draft) (helpers : Table Helper) : Draft :=
  { d with helpers := d.helpers.merge helpers }

def withOwner (d : Draft) (o : Owner) : Draft :=
  { d with owner := some o }

/-- The draft as diagnostics show it. -/
def shown (d : Draft) : Text :=
  Text.shownRecord "TemplateScopeBuilder".toList
    [("partials".toList, Text.shownList d.partials.keys),
      ("helpers".toList, Helper.shownTable d.helpers),
      ("trace".toList, Owner.shown d.owner)]

end Draft

end Stencil
