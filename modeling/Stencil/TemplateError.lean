import Stencil.Markup.StartTag
import Stencil.Syntax.Fault
/-!
What can go wrong between a template's source and its rendered text.

An error found while a reference is followed is wrapped on its way out, so the whole names the path from
the root template to the failure: `trail` lists it outermost first and `leaf` is its end.
-/

namespace Stencil

inductive TemplateError
  | malformed (message : Text) (position : Position)
  | disallowed (value : Disallowed)
  | referenceNotFound (reference : Text) (suggestions : List Text)
  | duplicatePartial (name : Text)
  /-- The messages of the cause, outermost first. -/
  | fetch (identifier : Text) (cause : List Text)
  | load (reference : Text) (inner : TemplateError)
  | dependency (reference : Text) (inner : TemplateError)
  | compile (name message : Text)
  | render (message : Text)
  deriving DecidableEq, Repr

namespace TemplateError

/-- The error of a malformed source. -/
def ofSyntax (source : Text) (e : SyntaxError) : TemplateError :=
  malformed e.fault.message (Position.ofOffset source e.offset)

/-- The error without what it depends on. -/
def message : TemplateError → Text
  | malformed message position =>
    "Template syntax error at line ".toList ++ Text.ofNat position.line ++ ", column ".toList ++
      Text.ofNat position.column ++ ": ".toList ++ message
  | disallowed value =>
    "Partial block ".toList ++ quoted value.opener ++ " is not allowed inside attribute ".toList ++
      quoted value.name ++ " of <".toList ++ value.element ++ ['>']
  | referenceNotFound reference _ =>
    "Template reference ".toList ++ quoted reference ++ " not found".toList
  | duplicatePartial name =>
    "Template partial ".toList ++ quoted name ++ " already registered".toList
  | fetch identifier _ => "Failed to fetch template ".toList ++ quoted identifier
  | load reference _ => "Failed to load template reference ".toList ++ quoted reference
  | dependency reference _ =>
    "Error while resolving dependencies of template ".toList ++ quoted reference
  | compile name message =>
    "Failed to compile template ".toList ++ quoted name ++ ": ".toList ++ message
  | render message => "Failed to render template: ".toList ++ message

/-- The error at the end of the path. -/
def leaf : TemplateError → TemplateError
  | load _ inner => inner.leaf
  | dependency _ inner => inner.leaf
  | e => e

/-- All messages, outermost first. -/
def trail : TemplateError → List Text
  | load reference inner => (load reference inner).message :: inner.trail
  | dependency reference inner => (dependency reference inner).message :: inner.trail
  | fetch identifier cause => (fetch identifier cause).message :: cause
  | e => [e.message]

/-- The messages as a staircase, the line of each cause indented below its effect. -/
def staircase : Nat → List Text → Text
  | _, [] => []
  | depth, line :: rest =>
    let lead := if depth = 0 then [] else '\n' :: (List.replicate (2 * depth) ' ' ++ "└─ ".toList)
    lead ++ line ++ staircase (depth + 1) rest

/-- The names offered instead of one that was not found. -/
def hint : TemplateError → Text
  | referenceNotFound _ (s :: ss) =>
    "\n\nDid you mean: ".toList ++ Text.join ", ".toList (s :: ss) ++ ['?']
  | _ => []

/-- The error as shown to a user. -/
def formatted (e : TemplateError) : Text :=
  staircase 0 e.trail ++ e.leaf.hint

/-- What the user can do about an error of this kind. -/
def advice : TemplateError → Text
  | malformed _ _ => "Check the template syntax around the reported position".toList
  | disallowed _ =>
    "Move the partial block out of the attribute into a nested local template".toList
  | referenceNotFound _ _ =>
    "Register the partial in the scope or reference it by a prefixed identifier".toList
  | duplicatePartial _ => "Register each partial name only once per scope".toList
  | fetch _ _ => "Check that the content service is reachable and the identifier exists".toList
  | compile _ _ | render _ =>
    "Check the template against the runtime's syntax and the supplied data".toList
  | load _ inner => inner.advice
  | dependency _ inner => inner.advice

end TemplateError

end Stencil
