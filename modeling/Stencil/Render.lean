import Stencil.Render.Run
import Stencil.Runtime
/-!
The runtime of the program.  It reads a source into a page when it is registered, and runs the page over
data.
-/

namespace Stencil.Render

/-- The runtime objects to a source that it cannot read. -/
def objection : Objection := fun source =>
  match Page.read? false source with
  | some _ => none
  | none => some "the source is malformed".toList

/-- The pages of a registry. -/
def pages (g : Registry) : Table Page :=
  g.filterMap fun p => (Page.read? p.2.isRoot p.2.source).map fun page => (p.1, page)

/-- The name that a term spells over all data, `none` if it is computed. -/
def Term.fixedName? : Term → Option Text
  | .literal v => some (Value.text v)
  | .path spelling _ => some spelling
  | .call _ _ _ => none

mutual

/-- The terms for the names of the pages that an element inserts, those of its bodies among them. -/
def Element.callees : Element → List Term
  | .block _ _ body inverse => Page.callees body ++ Page.callees inverse
  | .insert name _ _ _ => [name]
  | .wrap name _ _ body => name :: Page.callees body
  | .declare _ body => Page.callees body
  | .text _ => []
  | .value _ _ => []
  | .call _ _ => []
  | .directive _ => []

def Page.callees : List Element → List Term
  | [] => []
  | x :: rest => x.callees ++ Page.callees rest

end

/-- The runtime that runs pages to a depth.  A source that it cannot read has no page, and inserts
nothing. -/
def runtime (limit : Limit) : Runtime where
  callees? c := (Page.callees ((Page.read? c.isRoot c.source).getD [])).mapM Term.fixedName?
  render helpers g name data := run limit (helpers.map fun p => (p.1, p.2 g)) (pages g) name data

end Stencil.Render
