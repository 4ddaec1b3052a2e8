import Stencil.Json
import Stencil.Registry
import Stencil.Text.Case
import Stencil.Text.Quoted
import Stencil.Text.Utf8
/-!
Helpers: functions that templates call by name.  A helper is given what is registered with the runtime and
the particulars of the call, and answers with the text to write, or with the reason that the rendering
fails.
-/

namespace Stencil

/-- What a call hands to a helper. -/
structure Helper.Call where
  params : List Json
  /-- The parameters that are given by name. -/
  options : Table Json
  /-- What the page is rendered over. -/
  data : Json
  /-- The value in focus. -/
  focus : Json
  /-- The text of the body with a value in focus, if the call has a body. -/
  body : Option (Json → Except Text Text)
  /-- The text of what stands for the body otherwise. -/
  inverse : Option (Json → Except Text Text)

abbrev Helper := Registry → Helper.Call → Except Text Text

namespace Helper

/-- The helper does not look at what is registered. -/
def Blind (f : Helper) : Prop :=
  ∀ g g', f g = f g'

/-- The first parameter, if it is a string, else the empty text. -/
def subject (c : Call) : Text :=
  (c.params.head?.bind Json.text?).getD []

/-- A helper that changes its first parameter. -/
def ofText (f : Text → Text) : Helper :=
  fun _ c => .ok (f (subject c))

/-- Writes its first parameter in compact JSON. -/
def json : Helper :=
  fun _ c => .ok (c.params.head?.getD .null).compact

/-- Writes the content of a lowered raw block, which it is given in hexadecimal. -/
def literal : Helper :=
  fun _ c =>
    match Text.Hex.decode (subject c) with
    | some bytes => .ok (Text.Utf8.decode bytes)
    | none => .error "Invalid raw block literal".toList

/-- The helpers that every scope starts with. -/
def defaults : Table Helper :=
  Table.ofPairs [("json".toList, json), ("uppercase".toList, ofText Text.upper),
    ("lowercase".toList, ofText Text.lower)]

/-- A table of helpers as diagnostics show it. -/
def shownTable (helpers : Table Helper) : Text :=
  Text.shownList helpers.keys

end Helper

end Stencil
