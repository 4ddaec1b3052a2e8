import Stencil.Markup.Reader
/-!
Escapers: the escaping of markup with a chosen name for the elements that hold local templates.
-/

namespace Stencil

/-- `tag` is in small letters. -/
structure Escaper where
  tag : Text
  deriving DecidableEq, Repr

namespace Escaper

/-- The escaper for elements of the given name, in any case of ASCII letters. -/
def named (name : Text) : Escaper :=
  ⟨Text.lowerAscii name⟩

def default : Escaper :=
  named Markup.defaultTag

def escape (e : Escaper) (markup : Text) : Except Disallowed Text :=
  Markup.escape e.tag markup

end Escaper

end Stencil
