import Stencil.Text
/-!
Paths as texts: steps separated by slashes.  Only what `Files` looks up touches a file; here paths are
joined and taken apart as they are written.
-/

namespace Stencil.Path

def isAbsolute (p : Text) : Bool :=
  p.head? = some '/'

/-- The path `p` as seen from `base`. -/
def join (base p : Text) : Text :=
  if isAbsolute p then p
  else if base.isEmpty || base.getLast? = some '/' then base ++ p
  else base ++ '/' :: p

/-- Whether a step stays where it is. -/
def isIdle (step : Text) : Bool :=
  step.isEmpty || step = ['.']

/-- The start of a path that no step belongs to, and the rest. -/
def split : Text → Text × Text
  | '/' :: r => (['/'], r)
  | ['.'] => (['.'], [])
  | '.' :: '/' :: r => (['.'], '/' :: r)
  | p => ([], p)

/-- The steps of a text, without the idle ones at its end. -/
def stepsOf (t : Text) : List Text :=
  ((Text.splitAll '/' t).reverse.dropWhile isIdle).reverse

/-- The path without its last step; the root and the empty path have none. -/
def parent? (p : Text) : Option Text :=
  let (start, body) := split p
  match (stepsOf body).reverse with
  | [] => if start = ['.'] then some [] else none
  | _ :: before => some (start ++ Text.join ['/'] (before.dropWhile isIdle).reverse)

end Stencil.Path
