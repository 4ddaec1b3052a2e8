import Stencil.Render.Value
/-!
Helpers that every page can use.  Some choose what becomes of their body, the others compute a value.
-/

namespace Stencil.Render

inductive Builtin
  /-- The body if the value counts as `wanted`, else the inverse. -/
  | condition (wanted : Bool)
  /-- The body for each item or field. -/
  | each
  /-- The body with a value in focus, if it counts as true. -/
  | focus
  /-- The body. -/
  | body
  | log
  | function (f : List Json → Except Text Json)

namespace Builtin

def missing : Text := "a parameter is missing".toList

/-- A function of one value. -/
def ofValue (f : Json → Json) : Builtin :=
  function fun params =>
    match params with
    | v :: _ => .ok (f v)
    | _ => .error missing

/-- A function of two values. -/
def ofValues (f : Json → Json → Json) : Builtin :=
  function fun params =>
    match params with
    | v :: w :: _ => .ok (f v w)
    | _ => .error missing

def ofTest (f : Json → Json → Bool) : Builtin :=
  ofValues fun v w => .bool (f v w)

def ofOrder (p : Ordering → Bool) : Builtin :=
  ofTest fun v w => (Value.order? v w).any p

/-- The helpers by name. -/
def all : List (String × Builtin) :=
  [("if", condition true), ("unless", condition false), ("each", each), ("with", focus),
    ("raw", body), ("log", log), ("lookup", ofValues fun v w => (Value.item? v w).getD .null),
    ("eq", ofTest Value.same), ("ne", ofTest fun v w => !Value.same v w),
    ("gt", ofOrder (· == .gt)), ("gte", ofOrder (· != .lt)),
    ("lt", ofOrder (· == .lt)), ("lte", ofOrder (· != .gt)),
    ("and", ofTest fun v w => Value.isTrue false v && Value.isTrue false w),
    ("or", ofTest fun v w => Value.isTrue false v || Value.isTrue false w),
    ("not", ofValue fun v => .bool (!Value.isTrue false v)),
    ("len", ofValue fun v => .nat (Value.size v))]

def find? (name : Text) : Option Builtin :=
  (all.find? fun p => p.1.toList = name).map Prod.snd

/-- The names of the levels of a log. -/
def levels : List String := ["error", "warn", "info", "debug", "trace"]

/-- What a helper wants of its parameters and options, apart from its body. -/
def check (b : Builtin) (params : List Json) (options : Table Json) : Except Text Unit :=
  match b with
  | condition _ | each | focus => if params.isEmpty then .error missing else .ok ()
  | log =>
    match (options.find? "level".toList).bind Json.text? with
    | some l =>
      if levels.any fun n => n.toList = Text.lowerAscii l then .ok ()
      else .error ("unknown level ".toList ++ l)
    | none => .ok ()
  | body | function _ => .ok ()

end Builtin

end Stencil.Render
