import Stencil.Json.Reader
/-!
The terms of a tag: literals, paths into the data, and calls of helpers, with their readers.

A reader takes what it reads from the head of a text and gives the rest.  White space may stand before
each part of a term, but not inside a path.  Of several ways to read a text the first counts: a term is
a literal if it can be, then a path, then a call in parentheses.
-/

namespace Stencil.Render

/-- Where a value is found. -/
inductive Route
  /-- A variable of a block, such as the index of an iteration; `level` blocks out. -/
  | variable (level : Nat) (name : Text)
  /-- What the names lead to, from the whole data or from the value of the block `level` blocks out. -/
  | value (fromRoot : Bool) (level : Nat) (names : List Text)
  deriving DecidableEq, Repr

inductive Term
  | literal (value : Json)
  /-- A route, with its spelling. -/
  | path (spelling : Text) (route : Route)
  | call (name : Text) (params : List Term) (options : List (Text × Term))
  deriving Inhabited

/-- The spelling of a path. -/
def Term.spelling? : Term → Option Text
  | path spelling _ => some spelling
  | _ => none

abbrev Reader (α : Type) := Text → Option (α × Text)

/-! ## Words -/

/-- Letters, digits and the like, of which names are made. -/
def isWordChar (c : Char) : Bool :=
  c.isAlphanum || "_-$:".toList.contains c || 0x80 ≤ c.toNat

/-- A name made of the characters in `p`. -/
def nameOf (p : Char → Bool) : Reader Text := fun s =>
  let r := Text.run p s
  if r.1.isEmpty then none else some r

def word : Reader Text :=
  nameOf isWordChar

/-- Whether a word ends before the text. -/
def endsWord (s : Text) : Bool :=
  !(s.head?.any isWordChar)

/-- What follows `w` in a text that begins with the whole word `w`. -/
def afterWord? (w s : Text) : Option Text :=
  (Text.after? w s).filter endsWord

/-- What follows the mark `m`, white space before it left out. -/
def afterMark? (m : Char) (s : Text) : Option Text :=
  Text.after? [m] (Json.skip s)

/-! ## Literals -/

/-- What follows the characters of a string and its closing mark `q`. -/
def pastString (q : Char) : Text → Option Text
  | '\\' :: 'u' :: a :: b :: c :: d :: r =>
    if [a, b, c, d].all fun x => (Text.Hex.value? x).isSome then pastString q r else none
  | '\\' :: c :: r =>
    if c = q || "\\/bfnrt".toList.contains c then pastString q r else none
  | c :: r => if c = q then some r else if c = '\\' then none else pastString q r
  | [] => none

/-- What follows a decimal number. -/
def pastNumber (s : Text) : Option Text :=
  let digits (s : Text) : Text × Text := Text.run Char.isDigit s
  let p := digits ((Text.after? ['-'] s).getD s)
  if p.1.isEmpty then none
  else
    let afterPoint := (digits ((Text.after? ['.'] p.2).getD p.2)).2
    let scaled := do
      let e ← Text.after? ['E'] afterPoint
      let q := digits ((Text.after? ['-'] e).getD e)
      if q.1.isEmpty then none else some q.2
    some (scaled.getD afterPoint)

mutual

/-- What follows a literal. -/
def pastLiteral : Nat → Text → Option Text
  | 0, _ => none
  | fuel + 1, s =>
    match s with
    | '"' :: r => pastString '"' r
    | '\'' :: r => pastString '\'' r
    | '[' :: r => pastItems fuel ((pastLiteral fuel (Json.skip r)).getD r)
    | '{' :: r => pastFields fuel ((pastField fuel (Json.skip r)).getD r)
    | s =>
      ((pastNumber s).filter endsWord).or <| (afterWord? "null".toList s).or <|
        (afterWord? "true".toList s).or (afterWord? "false".toList s)

/-- What follows the items after the first and the closing bracket. -/
def pastItems : Nat → Text → Option Text
  | 0, _ => none
  | fuel + 1, s =>
    match afterMark? ',' s with
    | some r => (pastLiteral fuel (Json.skip r)).bind (pastItems fuel)
    | none => afterMark? ']' s

def pastField : Nat → Text → Option Text
  | 0, _ => none
  | fuel + 1, s => do
    let q ← s.head?.filter fun c => c = '"' || c = '\''
    let r ← pastString q (s.drop 1)
    let r ← afterMark? ':' r
    pastLiteral fuel (Json.skip r)

/-- What follows the fields after the first and the closing brace. -/
def pastFields : Nat → Text → Option Text
  | 0, _ => none
  | fuel + 1, s =>
    match afterMark? ',' s with
    | some r => (pastField fuel (Json.skip r)).bind (pastFields fuel)
    | none => afterMark? '}' s

end

/-- The characters of a string and its closing quote, with double quotes for single ones. -/
def requoted : Text → Text
  | [] => []
  | ['\''] => ['"']
  | '\\' :: '\'' :: r => '\'' :: requoted r
  | '"' :: r => '\\' :: '"' :: requoted r
  | c :: r => c :: requoted r

/-- The value that a literal writes. -/
def literalValue (s : Text) : Option Json :=
  (Json.parse (if s.head? = some '\'' then '"' :: requoted (s.drop 1) else s)).toOption

/-! ## Paths -/

/-- What follows a mark between the names of a path. -/
def afterSeparator? : Text → Option Text
  | '/' :: r | '.' :: r => some r
  | _ => none

/-- One name of a path; in brackets it may have any characters. -/
def pathName : Reader Text
  | '[' :: r => Text.cut [']'] r
  | s => word s

/-- The names of a path after the first. -/
def pathNames : Nat → Text → List Text × Text
  | 0, s => ([], s)
  | fuel + 1, s =>
    match (afterSeparator? s).bind pathName with
    | some (n, r) =>
      let p := pathNames fuel r
      (n :: p.1, p.2)
    | none => ([], s)

/-- What follows the marks of the value in focus, with which a path may begin. -/
def pastFocus : Nat → Text → Text
  | 0, s => s
  | fuel + 1, s =>
    match ((Text.after? "this".toList s).bind afterSeparator?).or (Text.after? "./".toList s) with
    | some r => pastFocus fuel r
    | none => s

/-- How often the path goes to the enclosing block. -/
def pathLevel : Nat → Text → Nat × Text
  | 0, s => (0, s)
  | fuel + 1, s =>
    match (Text.after? "..".toList s).bind afterSeparator? with
    | some r =>
      let p := pathLevel fuel r
      (p.1 + 1, p.2)
    | none => (0, s)

/-- The route of a path, from its marks and names. -/
def routeOf (fromRoot isVariable : Bool) (level : Nat) (names : List Text) : Route :=
  let names := names.filter fun n => n ≠ "this".toList
  if fromRoot then .value true 0 names
  else if isVariable then
    match names with
    | n :: _ => .variable level n
    | [] => .value false 0 []
  else .value false level names

/-- A path: marks of where it begins, then names. -/
def path : Reader Term := fun s => do
  let body := pastFocus s.length s
  let afterRoot := (Text.after? "@root".toList body).bind afterSeparator?
  let body := afterRoot.getD body
  let afterAt := Text.after? ['@'] body
  let body := afterAt.getD body
  let (level, body) := pathLevel body.length body
  let (name, body) ← pathName body
  let (names, rest) := pathNames body.length body
  let spelling := s.take (s.length - rest.length)
  return (.path spelling (routeOf afterRoot.isSome afterAt.isSome level (name :: names)), rest)

/-! ## Terms -/

/-- Parameters and named options, as they follow the name of a helper. -/
structure Arguments where
  params : List Term
  options : List (Text × Term)

namespace Arguments

def isEmpty (a : Arguments) : Bool :=
  a.params.isEmpty && a.options.isEmpty

end Arguments

/-- Whether a text begins with a word that has a meaning of its own in a tag, before anything but a further
word. -/
def isReserved (s : Text) : Bool :=
  ["as", "else"].any fun w => (Text.after? w.toList s).any fun r => endsWord (Json.skip r)

mutual

/-- A term, which no reserved word is. -/
def term : Nat → Reader Term
  | 0, _ => none
  | fuel + 1, s =>
    if isReserved s then none
    else
      match pastLiteral s.length s with
      | some r => (literalValue (s.take (s.length - r.length))).map fun v => (.literal v, r)
      | none => (path s).or (callTerm fuel s)

/-- A call in parentheses.  One without arguments may be spelled as a path. -/
def callTerm : Nat → Reader Term
  | 0, _ => none
  | fuel + 1, s => do
    let s ← Text.after? ['('] s
    let s := Json.skip s
    let withArguments := do
      let (name, r) ← word s
      let (a, r) := arguments fuel r
      if a.isEmpty then none else some (Term.call name a.params a.options, r)
    let alone := (path s).bind fun p =>
      match p with
      | (.path spelling _, r) => some (.call spelling [] [], r)
      | _ => none
    let (t, r) ← withArguments.or alone
    let r ← afterMark? ')' r
    return (t, r)

/-- All parameters and options at the head of a text. -/
def arguments : Nat → Text → Arguments × Text
  | 0, s => (⟨[], []⟩, s)
  | fuel + 1, s =>
    let here := Json.skip s
    let option := do
      let (name, r) ← word here
      let r ← afterMark? '=' r
      let (t, r) ← term fuel (Json.skip r)
      return ((name, t), r)
    match option with
    | some (o, r) =>
      let p := arguments fuel r
      (⟨p.1.params, o :: p.1.options⟩, p.2)
    | none =>
      match term fuel here with
      | some (t, r) =>
        let p := arguments fuel r
        (⟨t :: p.1.params, p.1.options⟩, p.2)
      | none => (⟨[], []⟩, s)

end

end Stencil.Render
