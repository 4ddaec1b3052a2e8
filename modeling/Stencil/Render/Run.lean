import Stencil.Helper
import Stencil.Render.Builtin
import Stencil.Render.Page
/-!
Running a page over data.

A body is run by recursion on its elements; what a page inserts is run through a function it is given
(`Insertion`), so that only the depth of insertions needs a bound.  An inserted page has a block of its
own, inside those of its tag; a body around it is run first, and the page is given its text.

Partials are declared in the innermost block and end with it.  The lines of an inserted page are indented
like its tag, and where a line begins is known only from the text before it.  So the state of the run
(`Progress`) goes along with the text.
-/

namespace Stencil.Render

/-- A value in focus, with the variables and names that go with it. -/
structure Block where
  value : Json
  locals : Table Json
  names : Table Json

/-- What a page is run with. -/
structure Setting where
  /-- The helpers, which know what is registered. -/
  helpers : Table (Helper.Call → Except Text Text)
  pages : Table Page
  data : Json
  /-- The blocks around the place of the run, the innermost first. -/
  blocks : List Block
  /-- The partials declared in the blocks around the innermost one. -/
  outer : List (Table Page)
  /-- The text of the body around the inserted page. -/
  body : Option Text
  /-- What the lines of the page are indented by. -/
  indent : Text

/-- How far a run has come. -/
structure Progress where
  /-- The partials declared in the innermost block. -/
  declared : Table Page
  /-- The page that is run, until it has run a body. -/
  current : Option Text
  /-- Whether the part of the page that is run has put out any text. -/
  produced : Bool
  /-- Whether the text put out last ended a line. -/
  lineEnded : Bool
  /-- Whether the next text is to be indented. -/
  indentsNext : Bool

namespace Progress

/-- The start of the page of a name. -/
def start (name : Text) : Progress :=
  ⟨[], some name, false, false, false⟩

/-- Declares a partial. -/
def declare (p : Progress) (name : Text) (page : Page) : Progress :=
  { p with declared := p.declared.insert name page }

/-- Inside a body. -/
def inside (p : Progress) : Progress :=
  { p with current := none }

/-- Inside what stands for a body otherwise, if anything does. -/
def otherwise (p : Progress) (inverse : Page) : Progress :=
  if inverse.isEmpty then p else p.inside

end Progress

abbrev Outcome := Except Text (Text × Progress)

/-- Runs a page at a place where it is inserted. -/
abbrev Insertion := Setting → Progress → Page → Outcome

/-- What a helper comes to: text as it is, or a value that is still to be written. -/
inductive Answer
  | written (text : Text)
  | value (value : Json)

namespace Answer

def asValue : Answer → Json
  | written s => .string s
  | value v => v

end Answer

/-! ## Lines -/

/-- Text in which every line but the first is indented. -/
def indented (indent : Text) : Text → Text
  | [] => []
  | c :: r =>
    if c = '\n' && !r.isEmpty then c :: indent ++ indented indent r else c :: indented indent r

namespace Setting

/-- The value in focus. -/
def focus (e : Setting) : Json :=
  (e.blocks.head?.map Block.value).getD e.data

/-- Puts out text, indented as the place demands. -/
def put (e : Setting) (p : Progress) (s : Text) : Text × Progress :=
  if s.isEmpty then ([], p)
  else
    let lead := if p.indentsNext && !(s.head?.any isLineBreak) then e.indent else []
    let ended := s.getLast?.any isLineBreak
    (lead ++ indented e.indent s,
      { p with produced := true, lineEnded := ended, indentsNext := ended })

/-- Puts out a value. -/
def putValue (e : Setting) (p : Progress) (escapes : Bool) (v : Option Json) : Text × Progress :=
  let s := (v.map Value.text).getD []
  e.put p (if escapes then escaped s else s)

/-- Puts out the answer of a helper; text that it has written itself is not touched. -/
def putAnswer (e : Setting) (p : Progress) (escapes : Bool) : Answer → Text × Progress
  | .written s => (s, p)
  | .value v => e.putValue p escapes (some v)

/-- Inside a further block; `p` is how far the run has come before it. -/
def within (e : Setting) (p : Progress) (b : Block) : Setting :=
  { e with blocks := b :: e.blocks, outer := p.declared :: e.outer }

/-! ## Terms -/

/-- What a route leads to.  A block has the variables of those around it, and a name given by one of them
goes before the fields of the value in focus. -/
def follow (e : Setting) : Route → Except Text (Option Json)
  | .variable level name => .ok ((e.blocks.drop level).findSome? fun b => b.locals.find? name)
  | .value true _ names => Value.follow e.data names
  | .value false level names =>
    let named := names.head?.bind fun n => e.blocks.findSome? fun b => b.names.find? n
    match named with
    | some v => Value.follow v (names.drop 1)
    | none => Value.follow ((e.blocks[level]?.map Block.value).getD e.focus) names

/-- Whether there is a helper of a name. -/
def hasHelper (e : Setting) (name : Text) : Bool :=
  e.helpers.contains name || (Builtin.find? name).isSome

/-- The helper that stands in for a missing one, or for a missing value. -/
def standIn : Text := "helperMissing".toList

/-- The helper that stands in for a missing one with a body. -/
def blockStandIn : Text := "blockHelperMissing".toList

/-- What a body comes to with a value in focus. -/
abbrev Body := Json → Except Text Text

/-- The answer of a helper, to which its body is handed; `other` is the name of the one that stands in for
it. -/
def call (e : Setting) (other name : Text) (params : List Json) (options : Table Json)
    (body inverse : Option Body) : Except Text Answer :=
  let c : Helper.Call := ⟨params, options, e.data, e.focus, body, inverse⟩
  match e.helpers.find? name, Builtin.find? name with
  | some f, _ => (f c).map .written
  | none, some (.function f) => (f params).map .value
  | none, some b => (b.check params options).map fun _ => .written []
  | none, none =>
    match e.helpers.find? other with
    | some f => (f c).map .written
    | none => .error ("no helper ".toList ++ name)

mutual

def evaluate (e : Setting) : Term → Except Text (Option Json)
  | .literal v => .ok (some v)
  | .path _ route => e.follow route
  | .call name params options => do
    let params ← e.evaluateAll params
    let options ← e.evaluateFields options
    return some (← e.call standIn name params options none none).asValue

def evaluateAll (e : Setting) : List Term → Except Text (List Json)
  | [] => .ok []
  | t :: rest => do
    let v ← e.evaluate t
    return v.getD .null :: (← e.evaluateAll rest)

def evaluateFields (e : Setting) : List (Text × Term) → Except Text (Table Json)
  | [] => .ok []
  | (k, t) :: rest => do
    let v ← e.evaluate t
    let fields ← e.evaluateFields rest
    return if fields.contains k then fields else fields.insert k (v.getD .null)

end

/-- The values of arguments. -/
def argumentValues (e : Setting) (a : Arguments) : Except Text (List Json × Table Json) := do
  let params ← e.evaluateAll a.params
  return (params, ← e.evaluateFields a.options)

/-- The name that a term spells. -/
def spelledName (e : Setting) : Term → Except Text Text
  | .path spelling _ => .ok spelling
  | t => (e.evaluate t).map fun v => (v.map Value.text).getD []

/-- Runs a value tag; a helper goes before a field of its name. -/
def runSubject (e : Setting) (p : Progress) (subject : Term) (escapes : Bool) : Outcome := do
  let name ← e.spelledName subject
  if e.hasHelper name then return e.putAnswer p escapes (← e.call standIn name [] [] none none)
  else
    let value ← e.evaluate subject
    if value.isNone && e.helpers.contains standIn then
      return e.putAnswer p escapes (← e.call standIn name [] [] none none)
    else return e.putValue p escapes value

/-! ## Blocks -/

/-- The variables of the one at place `i` of `count` items or fields. -/
def variablesAt (count i : Nat) : Table Json :=
  Table.ofPairs [("first".toList, .bool (i = 0)), ("last".toList, .bool (i + 1 = count)),
    ("index".toList, .nat i)]

/-- The blocks for the items or fields of a collection. -/
def entries (names : List Text) : Json → List Block
  | .array items => items.zipIdx.map fun (v, i) =>
    { value := v
      locals := variablesAt items.length i
      names := Table.ofPairs (names.zip [v, .nat i]) }
  | .object fields => fields.zipIdx.map fun ((k, v), i) =>
    { value := v
      locals := (variablesAt fields.length i).insert "key".toList (.string k)
      names := Table.ofPairs (names.zip [v, .string k]) }
  | _ => []

/-- The block for a value in focus. -/
def focused (names : List Text) (value : Json) : Block :=
  { value
    locals := []
    names := if names.length = 1 then Table.ofPairs (names.map (·, value)) else [] }

/-- The block of an inserted page. -/
def inserted (base : Json) (options : Table Json) : Block :=
  { value := Value.extended base options, locals := [], names := options }

/-! ## Partials -/

/-- The name of the body around an inserted page. -/
def bodyName : Text := "@partial-block".toList

/-- What a name stands for at a place of insertion. -/
inductive Partial
  | text (text : Text)
  | page (page : Page) (name : Option Text)

def partial? (e : Setting) (p : Progress) (name : Text) : Option Partial :=
  let own :=
    if name = bodyName then e.body.map .text
    else ((p.declared :: e.outer).findSome? (Table.find? name)).map fun page => .page page none
  own.or ((e.pages.find? name).map fun page => .page page (some name))

/-- Puts a partial in its place.  `body` is the text around it, and stands in for one that is missing. -/
def place (insertion : Insertion) (e : Setting) (p : Progress) (name indent : Text)
    (body : Option Text) : Outcome :=
  match (e.partial? p name).or (body.map .text) with
  | none => .error ("no partial ".toList ++ name)
  | some (.text s) => .ok (s, p)
  | some (.page page current) =>
    insertion { e with body, indent := e.indent ++ indent } { p with current } page

/-- The directive that declares a partial. -/
def inlineName : Text := "inline".toList

/-- Carries out a directive. -/
def declare (e : Setting) (p : Progress) (l : Line) (body : Option Page) : Except Text Progress := do
  let (params, _) ← e.argumentValues l.arguments
  if l.name ≠ inlineName then .error ("no directive ".toList ++ l.name)
  else
    match params.head?.bind Json.text?, body with
    | some name, some page => return p.declare name page
    | _, _ => .error "a declaration wants a name and a body".toList

/-- Carries out the directives of a body, apart from its bodies. -/
def declareAll (e : Setting) (p : Progress) : Page → Except Text Progress
  | [] => .ok p
  | .directive l :: rest => do e.declareAll (← e.declare p l none) rest
  | .declare l body :: rest => do e.declareAll (← e.declare p l (some body)) rest
  | _ :: rest => e.declareAll p rest

end Setting

/-! ## Pages -/

/-- Runs a part of a page, `indents` telling whether its first text is to be indented.  A part that puts
out nothing leaves the text after it as it would be without the part. -/
def runPart (p : Progress) (indents : Bool) (part : Progress → Outcome) : Outcome := do
  let (s, q) ← part { p with produced := false, indentsNext := indents }
  if q.produced then return (s, { q with indentsNext := q.lineEnded })
  else return (s, { q with produced := p.produced, indentsNext := p.indentsNext })

/-- Runs what stands in a further block. -/
def runBlock (p : Progress) (part : Progress → Outcome) : Outcome := do
  let (s, q) ← part { p.inside with declared := [] }
  return (s, { q with declared := p.declared })

/-- What a body comes to with a value in focus, in a block of its own. -/
def bodyOf (e : Setting) (p : Progress) (part : Setting → Progress → Outcome) : Setting.Body :=
  fun v => (runBlock p (part (e.within p (Setting.focused [] v)))).map Prod.fst

/-- Runs what stands in the block of an inserted page. -/
def runInserted (e : Setting) (p : Progress) (name : Text) (params : List Json)
    (options : Table Json) (part : Setting → Progress → Outcome) : Outcome :=
  if p.current = some name then .error "a page inserts itself".toList
  else do
    let block := Setting.inserted (params.head?.getD e.focus) options
    let (s, q) ← runBlock p (part (e.within p block))
    return (s, { q with current := p.current })

/-- Runs for each of a list, one after the other. -/
def sequence {α : Type} (f : α → Progress → Outcome) : List α → Progress → Outcome
  | [], p => .ok ([], p)
  | x :: rest, p => do
    let (s, p) ← f x p
    let (t, p) ← sequence f rest p
    return (s ++ t, p)

mutual

def Element.run (insertion : Insertion) (e : Setting) (p : Progress) : Element → Outcome
  | .text s => .ok (e.put p s)
  | .value subject escapes => e.runSubject p subject escapes
  | .call l escapes => do
    let (params, options) ← e.argumentValues l.arguments
    return e.putAnswer p escapes (← e.call Setting.standIn l.name params options none none)
  | .block l ownLine body inverse => do
    let (params, options) ← e.argumentValues l.arguments
    let subject := params.headD .null
    runPart p (p.indentsNext || (ownLine && p.lineEnded)) fun p =>
      let inside := bodyOf e p fun e q => Page.run insertion e q body
      let otherwise := bodyOf e p fun e q => Page.run insertion e q inverse
      let answer : Outcome := do
        let inverse := if inverse.isEmpty then none else some otherwise
        return e.putAnswer p true
          (← e.call Setting.blockStandIn l.name params options (some inside) inverse)
      match e.helpers.find? l.name, Builtin.find? l.name with
      | none, some b => do
        b.check params options
        match b with
        | .condition wanted =>
          let zeroIsTrue := (options.find? "includeZero".toList).any fun v => Value.same v (.bool true)
          if Value.isTrue zeroIsTrue subject = wanted then Page.run insertion e p.inside body
          else Page.run insertion e (p.otherwise inverse) inverse
        | .each =>
          match Setting.entries l.names subject with
          | [] => Page.run insertion e (p.otherwise inverse) inverse
          | blocks =>
            runBlock p (sequence (fun b q => Page.run insertion (e.within p b) q body) blocks)
        | .focus =>
          if Value.isTrue false subject then
            let block := Setting.focused l.names subject
            runBlock p fun q => Page.run insertion (e.within p block) q body
          else Page.run insertion e (p.otherwise inverse) inverse
        | .body => Page.run insertion e p.inside body
        | _ => answer
      | _, _ => answer
  | .insert name arguments ownLine indent => do
    let name ← e.spelledName name
    let (params, options) ← e.argumentValues arguments
    runPart p (ownLine && (p.lineEnded || !indent.isEmpty)) fun p =>
      runInserted e p name params options fun e p => e.place insertion p name indent none
  | .wrap name arguments ownLine body => do
    let name ← e.spelledName name
    let (params, options) ← e.argumentValues arguments
    runPart p (ownLine && p.lineEnded) fun p =>
      runInserted e p name params options fun e p => do
        let (s, p) ← Page.run insertion e (← e.declareAll p body) body
        e.place insertion p name [] (some s)
  | .directive l => (e.declare p l none).map ([], ·)
  | .declare l body => (e.declare p l (some body)).map ([], ·)

def Page.run (insertion : Insertion) (e : Setting) (p : Progress) : List Element → Outcome
  | [] => .ok ([], p)
  | x :: rest => do
    let (s, p) ← x.run insertion e p
    let (t, p) ← Page.run insertion e p rest
    return (s ++ t, p)

end

/-- How deeply pages may be inserted into each other, and what is said beyond that. -/
structure Limit where
  depth : Nat
  message : Text

/-- Runs a page that others are inserted into, to a depth. -/
def runTo (message : Text) : Nat → Insertion
  | 0, _, _, _ => .error message
  | depth + 1, e, p, page => Page.run (runTo message depth) e p page

/-- The text of a page of which the name is given. -/
def run (limit : Limit) (helpers : Table (Helper.Call → Except Text Text)) (pages : Table Page)
    (name : Text) (data : Json) : Except Text Text :=
  match pages.find? name with
  | none => .error ("no template ".toList ++ name)
  | some page =>
    let e : Setting :=
      { helpers, pages, data, blocks := [⟨data, [], []⟩], outer := [], body := none, indent := [] }
    (runTo limit.message limit.depth e (.start name) page).map Prod.fst

end Stencil.Render
