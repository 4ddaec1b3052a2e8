import Stencil.Render.Term
import Stencil.Syntax.RawBlock
/-!
Tags of a runtime source, one at a time.

`Tag.read?` takes a whole tag from the head of a text; `plainText` takes the text before the next one.
-/

namespace Stencil.Render

/-- The call of a helper, with names for what it iterates over. -/
structure Line where
  name : Text
  arguments : Arguments
  names : List Text

inductive Tag
  | value (subject : Term) (escaped : Bool)
  | call (line : Line) (escaped : Bool)
  | comment
  | opening (line : Line)
  | chain (line : Line)
  | otherwise
  /-- The end of a body; a computed name is not spelled again. -/
  | closing (spelling : Option Text)
  /-- A partial to insert; `spelling` is the name that closes its body. -/
  | insert (name : Term) (arguments : Arguments)
  | openingInsert (spelling : Option Text) (name : Term) (arguments : Arguments)
  | directive (line : Line)
  | openingDirective (line : Line)

/-- A tag, the text after it, and whether it trims the text on either side. -/
structure Found where
  tag : Tag
  trimBefore : Bool
  trimAfter : Bool
  rest : Text

/-! ## The parts of a tag -/

/-- Fuel enough for the terms of a text. -/
def budget (s : Text) : Nat :=
  3 * s.length + 3

def argumentsOf (s : Text) : Arguments × Text :=
  arguments (budget s) s

/-- Names for the item and its place: `as |item place|`. -/
def itemNames : Reader (List Text) := fun s => do
  let r ← Text.after? "as".toList (Json.skip s)
  let r ← afterMark? '|' r
  let (item, r) ← word (Json.skip r)
  let place := word (Json.skip r)
  let r ← afterMark? '|' ((place.map Prod.snd).getD r)
  return (item :: (place.map Prod.fst).toList, r)

def line : Reader Line := fun s => do
  let (name, r) ← word (Json.skip s)
  let (a, r) := argumentsOf r
  match itemNames r with
  | some (names, r) => return (⟨name, a, names⟩, r)
  | none => return (⟨name, a, []⟩, r)

/-- A call in parentheses or a path. -/
def subject : Reader Term := fun s =>
  let s := Json.skip s
  (callTerm (budget s) s).or (path s)

/-- A helper with arguments, or else a value. -/
def expression (escaped : Bool) : Reader Tag := fun s =>
  let call := do
    let (name, r) ← word (Json.skip s)
    let (a, r) := argumentsOf r
    if a.isEmpty then none else some (Tag.call ⟨name, a, []⟩ escaped, r)
  call.or ((subject s).map fun p => (.value p.1 escaped, p.2))

/-- The characters of a name between single quotes. -/
def quotedName : Text → Option (Text × Text)
  | [] => none
  | '\'' :: r => some ([], r)
  | '\\' :: '\'' :: r => (quotedName r).map fun p => ('\\' :: '\'' :: p.1, p.2)
  | c :: r => (quotedName r).map fun p => (c :: p.1, p.2)

/-- The plain name of a partial: as spelled, and what it names. -/
def partialName : Reader (Text × Text)
  | '\'' :: r =>
    match quotedName r with
    | some (n, rest) => if n.isEmpty then none else some (('\'' :: n ++ ['\''], n), rest)
    | none => none
  | s =>
    (nameOf (fun c => isWordChar c || c = '/' || c = '.') s).map fun p => ((p.1, p.1), p.2)

/-- The name of a partial, plain or computed: as spelled, if it can be, and the term for it. -/
def partialHead : Reader (Option Text × Term) := fun s =>
  let s := Json.skip s
  let plain := (partialName s).map fun p => ((some p.1.1, Term.literal (.string p.1.2)), p.2)
  plain.or ((subject s).map fun p => ((p.1.spelling?, p.1), p.2))

/-- The name of a partial and its arguments. -/
def partialLine : Reader (Option Text × Term × Arguments) := fun s => do
  let (head, r) ← partialHead s
  let (a, r) := argumentsOf r
  return ((head.1, head.2, a), r)

/-- The name in a closing tag, which may be left out. -/
def closingName : Reader (Option Text) := fun s =>
  some (((partialHead s).map fun p => (p.1.1, p.2)).getD (none, s))

/-- What follows the mark of the other branch of a block; a condition may follow it at once. -/
def afterElse? (s : Text) : Option Text :=
  let s := Json.skip s
  (Text.after? "else".toList s).or (Text.after? ['^'] s)

/-! ## Whole tags -/

/-- The end of a tag, and whether it trims. -/
def closingOf (mark : Text) (s : Text) : Option (Bool × Text) :=
  match afterMark? '~' s with
  | some r => (Text.after? mark (Json.skip r)).map fun r => (true, r)
  | none => (Text.after? mark (Json.skip s)).map fun r => (false, r)

/-- What is left to read of a tag after its mark. -/
def inner : Reader Tag := fun s =>
  match Json.skip s with
  | '{' :: r => do
    let (t, r) ← expression false r
    return (t, ← afterMark? '}' r)
  | '&' :: r => (subject r).map fun p => (.value p.1 false, p.2)
  | '#' :: r =>
    match Json.skip r with
    | '*' :: r => (line r).map fun p => (.openingDirective p.1, p.2)
    | '>' :: r => (partialLine r).map fun p => (.openingInsert p.1.1 p.1.2.1 p.1.2.2, p.2)
    | r => (line r).map fun p => (.opening p.1, p.2)
  | '/' :: r => (closingName r).map fun p => (.closing p.1, p.2)
  | '*' :: r => (line r).map fun p => (.directive p.1, p.2)
  | '>' :: r => (partialLine r).map fun p => (.insert p.1.2.1 p.1.2.2, p.2)
  | s => expression true s

/-- The tag between marks that `read` accepts. -/
def between (read : Reader Tag) (mark : Text) (s : Text) : Option Found := do
  let start := afterMark? '~' s
  let (tag, r) ← read (start.getD s)
  let (trimAfter, rest) ← closingOf mark r
  return ⟨tag, start.isSome, trimAfter, rest⟩

/-- What follows a comment of which `s` is the text. -/
def pastComment (s : Text) : Option Text :=
  let long := (Text.after? "--".toList (Json.skip s)).bind fun r =>
    (Text.cut ('-' :: '-' :: close2) r).map Prod.snd
  long.or ((Text.cut close2 s).map Prod.snd)

namespace Tag

/-- The tag at the head of a text. -/
def read? (s : Text) : Option Found := do
  let s ← Text.after? open2 s
  match s with
  | '!' :: r => (pastComment r).map fun rest => ⟨.comment, false, false, rest⟩
  | s =>
    let otherwise := between (fun r => (afterElse? r).map fun r => (.otherwise, r)) close2 s
    let chain := between (fun r => (afterElse? r).bind fun r =>
      (line r).map fun p => (.chain p.1, p.2)) close2 s
    let literal := (Text.after? ['{'] s).bind (between (expression false) ('}' :: close2))
    otherwise.or <| chain.or <| literal.or <| between inner close2 s

end Tag

/-! ## Text -/

/-- The text up to the next tag, and the rest.  A backslash before a tag makes it text; of several
backslashes before a tag the first is dropped. -/
def plainText : Text → Text × Text
  | '\\' :: '{' :: '{' :: '{' :: '{' :: r =>
    let p := plainText r
    ('{' :: '{' :: '{' :: '{' :: p.1, p.2)
  | '\\' :: '{' :: '{' :: r =>
    let p := plainText r
    ('{' :: '{' :: p.1, p.2)
  | '{' :: '{' :: r => ([], '{' :: '{' :: r)
  | c :: r =>
    let backslashes := Text.run (· = '\\') r
    if c = '\\' && !backslashes.1.isEmpty && Text.startsWith open2 backslashes.2 then backslashes
    else
      let p := plainText r
      (c :: p.1, p.2)
  | [] => ([], [])

end Stencil.Render
