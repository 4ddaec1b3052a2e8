import Stencil.Json.Reader
/-!
Settings files in TOML, line by line: tables, keys that are bare, quoted or dotted, strings on one line,
integers, booleans, arrays and inline tables.

A document is read into the list of its definitions, each with the full path of its key.  A path may be
defined once, nothing may be defined below a value, and a table may be opened once.
-/

namespace Stencil.Toml

abbrev Reader (α : Type) := Text → Option (α × Text)

def isSpace (c : Char) : Bool :=
  c = ' ' || c = '\t'

def skip (s : Text) : Text :=
  s.dropWhile isSpace

/-- What follows the mark `m`, spaces before it left out. -/
def afterMark? (m : Char) (s : Text) : Option Text :=
  Text.after? [m] (skip s)

/-- Characters that no line may have. -/
def isControl (c : Char) : Bool :=
  (c.toNat < 32 && c ≠ '\t') || c.toNat = 127

/-! ## Strings -/

/-- The character that a number written with hexadecimal digits stands for. -/
def charOf (digits : Text) : Option Char := do
  let values ← digits.mapM Text.Hex.value?
  let n := values.foldl (fun n d => 16 * n + d) 0
  if n.isValidChar then some (Char.ofNat n) else none

/-- The character of an escape, without its backslash: numbered with two, four or eight digits, or named
by a letter. -/
def escape : Reader Char := fun s =>
  let numbered (count : Nat) (r : Text) : Option (Char × Text) :=
    if r.length < count then none else (charOf (r.take count)).map fun c => (c, r.drop count)
  match s with
  | 'x' :: r => numbered 2 r
  | 'u' :: r => numbered 4 r
  | 'U' :: r => numbered 8 r
  | 'e' :: r => some ('\x1b', r)
  | '/' :: _ => none
  | c :: r => (Json.unescape c).map fun d => (d, r)
  | [] => none

/-- The characters of a string with escapes, up to the closing mark. -/
def basicString : Nat → Reader Text
  | 0, _ => none
  | fuel + 1, s => do
    match s with
    | [] => none
    | '"' :: r => return ([], r)
    | c :: r =>
      let (c, r) ← if c = '\\' then escape r else if isControl c then none else some (c, r)
      let (cs, r) ← basicString fuel r
      return (c :: cs, r)

/-- A string between double quotes, or one between single quotes, which is as it stands. -/
def string : Reader Text
  | '"' :: r => basicString (r.length + 1) r
  | '\'' :: r =>
    (Text.cut ['\''] r).bind fun p => if p.1.any isControl then none else some p
  | _ => none

/-! ## Keys -/

def isBareKeyChar (c : Char) : Bool :=
  c.isAlphanum || c = '_' || c = '-'

def simpleKey : Reader Text := fun s =>
  let bare := Text.run isBareKeyChar s
  if bare.1.isEmpty then string s else some bare

/-- A key, with dots between its steps. -/
def key : Nat → Reader (List Text)
  | 0, _ => none
  | fuel + 1, s => do
    let (k, r) ← simpleKey (skip s)
    match afterMark? '.' r with
    | some r => do
      let (ks, r) ← key fuel r
      return (k :: ks, r)
    | none => return ([k], r)

/-! ## Definitions -/

/-- What a document has defined so far. -/
structure Definitions where
  /-- Values by the full paths of their keys, the last first. -/
  values : List (List Text × Json)
  /-- The tables that were opened. -/
  opened : List (List Text)
  /-- The tables that keys with dots have made. -/
  dotted : List (List Text)

namespace Definitions

def empty : Definitions := ⟨[], [], []⟩

/-- Whether a value stands at the path or above it. -/
def blocks (d : Definitions) (path : List Text) : Bool :=
  d.values.any fun v => v.1.isPrefixOf path

/-- Whether something is defined at the path or below it. -/
def reaches (d : Definitions) (path : List Text) : Bool :=
  d.values.any (fun v => path.isPrefixOf v.1) || d.opened.any path.isPrefixOf

/-- Opens a table. -/
def openTable (d : Definitions) (path : List Text) : Option Definitions :=
  if d.blocks path || d.opened.contains path || d.dotted.contains path then none
  else some { d with opened := path :: d.opened }

/-- The tables between an open table and the last step of a key. -/
def between (table : List Text) : List Text → List (List Text)
  | [] | [_] => []
  | k :: ks => (table ++ [k]) :: between (table ++ [k]) ks

/-- Defines a key of the open table. -/
def define (d : Definitions) (table steps : List Text) (v : Json) : Option Definitions :=
  let path := table ++ steps
  let made := between table steps
  if d.blocks path || d.reaches path || made.any d.opened.contains then none
  else some { d with values := (path, v) :: d.values, dotted := made ++ d.dotted }

/-- The fields of a value, with another put at a path below it. -/
def put (v : Json) : List Text → Json → Json
  | [], w => w
  | k :: ks, w =>
    let fields :=
      match v with
      | .object fields => fields
      | _ => []
    .object (Table.insert k (put ((Table.find? k fields).getD (.object [])) ks w) fields)

/-- The table that is there already, or else an empty one. -/
def open? (v : Json) : List Text → Json
  | [] => v
  | k :: ks =>
    match v with
    | .object fields =>
      .object (Table.insert k (open? ((Table.find? k fields).getD (.object [])) ks) fields)
    | v => v

/-- The document as one object. -/
def document (d : Definitions) : Json :=
  let tables := d.opened.foldr (fun path v => open? v path) (.object [])
  d.values.foldr (fun p v => put v p.1 p.2) tables

end Definitions

/-! ## Values -/

/-- The digits of an integer of a base; single underscores may stand between them. -/
def digits (base : Nat) (s : Text) : Option Nat :=
  let parts := Text.splitAll '_' s
  if parts.any List.isEmpty then none
  else do
    let values ← parts.flatten.mapM Text.Hex.value?
    if values.all (· < base) then some (values.foldl (fun n d => base * n + d) 0) else none

/-- An integer that fits into 128 bits, the sign counted only below zero. -/
def integer (s : Text) : Option Int := do
  let n : Int ←
    match s with
    | '0' :: 'x' :: r => (digits 16 r).map Int.ofNat
    | '0' :: 'o' :: r => (digits 8 r).map Int.ofNat
    | '0' :: 'b' :: r => (digits 2 r).map Int.ofNat
    | '-' :: r => (decimal r).map fun n => -(n : Int)
    | '+' :: r => (decimal r).map Int.ofNat
    | r => (decimal r).map Int.ofNat
  if n.natAbs < Nat.pow 2 128 ∧ (0 ≤ n ∨ n.natAbs ≤ Nat.pow 2 127) then some n else none
where
  decimal (s : Text) : Option Nat :=
    if s.head? = some '0' && s ≠ ['0'] then none else digits 10 s

/-- A value that is neither a string nor has parts. -/
def scalar (s : Text) : Option Json :=
  if s = "true".toList then some (.bool true)
  else if s = "false".toList then some (.bool false)
  else (integer s).map fun n => .number (.integer n)

mutual

def value : Nat → Reader Json
  | 0, _ => none
  | fuel + 1, s =>
    match skip s with
    | '[' :: r =>
      match afterMark? ']' r with
      | some r => some (.array [], r)
      | none => (items fuel r).map fun p => (.array p.1, p.2)
    | '{' :: r =>
      match afterMark? '}' r with
      | some r => some (.object [], r)
      | none => (fields fuel .empty r).map fun p => (p.1.document, p.2)
    | s =>
      if s.head? = some '"' || s.head? = some '\'' then
        (string s).map fun p => (.string p.1, p.2)
      else
        let p := Text.run (fun c => isBareKeyChar c || c = '+') s
        (scalar p.1).map fun v => (v, p.2)

/-- The items of an array and its closing bracket; a comma may follow the last. -/
def items : Nat → Reader (List Json)
  | 0, _ => none
  | fuel + 1, s => do
    let (v, r) ← value fuel s
    match afterMark? ',' r with
    | some r =>
      match afterMark? ']' r with
      | some r => return ([v], r)
      | none => do
        let (vs, r) ← items fuel r
        return (v :: vs, r)
    | none => (afterMark? ']' r).map fun r => ([v], r)

/-- The fields of an inline table and its closing brace; a comma may follow the last. -/
def fields : Nat → Definitions → Reader Definitions
  | 0, _, _ => none
  | fuel + 1, d, s => do
    let (k, r) ← key s.length s
    let r ← afterMark? '=' r
    let (v, r) ← value fuel r
    let d ← d.define [] k v
    match afterMark? ',' r with
    | some r =>
      match afterMark? '}' r with
      | some r => return (d, r)
      | none => fields fuel d r
    | none => (afterMark? '}' r).map fun r => (d, r)

end

/-! ## Documents -/

/-- Whether a line ends here, but for a comment. -/
def isEnd (s : Text) : Bool :=
  match skip s with
  | [] => true
  | '#' :: r => !r.any isControl
  | _ => false

/-- A document that is being read: its definitions and the open table. -/
structure Progress where
  definitions : Definitions
  table : List Text

/-- Reads a line. -/
def Progress.line (p : Progress) (s : Text) : Option Progress :=
  if isEnd s then some p
  else
    match skip s with
    | '[' :: r => do
      let (path, r) ← key (s.length + 1) r
      let r ← afterMark? ']' r
      let d ← p.definitions.openTable path
      if isEnd r then some ⟨d, path⟩ else none
    | s => do
      let (k, r) ← key (s.length + 1) s
      let r ← afterMark? '=' r
      let (v, r) ← value (2 * s.length + 2) r
      let d ← p.definitions.define p.table k v
      if isEnd r then some { p with definitions := d } else none

/-- The lines of a text; a carriage return before the end of a line belongs to it. -/
def lines (s : Text) : List Text :=
  match (Text.splitAll '\n' s).reverse with
  | [] => []
  | last :: before =>
    (before.reverse.map fun l => if l.getLast? = some '\r' then l.dropLast else l) ++ [last]

/-- Reads lines, numbered from `n`; the number of the first that is malformed ends it. -/
def readLines (p : Progress) (n : Nat) : List Text → Except Nat Progress
  | [] => .ok p
  | l :: rest =>
    match p.line l with
    | some p => readLines p (n + 1) rest
    | none => .error n

/-- The mark with which a text may begin, to say how it is encoded. -/
def byteOrderMark : Char := '\ufeff'

/-- The document that a text writes, or the number of the line that is malformed. -/
def parse (s : Text) : Except Nat Json :=
  let body := (Text.after? [byteOrderMark] s).getD s
  (readLines ⟨.empty, []⟩ 1 (lines body)).map fun p => p.definitions.document

end Stencil.Toml
