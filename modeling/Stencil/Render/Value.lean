import Stencil.Json.Reader
/-!
Values as templates see them: the text that stands for a value, which values count as true, how values
are found, merged and compared.  A value that is missing is told apart from `null` only where it is
looked up.
-/

namespace Stencil.Render

/-- Characters with a meaning in markup, and what is written for them. -/
def escapeChar (c : Char) : Text :=
  match c with
  | '<' => "&lt;".toList
  | '>' => "&gt;".toList
  | '"' => "&quot;".toList
  | '&' => "&amp;".toList
  | '\'' => "&#x27;".toList
  | '\x60' => "&#x60;".toList
  | '=' => "&#x3D;".toList
  | c => [c]

def escaped (s : Text) : Text :=
  s.flatMap escapeChar

namespace Value

mutual

/-- The text that is written for a value. -/
def text : Json → Text
  | .null => []
  | .bool b => (if b then "true" else "false").toList
  | .number n => n.text
  | .string s => s
  | .array items => '[' :: texts items ++ [']']
  | .object _ => "[object]".toList

def texts : List Json → Text
  | [] => []
  | [v] => text v
  | v :: rest => text v ++ ", ".toList ++ texts rest

end

/-- Whether a float is neither zero, subnormal, infinite nor no number at all. -/
def isNormal (x : Float) : Bool :=
  let biased := x.toBits.toNat / Nat.pow 2 52 % Nat.pow 2 11
  biased ≠ 0 && biased ≠ 2047

/-- Whether a value counts as true. -/
def isTrue (zeroIsTrue : Bool) : Json → Bool
  | .null => false
  | .bool b => b
  | .number n => zeroIsTrue || isNormal n.toFloat
  | .string s => !s.isEmpty
  | .array items => !items.isEmpty
  | .object fields => !fields.isEmpty

/-! ## Looking up -/

/-- The place of an item that a name stands for; the name may have a sign. -/
def index? (name : Text) : Option Nat :=
  let digits := (Text.after? ['+'] name).getD name
  if digits.isEmpty || !digits.all Char.isDigit then none
  else
    let n := digits.foldl (fun n c => 10 * n + (c.toNat - 48)) 0
    if n < Nat.pow 2 64 then some n else none

/-- What a name leads to; an array wants the place of an item. -/
def step (v : Json) (name : Text) : Except Text (Option Json) :=
  match v with
  | .array items =>
    match index? name with
    | some i => .ok items[i]?
    | none => .error ("invalid index ".toList ++ name)
  | v => .ok (v.field? name)

/-- What names lead to, one after the other. -/
def follow (v : Json) : List Text → Except Text (Option Json)
  | [] => .ok (some v)
  | name :: rest => do
    match ← step v name with
    | some w => follow w rest
    | none => return none

/-- The item or field of a collection that a value stands for. -/
def item? (collection place : Json) : Option Json :=
  match collection, place with
  | .array items, .number (.integer i) => if 0 ≤ i then items[i.toNat]? else none
  | .object fields, .string name => Table.find? name fields
  | _, _ => none

/-! ## Merging -/

/-- Values with their places for names. -/
def numbered (n : Nat) : List Json → List (Text × Json)
  | [] => []
  | v :: rest => (Text.ofNat n, v) :: numbered (n + 1) rest

/-- The fields of a value: those of an object, the items of an array, or the characters of a string. -/
def fieldsOf : Json → Table Json
  | .object fields => fields
  | .array items => Table.ofPairs (numbered 0 items)
  | .string s => Table.ofPairs (numbered 0 (s.map fun c => .string [c]))
  | _ => []

/-- The value with further fields; without any it stays as it is. -/
def extended (v : Json) (fields : Table Json) : Json :=
  if fields.isEmpty then v else .object (Table.merge (fieldsOf v) fields)

/-! ## Comparing -/

/-- Whether two numbers are the same; an integer is no float. -/
def sameNumber : Number → Number → Bool
  | .integer a, .integer b => a = b
  | .real a, .real b => a == b
  | _, _ => false

mutual

def same : Json → Json → Bool
  | .null, .null => true
  | .bool a, .bool b => a = b
  | .number a, .number b => sameNumber a b
  | .string a, .string b => a = b
  | .array a, .array b => sameItems a b
  | .object a, .object b => sameFields a b
  | _, _ => false

def sameItems : List Json → List Json → Bool
  | [], [] => true
  | v :: a, w :: b => same v w && sameItems a b
  | _, _ => false

def sameFields : List (Text × Json) → List (Text × Json) → Bool
  | [], [] => true
  | (k, v) :: a, (l, w) :: b => k = l && same v w && sameFields a b
  | _, _ => false

end

/-- The number that a string writes. -/
def numberOf? (s : Text) : Option Number :=
  match Json.parse s with
  | .ok (.number n) => if s.any Json.isSpace then none else some n
  | _ => none

/-- The order of two values of one kind, or of a number and a string that writes one. -/
def order? : Json → Json → Option Ordering
  | .number a, .number b => some (a.order b)
  | .number a, .string s => (numberOf? s).map a.order
  | .string s, .number b => (numberOf? s).map fun a => a.order b
  | .string a, .string b => some (compareOfLessAndEq a b)
  | .bool a, .bool b => some (compare a.toNat b.toNat)
  | _, _ => none

/-- The number of items, fields or bytes. -/
def size : Json → Nat
  | .array items => items.length
  | .object fields => fields.length
  | .string s => Text.size s
  | _ => 0

end Value

end Stencil.Render
