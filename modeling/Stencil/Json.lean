import Stencil.Json.Number
import Stencil.Table
import Stencil.Text.Hex
/-!
JSON documents: values, a compact and an indented writer.  The fields of an object are kept in the order
of their names.
-/

namespace Stencil

inductive Json
  | null
  | bool (value : Bool)
  | number (value : Number)
  | string (value : Text)
  | array (items : List Json)
  | object (fields : List (Text × Json))
  deriving Repr, Inhabited

namespace Json

/-! ## Access -/

def nat (n : Nat) : Json :=
  number (.integer n)

/-- An object with the given fields, put in order. -/
def ofFields (fields : List (Text × Json)) : Json :=
  object (Table.ofPairs fields)

def texts (items : List Text) : Json :=
  array (items.map string)

/-- The field of an object. -/
def field? (name : Text) : Json → Option Json
  | object fields => Table.find? name fields
  | _ => none

/-- The text of a string. -/
def text? : Json → Option Text
  | string s => some s
  | _ => none

/-! ## Writing -/

/-- A character inside a string literal. -/
def escapeChar (c : Char) : Text :=
  match c with
  | '"' => ['\\', '"']
  | '\\' => ['\\', '\\']
  | '\n' => ['\\', 'n']
  | '\r' => ['\\', 'r']
  | '\t' => ['\\', 't']
  | '\x08' => ['\\', 'b']
  | '\x0c' => ['\\', 'f']
  | c =>
    if c.toNat < 32 then
      ['\\', 'u', '0', '0', Text.Hex.digit (c.toNat / 16), Text.Hex.digit (c.toNat % 16)]
    else [c]

/-- A string literal. -/
def literal (s : Text) : Text :=
  '"' :: s.flatMap escapeChar ++ ['"']

mutual

/-- The value in writing, without white space. -/
def compact : Json → Text
  | null => "null".toList
  | bool b => (if b then "true" else "false").toList
  | number n => n.text
  | string s => literal s
  | array items => '[' :: compactItems items ++ [']']
  | object fields => '{' :: compactFields fields ++ ['}']

def compactItems : List Json → Text
  | [] => []
  | [v] => compact v
  | v :: rest => compact v ++ ',' :: compactItems rest

def compactFields : List (Text × Json) → Text
  | [] => []
  | [(k, v)] => literal k ++ ':' :: compact v
  | (k, v) :: rest => literal k ++ ':' :: compact v ++ ',' :: compactFields rest

end

/-- The start of a line at a level of nesting. -/
def newline (level : Nat) : Text :=
  '\n' :: List.replicate (2 * level) ' '

mutual

/-- The value in writing, one item a line, two spaces a level. -/
def indented (level : Nat) : Json → Text
  | array [] => "[]".toList
  | array items => '[' :: indentedItems (level + 1) items ++ newline level ++ [']']
  | object [] => ['{', '}']
  | object fields => '{' :: indentedFields (level + 1) fields ++ newline level ++ ['}']
  | null => compact null
  | bool b => compact (bool b)
  | number n => compact (number n)
  | string s => compact (string s)

def indentedItems (level : Nat) : List Json → Text
  | [] => []
  | [v] => newline level ++ indented level v
  | v :: rest => newline level ++ indented level v ++ ',' :: indentedItems level rest

def indentedFields (level : Nat) : List (Text × Json) → Text
  | [] => []
  | [(k, v)] => newline level ++ literal k ++ ": ".toList ++ indented level v
  | (k, v) :: rest =>
    newline level ++ literal k ++ ": ".toList ++ indented level v ++ ',' :: indentedFields level rest

end

end Json

end Stencil
