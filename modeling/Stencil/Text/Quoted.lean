import Stencil.Text.Graphic
import Stencil.Text.Hex
/-!
Texts and lists of texts as diagnostics show them: in double quotation marks, with escapes for all that
would not show as itself.
-/

namespace Stencil.Text

/-- The hexadecimal digits of a number, without leading zeros. -/
def hexDigits (n : Nat) : Text :=
  Nat.toDigits 16 n

/-- A character between double quotation marks. -/
def showChar (c : Char) : Text :=
  match c with
  | '\x00' => ['\\', '0']
  | '\t' => ['\\', 't']
  | '\r' => ['\\', 'r']
  | '\n' => ['\\', 'n']
  | '\\' => ['\\', '\\']
  | '"' => ['\\', '"']
  | c => if isGraphic c then [c] else ['\\', 'u', '{'] ++ hexDigits c.toNat ++ ['}']

/-- A text between double quotation marks. -/
def shown (s : Text) : Text :=
  '"' :: s.flatMap showChar ++ ['"']

/-- A list in brackets. -/
def shownList (items : List Text) : Text :=
  '[' :: join ", ".toList (items.map shown) ++ [']']

/-- An optional value. -/
def shownOption (value : Option Text) : Text :=
  match value with
  | none => "None".toList
  | some v => "Some(".toList ++ shown v ++ [')']

/-- A record with named fields, the values already shown. -/
def shownRecord (name : Text) (fields : List (Text × Text)) : Text :=
  name ++ [' ', '{', ' '] ++ join ", ".toList (fields.map fun f => f.1 ++ ": ".toList ++ f.2) ++
    [' ', '}']

end Stencil.Text
