import Stencil.Text.CaseTables
/-!
Capital and small forms of whole texts.
-/

namespace Stencil.Text

/-- The code point that a mapping gives for `n`. -/
def mapped (mappings : CaseMappings) (n : Nat) : Option Nat :=
  match mappings.find? fun m => m.1 ≤ n && n ≤ m.2.1 && (n - m.1) % m.2.2.1 = 0 with
  | none => none
  | some (_, _, _, up, distance) => some (if up then n + distance else n - distance)

/-- The capital form of a character. -/
def capital (c : Char) : Text :=
  match wideCapitals.find? fun w => w.1 = c.toNat with
  | some (_, form) => form.map Char.ofNat
  | none =>
    match mapped capitalMappings c.toNat with
    | some n => [Char.ofNat n]
    | none => [c]

/-- The small form of a character that is no sigma. -/
def small (c : Char) : Text :=
  if c.toNat = 0x130 then ['i', Char.ofNat 0x307]
  else
    match mapped smallMappings c.toNat with
    | some n => [Char.ofNat n]
    | none => [c]

def upper (s : Text) : Text :=
  s.flatMap capital

/-- Whether the first character that is not ignorable has case. -/
def meetsCased (s : Text) : Bool :=
  match s.dropWhile fun c => inRanges ignorableRanges c.toNat with
  | [] => false
  | c :: _ => inRanges casedRanges c.toNat

/-- The small form of a text; `before` holds the characters already read, the last first.  A sigma that
ends a word has a form of its own. -/
def lowerFrom (before : Text) : Text → Text
  | [] => []
  | c :: r =>
    (if c = 'Σ' then (if meetsCased before && !meetsCased r then ['ς'] else ['σ']) else small c) ++
      lowerFrom (c :: before) r

def lower (s : Text) : Text :=
  lowerFrom [] s

end Stencil.Text
