import Stencil.Text
/-!
JSON numbers: integers of 64 bits, and binary floating point for all others.

A float is written with the fewest digits that read back to it (`Float64.shortest`), plainly while it
has at most sixteen integer digits or four zeros after the point, else with an exponent.
-/

namespace Stencil

namespace Float64

/-- A positive float as `mantissa * 2 ^ (exponent - 1074)`. -/
structure Parts where
  mantissa : Nat
  exponent : Nat
  deriving Repr

/-- The leading bit of a mantissa, which is not stored. -/
def hiddenBit : Nat := Nat.pow 2 52

/-- The parts of a finite float, sign left out. -/
def parts (x : Float) : Parts :=
  let bits := x.toBits.toNat % Nat.pow 2 63
  let biased := bits / hiddenBit
  let fraction := bits % hiddenBit
  if biased = 0 then ⟨fraction, 0⟩ else ⟨hiddenBit + fraction, biased - 1⟩

/-- Whether the sign bit is set. -/
def isNegative (x : Float) : Bool :=
  x.toBits.toNat / Nat.pow 2 63 = 1

/-- The power of two that makes every float an integer. -/
def binaryScale : Nat := Nat.pow 2 1074

/-- A finite float times `binaryScale`. -/
def scaled (x : Float) : Int :=
  let p := parts x
  let magnitude : Int := Int.ofNat (p.mantissa * Nat.pow 2 p.exponent)
  if isNegative x then -magnitude else magnitude

/-- The power of ten that makes every decimal of a grid an integer. -/
def decimalScale : Nat := Nat.pow 10 400

/-- Whether the decimal `d * 10 ^ (k - 400)` lies in the interval of reals that round to `p`.  All
sides are scaled by `4 * binaryScale * decimalScale`. -/
def readsBack (p : Parts) (d k : Nat) : Bool :=
  let decimal := 4 * d * Nat.pow 10 k * binaryScale
  let unit := Nat.pow 2 p.exponent * decimalScale
  let upper := (4 * p.mantissa + 2) * unit
  let lower :=
    if p.mantissa = hiddenBit && p.exponent ≠ 0 then (4 * p.mantissa - 1) * unit
    else (4 * p.mantissa - 2) * unit
  if p.mantissa % 2 = 0 then lower ≤ decimal && decimal ≤ upper
  else lower < decimal && decimal < upper

/-- The number of decimal places by which `10 ^ (n - 400)` first exceeds `p`, searched upwards. -/
def magnitude (p : Parts) : Nat → Nat → Nat
  | 0, n => n
  | fuel + 1, n =>
    if p.mantissa * Nat.pow 2 p.exponent * decimalScale < Nat.pow 10 n * binaryScale then n
    else magnitude p fuel (n + 1)

/-- The nearest decimal of the grid `10 ^ (k - 400)` that reads back, of the two neighbours of `p`. -/
def onGrid (p : Parts) (k : Nat) : Option Nat :=
  let num := p.mantissa * Nat.pow 2 p.exponent * decimalScale
  let den := binaryScale * Nat.pow 10 k
  let lo := num / den
  let rem := num % den
  let nearer := if 2 * rem < den || (2 * rem = den && lo % 2 = 0) then lo else lo + 1
  let farther := if nearer = lo then lo + 1 else lo
  if readsBack p nearer k then some nearer
  else if readsBack p farther k then some farther
  else none

/-- The first grid with a hit: digits as a number, and the place of the last digit, plus 400. -/
def shortestFrom (p : Parts) (top : Nat) : Nat → Nat → Nat × Nat
  | 0, n => ((onGrid p (top - n)).getD 0, top - n)
  | fuel + 1, n =>
    match onGrid p (top - n) with
    | some d => (d, top - n)
    | none => shortestFrom p top fuel (n + 1)

/-- The fewest digits that read back to a positive float, and the place of the last one, plus 400. -/
def shortest (p : Parts) : Nat × Nat :=
  shortestFrom p (magnitude p 800 0) 17 1

/-- A positive decimal `d * 10 ^ (k - 400)` in writing. -/
def layout (d k : Nat) : Text :=
  let digits := Text.ofNat d
  let stripped := Text.trimEndBy (· = '0') digits
  let k := k + (digits.length - stripped.length)
  let digits := stripped
  let point : Int := digits.length + (k : Int) - 400
  if 400 ≤ k && point ≤ 16 then digits ++ List.replicate (k - 400) '0' ++ ".0".toList
  else if 0 < point && point ≤ 16 then
    digits.take point.toNat ++ '.' :: digits.drop point.toNat
  else if -5 < point && point ≤ 0 then
    "0.".toList ++ List.replicate point.natAbs '0' ++ digits
  else
    let e := point - 1
    let exponent := (if e < 0 then '-' else '+') :: Text.ofNat e.natAbs
    match digits with
    | [c] => c :: 'e' :: exponent
    | c :: r => c :: '.' :: r ++ 'e' :: exponent
    | [] => []

/-- A finite float in writing. -/
def text (x : Float) : Text :=
  let p := parts x
  let body := if p.mantissa = 0 then "0.0".toList else layout (shortest p).1 (shortest p).2
  if isNegative x then '-' :: body else body

end Float64

/-- A number of a JSON document. -/
inductive Number
  | integer (value : Int)
  | real (value : Float)
  deriving Repr

namespace Number

def text : Number → Text
  | integer n => (if n < 0 then ['-'] else []) ++ Text.ofNat n.natAbs
  | real x => Float64.text x

/-- The value times `Float64.binaryScale`. -/
def scaled : Number → Int
  | integer n => n * Int.ofNat Float64.binaryScale
  | real x => Float64.scaled x

/-- The order of the values, which are exact. -/
def order (m n : Number) : Ordering :=
  compare m.scaled n.scaled

/-- The value as a float. -/
def toFloat : Number → Float
  | integer n => Float.ofInt n
  | real x => x

end Number

end Stencil
