import Stencil.Text
/-!
Edit distance, and the close matches that are offered for a name that was not found.
-/

namespace Stencil.Text

/-- The next row of the table of distances: `left` is the entry before, `above` the previous row from
the diagonal on. -/
def nextRow (c : Char) (left : Nat) : Text → List Nat → List Nat
  | d :: t, diagonal :: above :: row =>
    let entry := min (min (left + 1) (above + 1)) (if c = d then diagonal else diagonal + 1)
    entry :: nextRow c entry t (above :: row)
  | _, _ => []

/-- The rows of the table below `row`, `n` rows down from the top; the last entry of the last row. -/
def lastEntry (t : Text) : Text → Nat → List Nat → Nat
  | [], _, row => row.getLast?.getD 0
  | c :: s, n, row => lastEntry t s (n + 1) ((n + 1) :: nextRow c (n + 1) t row)

/-- The least number of characters inserted, deleted or replaced that turns `s` into `t`. -/
def distance (s t : Text) : Nat :=
  lastEntry t s 0 (List.range (t.length + 1))

/-- The largest distance at which a name is offered. -/
def closeDistance : Nat := 3

/-- The closest candidates, at most three, the nearest first and equally near ones in order. -/
def closeMatches (s : Text) (candidates : List Text) : List Text :=
  let scored := (candidates.map fun c => (distance s c, c)).filter fun p => p.1 ≤ closeDistance
  let sorted := scored.mergeSort fun a b => a.1 < b.1 || (a.1 == b.1 && !decide (b.2 < a.2))
  (sorted.take 3).map Prod.snd

end Stencil.Text
