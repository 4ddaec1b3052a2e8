/-!
Text as a list of characters, measured in bytes of its UTF-8 encoding.

Every scanner of this library walks a text from its head.  `cut` finds the first occurrence of a mark;
`cut_eq` says that it loses nothing, and the length lemmas beside it are what the scanners end by.
-/

namespace Stencil

/-- A text is the list of its characters. -/
abbrev Text := List Char

namespace Text

/-- Number of bytes of the UTF-8 encoding. -/
def size : Text → Nat
  | [] => 0
  | c :: r => c.utf8Size + size r

@[simp] theorem size_nil : size [] = 0 := rfl

@[simp] theorem size_cons (c : Char) (r : Text) : size (c :: r) = c.utf8Size + size r := rfl

@[simp] theorem size_append (s t : Text) : size (s ++ t) = size s + size t := by
  induction s with
  | nil => simp
  | cons c r ih => simp [ih, Nat.add_assoc]

theorem size_pos {s : Text} (h : s ≠ []) : 0 < size s := by
  obtain ⟨c, r, rfl⟩ := List.exists_cons_of_ne_nil h
  have := c.utf8Size_pos
  rw [size_cons]
  omega

/-- The bytes of the UTF-8 encoding. -/
def utf8 (s : Text) : List UInt8 :=
  s.flatMap String.utf8EncodeChar

/-- The text with each ASCII capital made small. -/
def lowerAscii (s : Text) : Text :=
  s.map Char.toLower

/-! ## Cutting at a mark -/

/-- What follows `mark` in a text that begins with it. -/
def after? : Text → Text → Option Text
  | [], s => some s
  | _ :: _, [] => none
  | m :: mark, c :: r => if m = c then after? mark r else none

theorem after?_eq {mark s rest : Text} (h : after? mark s = some rest) : s = mark ++ rest := by
  induction mark generalizing s with
  | nil => exact Option.some.inj h
  | cons m ms ih =>
    cases s with
    | nil => exact nomatch h
    | cons c r =>
      by_cases hc : m = c
      · rw [after?, if_pos hc] at h
        rw [ih h, hc, List.cons_append]
      · rw [after?, if_neg hc] at h
        exact nomatch h

theorem after?_append (mark rest : Text) : after? mark (mark ++ rest) = some rest := by
  induction mark with
  | nil => rfl
  | cons m ms ih => rw [List.cons_append, after?, if_pos rfl, ih]

theorem after?_length {mark s rest : Text} (h : after? mark s = some rest) :
    s.length = mark.length + rest.length := by
  rw [after?_eq h, List.length_append]

/-- Whether the text begins with `mark`. -/
def startsWith (mark s : Text) : Bool :=
  (after? mark s).isSome

/-- The texts before and after the first occurrence of `mark`. -/
def cut (mark : Text) : Text → Option (Text × Text)
  | [] => if mark.isEmpty then some ([], []) else none
  | c :: r =>
    match after? mark (c :: r) with
    | some rest => some ([], rest)
    | none => (cut mark r).map fun p => (c :: p.1, p.2)

theorem cut_eq {mark s a b : Text} (h : cut mark s = some (a, b)) : s = a ++ mark ++ b := by
  induction s generalizing a b with
  | nil =>
    by_cases hm : mark = []
    · simp_all [cut]
    · simp [cut, hm] at h
  | cons c r ih =>
    unfold cut at h
    split at h
    · next rest hr =>
      simp only [Option.some.injEq, Prod.mk.injEq] at h
      simp [← h.1, ← h.2, after?_eq hr]
    · obtain ⟨⟨a', b'⟩, hp, he⟩ := Option.map_eq_some_iff.1 h
      simp only [Prod.mk.injEq] at he
      simp [← he.1, ← he.2, ih hp]

theorem cut_length {mark s a b : Text} (h : cut mark s = some (a, b)) :
    s.length = a.length + mark.length + b.length := by
  rw [cut_eq h, List.length_append, List.length_append]

/-- The text up to and including the first occurrence of `mark`, and the rest; all of it if there is
none. -/
def through (mark s : Text) : Text × Text :=
  match cut mark s with
  | some (a, b) => (a ++ mark, b)
  | none => (s, [])

theorem through_eq (mark s : Text) : (through mark s).1 ++ (through mark s).2 = s := by
  unfold through
  split
  · next a b h => simp [cut_eq h]
  · simp

theorem eq_of_through {mark s t u : Text} (h : through mark s = (t, u)) : s = t ++ u := by
  rw [← through_eq mark s, h]

theorem through_rest_length (mark s : Text) : (through mark s).2.length ≤ s.length := by
  have h := congrArg List.length (through_eq mark s)
  rw [List.length_append] at h
  omega

/-! ## Runs of characters -/

/-- The longest run of characters in `p` at the head, and the rest. -/
def run (p : Char → Bool) (s : Text) : Text × Text :=
  (s.takeWhile p, s.dropWhile p)

theorem run_eq (p : Char → Bool) (s : Text) : (run p s).1 ++ (run p s).2 = s :=
  List.takeWhile_append_dropWhile

theorem eq_of_run {p : Char → Bool} {s t u : Text} (h : run p s = (t, u)) : s = t ++ u := by
  rw [← run_eq p s, h]

theorem run_rest_length (p : Char → Bool) (s : Text) : (run p s).2.length ≤ s.length := by
  have h := congrArg List.length (run_eq p s)
  rw [List.length_append] at h
  omega

/-- The text without the run of characters in `p` at its end. -/
def trimEndBy (p : Char → Bool) (s : Text) : Text :=
  (s.reverse.dropWhile p).reverse

/-- The text without the runs of characters in `p` at its ends. -/
def trimBy (p : Char → Bool) (s : Text) : Text :=
  trimEndBy p (s.dropWhile p)

/-- The parts before and after the first `c`. -/
def splitOnce (c : Char) (s : Text) : Option (Text × Text) :=
  cut [c] s

/-- The parts between the occurrences of `c`, at least one. -/
def splitAll (c : Char) : Text → List Text
  | [] => [[]]
  | d :: r =>
    if d = c then [] :: splitAll c r
    else
      match splitAll c r with
      | [] => [[d]]
      | p :: ps => (d :: p) :: ps

/-- The parts joined by `sep`. -/
def join (sep : Text) (parts : List Text) : Text :=
  sep.intercalate parts

/-! ## Byte offsets -/

/-- The leading characters that start before byte `n`, and the rest. -/
def splitAtByte : Nat → Text → Text × Text
  | _, [] => ([], [])
  | 0, c :: r => ([], c :: r)
  | n + 1, c :: r =>
    let p := splitAtByte (n + 1 - c.utf8Size) r
    (c :: p.1, p.2)

/-- The decimal digits of a number. -/
def ofNat (n : Nat) : Text :=
  Nat.toDigits 10 n

end Text

end Stencil
