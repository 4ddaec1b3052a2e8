import Stencil.Json
/-!
Reading JSON documents, strictly: no comments, no trailing commas, nothing after the value.  Of two
fields with one name the later counts.  Values nest to a depth of 127.
-/

namespace Stencil.Json

/-- Where and why a document is malformed. -/
inductive ReadFault
  | endOfText
  | unexpected (c : Char)
  | badNumber
  | badString
  | tooDeep
  | trailing
  deriving DecidableEq, Repr

namespace ReadFault

def message : ReadFault → Text
  | endOfText => "unexpected end of the document".toList
  | unexpected c => "unexpected character ".toList ++ [c]
  | badNumber => "number out of range or malformed".toList
  | badString => "malformed string".toList
  | tooDeep => "nesting too deep".toList
  | trailing => "text after the end of the document".toList

end ReadFault

def isSpace (c : Char) : Bool :=
  c = ' ' || c = '\n' || c = '\t' || c = '\r'

def skip (s : Text) : Text :=
  s.dropWhile isSpace

/-! ## Numbers -/

def digit (c : Char) : Nat :=
  c.toNat - '0'.toNat

/-- A significand of 64 bits and the power of ten that goes with it. -/
structure Significand where
  value : Nat
  power : Int

/-- Takes the digits before the point; the ones that no longer fit count as powers of ten. -/
def Significand.integral (digits : Text) : Significand :=
  digits.foldl (fun s c =>
    if s.power = 0 && s.value * 10 + digit c < Nat.pow 2 64 then ⟨s.value * 10 + digit c, 0⟩
    else ⟨s.value, s.power + 1⟩) ⟨0, 0⟩

/-- Takes the digits after the point, as long as they fit. -/
def Significand.fractional (s : Significand) (digits : Text) : Significand :=
  (digits.foldl (fun (p : Significand × Bool) c =>
    if p.2 && p.1.value * 10 + digit c < Nat.pow 2 64 then
      (⟨p.1.value * 10 + digit c, p.1.power - 1⟩, true)
    else (p.1, false)) (s, true)).1

/-- The float of a significand and a power of ten: both are rounded, then multiplied or divided. -/
def scale : Nat → Float → Int → Option Float
  | 0, _, _ => none
  | fuel + 1, f, e =>
    if e.natAbs ≤ 308 then
      let p := Float.ofScientific 1 false e.natAbs
      let r := if 0 ≤ e then f * p else f / p
      if r.isInf then none else some r
    else if f == 0.0 then some f
    else if 0 ≤ e then none
    else scale fuel (f / Float.ofScientific 1 false 308) (e + 308)

def ofSignificand (negative : Bool) (s : Significand) : Except ReadFault Number :=
  match scale (s.power.natAbs + 1) (Float.ofNat s.value) s.power with
  | none => .error .badNumber
  | some f => .ok (.real (if negative then -f else f))

/-- An exponent in writing: sign and digits. -/
def readExponent (s : Text) : Except ReadFault (Int × Text) :=
  let (sign, r) : Int × Text :=
    match s with
    | '+' :: r => (1, r)
    | '-' :: r => (-1, r)
    | r => (1, r)
  let (digits, rest) := Text.run Char.isDigit r
  if digits.isEmpty then .error .badNumber
  else .ok (sign * (digits.foldl (fun n c => min (n * 10 + digit c) 100000) 0 : Nat), rest)

def readNumber (s : Text) : Except ReadFault (Number × Text) := do
  let (negative, r) :=
    match s with
    | '-' :: r => (true, r)
    | r => (false, r)
  let (whole, r) := Text.run Char.isDigit r
  if whole.isEmpty || (whole.length > 1 && whole.head? = some '0') then .error .badNumber
  else
    let sig := Significand.integral whole
    let (point, fraction, r) :=
      match r with
      | '.' :: r => (true, Text.run Char.isDigit r)
      | r => (false, ([], r))
    if point && fraction.isEmpty then .error .badNumber
    else
      let sig := sig.fractional fraction
      match r with
      | c :: r' =>
        if c = 'e' || c = 'E' then do
          let (e, rest) ← readExponent r'
          let n ← ofSignificand negative ⟨sig.value, sig.power + e⟩
          return (n, rest)
        else return (← plain negative point sig, r)
      | [] => return (← plain negative point sig, [])
where
  plain (negative point : Bool) (sig : Significand) : Except ReadFault Number :=
    if point || sig.power ≠ 0 then ofSignificand negative sig
    else if !negative then .ok (.integer sig.value)
    else if sig.value = 0 || sig.value > Nat.pow 2 63 then ofSignificand negative sig
    else .ok (.integer (-(sig.value : Int)))

/-! ## Strings -/

/-- The number that four hexadecimal digits write. -/
def hex4 : Text → Option (Nat × Text)
  | a :: b :: c :: d :: r => do
    let a ← Text.Hex.value? a
    let b ← Text.Hex.value? b
    let c ← Text.Hex.value? c
    let d ← Text.Hex.value? d
    return (((a * 16 + b) * 16 + c) * 16 + d, r)
  | _ => none

theorem hex4_length {s r : Text} {n : Nat} (h : hex4 s = some (n, r)) : r.length < s.length := by
  unfold hex4 at h
  split at h
  · simp only [Option.bind_eq_bind, Option.bind_eq_some_iff, Option.pure_def, Option.some.injEq,
      Prod.mk.injEq] at h
    obtain ⟨_, _, _, _, _, _, _, _, _, rfl⟩ := h
    simp
    omega
  · simp at h

/-- The character of an escape sequence of code units; `s` follows the mark of the first. -/
def readUnits (s : Text) : Option (Char × Text) :=
  match hex4 s with
  | none => none
  | some (hi, r) =>
    if 0xD800 ≤ hi && hi < 0xDC00 then
      match r with
      | '\\' :: 'u' :: r' =>
        match hex4 r' with
        | none => none
        | some (lo, r'') =>
          if 0xDC00 ≤ lo && lo < 0xE000 then
            some (Char.ofNat (0x10000 + (hi - 0xD800) * 0x400 + (lo - 0xDC00)), r'')
          else none
      | _ => none
    else if 0xDC00 ≤ hi && hi < 0xE000 then none
    else some (Char.ofNat hi, r)

theorem readUnits_length {s r : Text} {c : Char} (h : readUnits s = some (c, r)) :
    r.length < s.length := by
  unfold readUnits at h
  split at h
  · simp at h
  · next hi r₁ h₁ =>
    have l₁ := hex4_length h₁
    split at h
    · split at h
      · split at h
        · simp at h
        · next lo r₂ h₂ =>
          have l₂ := hex4_length h₂
          split at h
          · simp only [Option.some.injEq, Prod.mk.injEq] at h
            simp only [List.length_cons] at l₁
            rw [← h.2]
            omega
          · simp at h
      · simp at h
    · split at h
      · simp at h
      · simp only [Option.some.injEq, Prod.mk.injEq] at h
        rw [← h.2]
        exact l₁

/-- The character that a letter after a backslash stands for. -/
def unescape : Char → Option Char
  | '"' => some '"'
  | '\\' => some '\\'
  | '/' => some '/'
  | 'b' => some '\x08'
  | 'f' => some '\x0c'
  | 'n' => some '\n'
  | 'r' => some '\r'
  | 't' => some '\t'
  | _ => none

/-- The text of a string literal; `s` follows the opening quotation mark. -/
def readString (s : Text) : Except ReadFault (Text × Text) :=
  match s with
  | [] => .error .endOfText
  | '"' :: r => .ok ([], r)
  | '\\' :: 'u' :: r =>
    match _h : readUnits r with
    | none => .error .badString
    | some (c, r') => (readString r').map fun p => (c :: p.1, p.2)
  | '\\' :: e :: r =>
    match unescape e with
    | none => .error .badString
    | some c => (readString r).map fun p => (c :: p.1, p.2)
  | c :: r =>
    if c.toNat < 32 || c = '\\' then .error .badString
    else (readString r).map fun p => (c :: p.1, p.2)
termination_by s.length
decreasing_by
  · have h := readUnits_length _h
    simp only [List.length_cons]
    omega
  · simp only [List.length_cons]
    omega
  · simp

/-! ## Values -/

/-- A fixed word at the head of a text. -/
def readWord (word : Text) (v : Json) (s : Text) : Except ReadFault (Json × Text) :=
  match Text.after? word s with
  | some r => .ok (v, r)
  | none => .error .badString

mutual

/-- The value at the head of a text; `depth` bounds the nesting, `fuel` the number of parts. -/
def readValue (fuel depth : Nat) (s : Text) : Except ReadFault (Json × Text) :=
  match fuel with
  | 0 => .error .tooDeep
  | fuel + 1 =>
    match skip s with
    | [] => .error .endOfText
    | '"' :: r => (readString r).map fun p => (string p.1, p.2)
    | '[' :: r =>
      match depth with
      | 0 => .error .tooDeep
      | depth + 1 =>
        match skip r with
        | ']' :: r' => .ok (array [], r')
        | r' => (readItems fuel depth r').map fun p => (array p.1, p.2)
    | '{' :: r =>
      match depth with
      | 0 => .error .tooDeep
      | depth + 1 =>
        match skip r with
        | '}' :: r' => .ok (object [], r')
        | r' => (readFields fuel depth r').map fun p => (object (Table.ofPairs p.1), p.2)
    | 'n' :: r => readWord "null".toList null ('n' :: r)
    | 't' :: r => readWord "true".toList (bool true) ('t' :: r)
    | 'f' :: r => readWord "false".toList (bool false) ('f' :: r)
    | c :: r =>
      if c = '-' || c.isDigit then (readNumber (c :: r)).map fun p => (number p.1, p.2)
      else .error (.unexpected c)

/-- The items of an array up to its closing bracket. -/
def readItems (fuel depth : Nat) (s : Text) : Except ReadFault ((List Json) × Text) :=
  match fuel with
  | 0 => .error .tooDeep
  | fuel + 1 => do
    let (v, r) ← readValue fuel depth s
    match skip r with
    | ']' :: r' => return ([v], r')
    | ',' :: r' =>
      let (more, rest) ← readItems fuel depth r'
      return (v :: more, rest)
    | [] => .error .endOfText
    | c :: _ => .error (.unexpected c)

/-- The fields of an object up to its closing brace. -/
def readFields (fuel depth : Nat) (s : Text) : Except ReadFault ((List (Text × Json)) × Text) :=
  match fuel with
  | 0 => .error .tooDeep
  | fuel + 1 =>
    match skip s with
    | '"' :: r => do
      let (k, r) ← readString r
      match skip r with
      | ':' :: r =>
        let (v, r) ← readValue fuel depth r
        match skip r with
        | '}' :: r' => return ([(k, v)], r')
        | ',' :: r' =>
          let (more, rest) ← readFields fuel depth r'
          return ((k, v) :: more, rest)
        | [] => .error .endOfText
        | c :: _ => .error (.unexpected c)
      | [] => .error .endOfText
      | c :: _ => .error (.unexpected c)
    | [] => .error .endOfText
    | c :: _ => .error (.unexpected c)

end

/-- The document that a text writes. -/
def parse (s : Text) : Except ReadFault Json := do
  let (v, rest) ← readValue (2 * s.length + 2) 127 s
  if (skip rest).isEmpty then return v else .error .trailing

end Stencil.Json
