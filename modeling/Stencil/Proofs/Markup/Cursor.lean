import Stencil.Markup.Reader
import Stencil.Proofs.Text.Bytes
/-!
Scanning a text by byte offsets.

A scanner that holds an offset, and not the rest of the text, can go wrong where a reader of the rest
cannot: it can look beyond the text, cut a character in two, or stay where it is.  Here all of this is
checked.  `At` says what stands at an offset; from it follows what each access gives, and so that the
access is in bounds.
-/

namespace Stencil

/-- Why a scan has no result. -/
inductive Stop
  /-- An offset is not in the text or, of a slice, not between two characters. -/
  | outOfBounds
  /-- A loop or a recursion does not get on, or leaves the text. -/
  | stalled
  | disallowed (d : Disallowed)
  deriving DecidableEq, Repr

abbrev Scan (α : Type) := Except Stop α

namespace Scan

section Access

variable {α β : Type}

theorem ok_bind (a : α) (f : α → Scan β) : ((Except.ok a : Scan α) >>= f) = f a := rfl

/-- The text from an offset on. -/
def sliceFrom (s : Text) (i : Nat) : Scan Text :=
  if Text.size (Text.splitAtByte i s).1 = i then .ok (Text.splitAtByte i s).2
  else .error .outOfBounds

/-- The text between two offsets. -/
def slice (s : Text) (i j : Nat) : Scan Text :=
  if i ≤ j ∧ Text.size (Text.splitAtByte j s).1 = j then sliceFrom (Text.splitAtByte j s).1 i
  else .error .outOfBounds

/-- Where `mark` first occurs from an offset on. -/
def find (s : Text) (i : Nat) (mark : Text) : Scan (Option Nat) := do
  let rest ← sliceFrom s i
  .ok ((Text.cut mark rest).map fun p => i + Text.size p.1)

/-- The end of what `mark` closes from an offset on; the end of the text if nothing does. -/
def skipPast (s : Text) (i : Nat) (mark : Text) : Scan Nat := do
  match ← find s i mark with
  | some j => .ok (j + Text.size mark)
  | none => .ok (Text.size s)

/-- The byte at an offset, if there is one, as the character with its code.  The offset may lie inside a
character. -/
def byte? (s : Text) (i : Nat) : Option Char :=
  (Text.utf8 s)[i]?.map Text.byteChar

def byte (s : Text) (i : Nat) : Scan Char :=
  match byte? s i with
  | some c => .ok c
  | none => .error .outOfBounds

/-- The bytes from an offset on. -/
def bytesFrom (s : Text) (i : Nat) : Scan (List UInt8) :=
  if i ≤ (Text.utf8 s).length then .ok ((Text.utf8 s).drop i) else .error .outOfBounds

/-- Whether the bytes of `mark` stand at an offset. -/
def stands (s : Text) (i : Nat) (mark : Text) : Scan Bool := do
  .ok ((Text.utf8 mark).isPrefixOf (← bytesFrom s i))

/-- Both of two tests; the second is made only if the first succeeds. -/
def both (test : Scan Bool) (test' : Scan Bool) : Scan Bool := do
  if ← test then test' else .ok false

/-- Whether the end tag of the element `name` stands at an offset of a text in small letters. -/
def isEndTag (lower : Text) (i : Nat) (name : Text) : Scan Bool :=
  both (stands lower i ['<', '/']) <| both (stands lower (i + 2) name) <|
    .ok (match byte? lower (i + 2 + Text.size name) with
      | none => true
      | some c => c = '>' || Text.isAsciiBlank c)

/-- Goes on at `j` after `i`. -/
def onward (s : Text) (i j : Nat) (go : i < j ∧ j ≤ Text.size s → Scan α) : Scan α :=
  if h : i < j ∧ j ≤ Text.size s then go h else .error .stalled

/-- Moves on from an offset as long as `next` gives another. -/
def walk (s : Text) (next : Nat → Scan (Option Nat)) (i : Nat) : Scan Nat :=
  if i < Text.size s then do
    match ← next i with
    | none => .ok i
    | some j => onward s i j fun _ => walk s next j
  else .ok i
termination_by Text.size s - i
decreasing_by omega

/-- Moves on over the bytes that satisfy `p`. -/
def skip (p : Char → Bool) (s : Text) (i : Nat) : Scan Nat :=
  walk s (fun i => do .ok (if p (← byte s i) then some (i + 1) else none)) i

end Access

/-! ## What stands at an offset -/

/-- At the offset `i` of the text `s` stands `r`. -/
def At (s : Text) (i : Nat) (r : Text) : Prop :=
  ∃ a, s = a ++ r ∧ Text.size a = i

variable {s t r x mark name : Text} {i j k : Nat} {c d : Char} {p : Char → Bool}

theorem at_zero (s : Text) : At s 0 s :=
  ⟨[], rfl, rfl⟩

theorem sliceFrom_eq_ok_iff : sliceFrom s i = .ok r ↔ At s i r := by
  unfold sliceFrom
  constructor
  · intro h
    split at h
    · next hi =>
      refine ⟨_, ?_, hi⟩
      rw [← Except.ok.inj h, Text.splitAtByte_append]
    · exact nomatch h
  · rintro ⟨a, rfl, rfl⟩
    rw [Text.splitAtByte_size, if_pos rfl]

/-- A slice begins and ends between two characters of the text, and its end is not before its start. -/
theorem slice_eq_ok_iff : slice s i j = .ok t ↔
    ∃ a b, s = a ++ t ++ b ∧ Text.size a = i ∧ Text.size (a ++ t) = j := by
  unfold slice
  constructor
  · intro h
    split at h
    · next hj =>
      obtain ⟨a, ha, hi⟩ := sliceFrom_eq_ok_iff.1 h
      refine ⟨a, (Text.splitAtByte j s).2, ?_, hi, ?_⟩
      · rw [← ha, Text.splitAtByte_append]
      · rw [← ha, hj.2]
    · exact nomatch h
  · rintro ⟨a, b, rfl, rfl, rfl⟩
    have hle : Text.size a ≤ Text.size (a ++ t) := by
      rw [Text.size_append]
      exact Nat.le_add_right _ _
    rw [Text.splitAtByte_size, if_pos ⟨hle, rfl⟩]
    exact sliceFrom_eq_ok_iff.2 ⟨a, rfl, rfl⟩

/-- The second byte of a character is no place to cut. -/
example : slice "aü".toList 0 2 = .error .outOfBounds ∧ slice "aü".toList 1 3 = .ok ['ü'] :=
  ⟨rfl, rfl⟩

namespace At

theorem size_eq (h : At s i r) : i + Text.size r = Text.size s := by
  obtain ⟨a, rfl, rfl⟩ := h
  exact (Text.size_append a r).symm

theorem lt_of_ne_nil (h : At s i r) (hr : r ≠ []) : i < Text.size s := by
  have := h.size_eq
  have := Text.size_pos hr
  omega

theorem append (h : At s i (t ++ r)) : At s (i + Text.size t) r := by
  obtain ⟨a, rfl, rfl⟩ := h
  exact ⟨a ++ t, by rw [List.append_assoc], Text.size_append a t⟩

theorem of_eq (h : At s i x) (hx : x = t ++ r) : At s (i + Text.size t) r :=
  (hx ▸ h).append

theorem past (h : At s i r) (mark : Text) :
    At s (i + Text.size (Text.through mark r).1) (Text.through mark r).2 :=
  h.of_eq (Text.through_eq mark r).symm

theorem cut (h : At s i r) (hc : Text.cut mark r = some (t, x)) :
    At s (i + Text.size t + Text.size mark) x :=
  (h.of_eq ((Text.cut_eq hc).trans (List.append_assoc t mark x))).append

theorem le (h : At s i r) : i ≤ Text.size s := by
  have := h.size_eq
  omega

theorem cons (h : At s i (c :: r)) : At s (i + c.utf8Size) r :=
  h.append (t := [c])

theorem slice (h : At s i (t ++ r)) : slice s i (i + Text.size t) = .ok t := by
  obtain ⟨a, rfl, rfl⟩ := h
  exact slice_eq_ok_iff.2 ⟨a, r, by rw [List.append_assoc], rfl, Text.size_append a t⟩

theorem slice_of_eq (h : At s i x) (hx : x = t ++ r) : Scan.slice s i (i + Text.size t) = .ok t :=
  (hx ▸ h).slice

theorem slice_cut (h : At s i r) (hc : Text.cut mark r = some (t, x)) :
    Scan.slice s i (i + Text.size t) = .ok t :=
  h.slice_of_eq ((Text.cut_eq hc).trans (List.append_assoc t mark x))

theorem lower (h : At s i r) : At (Text.lowerAscii s) i (Text.lowerAscii r) := by
  obtain ⟨a, rfl, rfl⟩ := h
  exact ⟨Text.lowerAscii a, Text.lowerAscii_append a r, Text.size_lowerAscii a⟩

theorem drop_utf8 (h : At s i r) : (Text.utf8 s).drop i = Text.utf8 r := by
  obtain ⟨a, rfl, rfl⟩ := h
  rw [Text.utf8_append, ← Text.length_utf8, List.drop_left]

theorem getElem?_utf8 (h : At s i r) (k : Nat) : (Text.utf8 s)[i + k]? = (Text.utf8 r)[k]? := by
  rw [← h.drop_utf8, List.getElem?_drop]

/-! ### Accesses -/

theorem find (h : At s i r) (mark : Text) :
    find s i mark = .ok ((Text.cut mark r).map fun p => i + Text.size p.1) := by
  rw [Scan.find, sliceFrom_eq_ok_iff.2 h]
  rfl

theorem skipPast (h : At s i r) (mark : Text) :
    skipPast s i mark = .ok (i + Text.size (Text.through mark r).1) := by
  rw [Scan.skipPast, h.find mark, ok_bind, Text.through]
  cases hc : Text.cut mark r with
  | none => simp [h.size_eq]
  | some p => simp [Nat.add_assoc]

theorem byte?_nil (h : At s i []) : byte? s i = none := by
  have hb := h.getElem?_utf8 0
  rw [Nat.add_zero] at hb
  rw [byte?, hb]
  rfl

/-- Each byte of a character shows as the character does. -/
theorem byte? (h : At s i (c :: r)) (hk : k < c.utf8Size) :
    ∃ d, byte? s (i + k) = some d ∧ Text.ShowsAs c d := by
  rw [← String.length_utf8EncodeChar] at hk
  refine ⟨_, ?_, Text.ShowsAs.codes (List.getElem_mem hk)⟩
  rw [Scan.byte?, h.getElem?_utf8, Text.utf8_cons, List.getElem?_append_left hk,
    List.getElem?_eq_getElem hk]
  rfl

theorem byte (h : At s i (c :: r)) (hk : k < c.utf8Size) :
    ∃ d, byte s (i + k) = .ok d ∧ Text.ShowsAs c d := by
  obtain ⟨d, hd, hs⟩ := h.byte? hk
  exact ⟨d, by rw [Scan.byte, hd], hs⟩

theorem byte_head (h : At s i (c :: r)) : ∃ d, Scan.byte s i = .ok d ∧ Text.ShowsAs c d :=
  h.byte c.utf8Size_pos

theorem byte_ascii (h : At s i (c :: r)) (hc : c.toNat < 128) : Scan.byte s i = .ok c := by
  obtain ⟨d, hd, hs⟩ := h.byte_head
  rwa [(hs.eq_iff hc).2 rfl] at hd

theorem bytesFrom (h : At s i r) : bytesFrom s i = .ok (Text.utf8 r) := by
  rw [Scan.bytesFrom, if_pos, h.drop_utf8]
  rw [Text.length_utf8, ← h.size_eq]
  exact Nat.le_add_right _ _

theorem stands (h : At s i r) (mark : Text) : stands s i mark = .ok (Text.startsWith mark r) := by
  rw [Scan.stands, h.bytesFrom, ok_bind, Text.isPrefixOf_utf8]

end At

theorem stands_of_le (h : i ≤ Text.size s) (mark : Text) :
    stands s i mark = .ok ((Text.utf8 mark).isPrefixOf ((Text.utf8 s).drop i)) := by
  rw [stands, bytesFrom, Text.length_utf8, if_pos h, ok_bind]

theorem byte?_of_begins (hd : d.toNat < 128) (h : Text.utf8 (d :: mark) <+: (Text.utf8 s).drop i) :
    byte? s i = some d := by
  obtain ⟨e, he, hs⟩ := (at_zero (d :: mark)).byte? d.utf8Size_pos
  rw [(hs.eq_iff hd).2 rfl, Nat.add_zero] at he
  have hpos : 0 < (Text.utf8 (d :: mark)).length := by
    rw [Text.length_utf8]
    exact Text.size_pos (List.cons_ne_nil d mark)
  obtain ⟨r, hr⟩ := h
  rw [← he, byte?, byte?, ← List.getElem?_append_left hpos, hr, List.getElem?_drop, Nat.add_zero]

/-- A mark that does not stand at a character does not stand amid its bytes. -/
theorem At.stands_amid (h : At s i (c :: r)) (hk : k < c.utf8Size) (hd : d.toNat < 128)
    (hn : Text.startsWith (d :: mark) (c :: r) = false) : Scan.stands s (i + k) (d :: mark) = .ok false := by
  have hle : i + k ≤ Text.size s := by
    have := h.size_eq
    rw [Text.size_cons] at this
    omega
  rw [stands_of_le hle, Except.ok.injEq, Bool.eq_false_iff]
  intro ht
  obtain ⟨e, he, hs⟩ := h.byte? hk
  obtain rfl := Option.some.inj (he.symm.trans (byte?_of_begins hd (List.isPrefixOf_iff_prefix.1 ht)))
  obtain rfl := (hs.eq_iff hd).1 rfl
  -- the character is its only byte
  obtain rfl : k = 0 := by
    have : c.utf8Size = 1 := Text.utf8Size_of_lt hd
    omega
  have hs := h.stands (c :: mark)
  rw [← Nat.add_zero i, stands_of_le hle, ht, hn] at hs
  exact nomatch hs

/-! ### End tags -/

theorem endsName_not_alpha (c : Char) (h : (c = '>' || Text.isAsciiBlank c) = true) :
    c.isAlpha = false := by
  simp only [Text.isAsciiBlank, Bool.or_eq_true, decide_eq_true_eq] at h
  rcases h with rfl | (((rfl | rfl) | rfl) | rfl) | rfl <;> decide

theorem endsName_inAscii : Text.InAscii fun c => c = '>' || Text.isAsciiBlank c := by
  intro c h
  rw [Bool.or_eq_true, decide_eq_true_eq] at h
  rcases h with rfl | h
  · decide
  · exact Text.inAscii_isAsciiBlank c h

theorem both_true (test : Scan Bool) : both (.ok true) test = test := rfl

theorem both_false (test : Scan Bool) : both (.ok false) test = .ok false := rfl

theorem both_no (b : Bool) : both (.ok b) (.ok false) = .ok false := by
  cases b <;> rfl

theorem both_ok (b b' : Bool) : both (.ok b) (.ok b') = .ok (b && b') := by
  cases b <;> rfl

theorem At.isEndTag (h : At s i r) (name : Text) :
    isEndTag (Text.lowerAscii s) i name = .ok (Markup.isEndTag name r) := by
  have hslash := h.lower.stands ['<', '/']
  rw [Text.startsWith_lowerAscii (by decide)] at hslash
  rw [Scan.isEndTag, Markup.isEndTag, hslash, Text.startsWith]
  cases ha : Text.after? ['<', '/'] r with
  | none => exact both_false _
  | some r' =>
    rw [Text.after?_eq ha] at h
    have hname := h.append.lower.stands name
    rw [Text.startsWith_lowerAscii_name] at hname
    rw [Option.isSome_some, both_true, show i + 2 = i + Text.size ['<', '/'] from rfl, hname]
    by_cases hn : Text.lowerAscii (r'.take name.length) = name
    · have hrest : At (Text.lowerAscii s) (i + Text.size ['<', '/'] + Text.size name)
          (Text.lowerAscii (r'.drop name.length)) := by
        refine At.append (t := name) ?_
        have := h.append.lower
        rwa [← List.take_append_drop name.length r', Text.lowerAscii_append, hn] at this
      rw [decide_eq_true hn, both_true]
      simp only [hn, decide_true, Bool.true_and]
      cases hd : r'.drop name.length with
      | nil =>
        rw [hd] at hrest
        rw [hrest.byte?_nil]
      | cons c x =>
        rw [hd] at hrest
        obtain ⟨d, hd, hs⟩ := hrest.byte? (Char.utf8Size_pos _)
        rw [Nat.add_zero] at hd
        have hc : (c.toLower = '>' || Text.isAsciiBlank c.toLower) = (c = '>' || Text.isAsciiBlank c) :=
          Text.toLower_congr (p := fun c => c = '>' || Text.isAsciiBlank c) endsName_not_alpha c
        rw [hd]
        exact congrArg Except.ok ((hs.congr endsName_inAscii).trans hc)
    · simp [hn, both_false]

/-- No end tag stands amid the bytes of a character. -/
theorem At.isEndTag_amid (h : At s i (c :: r)) (hk : k < c.utf8Size)
    (hn : Markup.isEndTag name (c :: r) = false) :
    Scan.isEndTag (Text.lowerAscii s) (i + k) name = .ok false := by
  rcases Nat.eq_zero_or_pos k with rfl | hpos
  · rw [Nat.add_zero, h.isEndTag name, hn]
  · have hne : Text.startsWith ['<', '/'] (Text.lowerAscii (c :: r)) = false := by
      rw [Bool.eq_false_iff, ne_eq, Text.startsWith_lowerAscii (by decide), Text.startsWith_iff]
      intro hp
      obtain ⟨rfl, -⟩ := List.cons_prefix_cons.1 hp
      exact absurd hk (Nat.not_lt.2 hpos)
    rw [Scan.isEndTag, h.lower.stands_amid (by rwa [Text.utf8Size_toLower]) (by decide) hne, both_false]

/-! ## Walks -/

theorem onward_of {α : Type} {go : i < j ∧ j ≤ Text.size s → Scan α}
    (h : i < j ∧ j ≤ Text.size s) :
    onward s i j go = go h :=
  dif_pos h

variable {next : Nat → Scan (Option Nat)}

theorem walk_of_le (h : Text.size s ≤ i) : walk s next i = .ok i := by
  rw [walk, if_neg (Nat.not_lt.2 h)]

theorem walk_stop (h : next i = .ok none) : walk s next i = .ok i := by
  rw [walk]
  split
  · rw [h]
    rfl
  · rfl

theorem walk_onward (h : next i = .ok (some j)) (hij : i < j) (hj : j ≤ Text.size s) :
    walk s next i = walk s next j := by
  rw [walk, if_pos (Nat.lt_of_lt_of_le hij hj), h]
  exact onward_of ⟨hij, hj⟩

/-- A walk that passes every byte of a character passes the character. -/
theorem At.walk_char (h : At s i (c :: r))
    (hnext : ∀ k, k < c.utf8Size → next (i + k) = .ok (some (i + k + 1))) :
    walk s next i = walk s next (i + c.utf8Size) := by
  have hle : i + c.utf8Size ≤ Text.size s := by
    have := h.cons.size_eq
    omega
  have upTo (k : Nat) (hk : k ≤ c.utf8Size) : walk s next i = walk s next (i + k) := by
    induction k with
    | zero => rfl
    | succ k ih =>
      rw [ih (by omega), walk_onward (hnext k (by omega)) (Nat.lt_succ_self _) (by omega)]
      rfl
  exact upTo _ (Nat.le_refl _)

theorem At.skip (hp : Text.InAscii p) (h : At s i r) :
    skip p s i = .ok (i + Text.size (Text.run p r).1) := by
  induction r generalizing i with
  | nil =>
    have := h.size_eq
    exact walk_of_le (by simp_all)
  | cons c r ih =>
    rw [Scan.skip]
    by_cases hc : p c = true
    · rw [h.walk_char fun k hk => ?_]
      · rw [Text.run, List.takeWhile_cons_of_pos hc, Text.size_cons, ← Nat.add_assoc]
        exact ih h.cons
      · obtain ⟨d, hd, hs⟩ := h.byte hk
        rw [hd, ok_bind, hs.congr hp, if_pos hc]
    · obtain ⟨d, hd, hs⟩ := h.byte_head
      rw [walk_stop (by rw [hd, ok_bind, hs.congr hp, if_neg hc]), Text.run,
        List.takeWhile_cons_of_neg hc]
      rfl

end Scan

end Stencil
