import Stencil.Proofs.Markup.Sweep
import Stencil.Proofs.Syntax.Tag
/-!
Tokens, read by byte offsets.

The lexer goes through the source byte by byte, jumps over what a mark closes, and keeps the offset from
which on the source is literal text.  All of its accesses are checked (`Stop`).  One round always gets on,
wherever it begins (`round_onward`), and the tokens are those that the reader of the rest of the text
gives (`lex_eq`): so no check ever fails.
-/

namespace Stencil

open Scan

/-- A stretch of a text, from an offset up to another. -/
structure Span where
  start : Nat
  stop : Nat
  deriving DecidableEq, Repr

def Slice.span (s : Slice) : Span :=
  ⟨s.start, s.stop⟩

/-- A token by its offsets. -/
inductive Lexeme
  | text (whole : Span)
  | tag (kind : TagKind) (inner whole : Span)
  | raw (helper content : Text) (whole : Span)
  deriving DecidableEq, Repr

/-- The token by its offsets. -/
def Token.lexeme (t : Token) : Lexeme :=
  match t with
  | text _ => .text t.whole.span
  | tag u => .tag u.kind u.inner.span t.whole.span
  | raw _ b => .raw b.helper b.content t.whole.span

/-- A token that has been read, and the offset after it. -/
abbrev Lexed := Except SyntaxFault (Lexeme × Nat)

namespace Lexer

/-! ## Tags and raw blocks -/

/-- The first offset of a stretch at which there is no blank. -/
def trimStart (s : Text) (i j : Nat) : Scan Nat :=
  if i < j then do
    if Text.isAsciiBlank (← byte s i) then trimStart s (i + 1) j else .ok i
  else .ok i
termination_by j - i

/-- The last offset of a stretch before which there is no blank. -/
def trimStop (s : Text) (i j : Nat) : Scan Nat :=
  if i < j then do
    if Text.isAsciiBlank (← byte s (j - 1)) then trimStop s i (j - 1) else .ok j
  else .ok j
termination_by j

/-- The stretch between two offsets without the blanks at its ends. -/
def trim (s : Text) (i j : Nat) : Scan Span := do
  let start ← trimStart s i j
  let stop ← trimStop s start j
  .ok ⟨start, stop⟩

/-- The comment in double dashes whose content begins at `i`; the tag begins at `start`. -/
def comment (s : Text) (start i : Nat) : Scan Lexed := do
  match ← find s i ('-' :: '-' :: close2) with
  | none => .ok (.error .unterminatedComment)
  | some close => .ok (.ok (.tag .comment ⟨i, close⟩ ⟨start, close + 4⟩, close + 4))

/-- The expression in triple braces whose content begins at `i`. -/
def triple (s : Text) (start i : Nat) : Scan Lexed := do
  match ← find s i close3 with
  | none => .ok (.error .unterminatedTriple)
  | some close =>
    let inner ← trim s i close
    .ok (.ok (.tag .unescaped inner ⟨start, close + 3⟩, close + 3))

/-- The end of a content between two offsets, before a tilde at its end. -/
def beforeTilde (s : Text) (i j : Nat) : Scan Nat := do
  if ← both (.ok (i < j)) (do .ok ((← byte s (j - 1)) = '~')) then .ok (j - 1) else .ok j

/-- Any other tag, whose content begins at `i`. -/
def plain (s : Text) (start i : Nat) : Scan Lexed := do
  match ← find s i close2 with
  | none => .ok (.error .unterminatedTag)
  | some close =>
    let content ← trim s i (← beforeTilde s i close)
    let sorted := TagKind.classify (← slice s content.start content.stop)
    let inner ← trim s (content.start + sorted.2) content.stop
    .ok (.ok (.tag sorted.1 inner ⟨start, close + 2⟩, close + 2))

/-- The tag whose opening braces stand at `start`. -/
def tag (s : Text) (start : Nat) : Scan Lexed := do
  let tilde : Text := if byte? s (start + 2) = some '~' then ['~'] else []
  let i := start + 2 + Text.size tilde
  if ← stands s i "!--".toList then comment s start (i + 3)
  else if ← both (.ok tilde.isEmpty) (stands s i ['{']) then triple s start (i + 1)
  else plain s start i

/-- The raw block whose opening braces stand at `start`. -/
def rawBlock (s : Text) (start : Nat) : Scan Lexed := do
  match ← findRawBlock s start with
  | none => .ok (.error .rawBlock)
  | some b =>
    let content ← slice s b.contentStart b.contentEnd
    .ok (.ok (.raw b.helper content ⟨start, b.stop⟩, b.stop))

end Lexer

/-! ## The lexer -/

/-- The tokens so far, the offset from which on the source is literal text, and the offset that the lexer
has come to. -/
structure Lexer where
  lexemes : List Lexeme
  textStart : Nat
  pos : Nat
  deriving DecidableEq, Repr

namespace Lexer

/-- The tokens up to an offset, with the literal text before it. -/
def lexemesTo (l : Lexer) (stop : Nat) : List Lexeme :=
  if l.textStart < stop then l.lexemes ++ [.text ⟨l.textStart, stop⟩] else l.lexemes

/-- One round of the lexer. -/
def round (s : Text) (l : Lexer) : Scan (Except SyntaxError Lexer) := do
  if ← stands s l.pos Token.escape then
    match ← find s (l.pos + 3) close2 with
    | some close => .ok (.ok { l with pos := close + 2 })
    | none => .ok (.ok { l with pos := Text.size s })
  else if ← stands s l.pos open2 then
    match ← (do if ← stands s l.pos open4 then rawBlock s l.pos else tag s l.pos) with
    | .error fault => .ok (.error ⟨fault, l.pos⟩)
    | .ok (lexeme, stop) => .ok (.ok ⟨l.lexemesTo l.pos ++ [lexeme], stop, stop⟩)
  else .ok (.ok { l with pos := l.pos + 1 })

/-- The tokens that the lexer comes to. -/
def run (s : Text) (l : Lexer) : Scan (Except SyntaxError (List Lexeme)) :=
  if l.pos < Text.size s then do
    match ← l.round s with
    | .error e => .ok (.error e)
    | .ok l' => onward s l.pos l'.pos fun _ => run s l'
  else .ok (.ok (l.lexemesTo (Text.size s)))
termination_by Text.size s - l.pos
decreasing_by omega

/-- The tokens of a source. -/
def lex (source : Text) : Scan (Except SyntaxError (List Lexeme)) :=
  run source ⟨[], 0, 0⟩

variable {s r t u rest lead tilde : Text} {start i : Nat} {c : Char}

/-! ## Blanks -/

theorem trimStart_at (h : At s i (t ++ r)) :
    trimStart s i (i + Text.size t) = .ok (i + Text.size (Text.run Text.isAsciiBlank t).1) := by
  induction t generalizing i with
  | nil =>
    rw [trimStart, if_neg (by simp)]
    rfl
  | cons c t ih =>
    have hpos := c.utf8Size_pos
    obtain ⟨d, hd, hs⟩ := h.byte_head
    rw [trimStart, if_pos (by rw [Text.size_cons]; omega), hd, ok_bind, hs.congr Text.inAscii_isAsciiBlank]
    by_cases hc : Text.isAsciiBlank c = true
    · have hone : c.utf8Size = 1 := Text.utf8Size_of_lt (Text.inAscii_isAsciiBlank c hc)
      have hnext := ih (hone ▸ At.cons h)
      rw [if_pos hc, Text.size_cons, hone, ← Nat.add_assoc, hnext, Text.run, Text.run,
        List.takeWhile_cons_of_pos hc, Text.size_cons, hone, ← Nat.add_assoc]
    · rw [if_neg hc, Text.run, List.takeWhile_cons_of_neg hc]
      rfl

theorem trimEndBy_concat (p : Char → Bool) (t : Text) (c : Char) :
    Text.trimEndBy p (t ++ [c]) = if p c then Text.trimEndBy p t else t ++ [c] := by
  rw [Text.trimEndBy, List.reverse_concat, List.dropWhile_cons]
  split
  · rfl
  · simp

theorem trimStop_at (h : At s i (t ++ r)) :
    trimStop s i (i + Text.size t) = .ok (i + Text.size (Text.trimEndBy Text.isAsciiBlank t)) := by
  induction t using List.reverseRecOn generalizing r with
  | nil =>
    rw [trimStop, if_neg (by simp)]
    rfl
  | append_singleton t c ih =>
    have hpos := c.utf8Size_pos
    rw [List.append_assoc] at h
    have hc : At s (i + Text.size t) (c :: r) := h.append
    -- the last byte of the character
    obtain ⟨d, hd, hs⟩ := hc.byte (k := c.utf8Size - 1) (by omega)
    have hlast : i + Text.size (t ++ [c]) - 1 = i + Text.size t + (c.utf8Size - 1) := by
      rw [Text.size_append, Text.size_cons, Text.size_nil]
      omega
    rw [trimStop, if_pos (by rw [Text.size_append, Text.size_cons]; omega), hlast, hd, ok_bind,
      hs.congr Text.inAscii_isAsciiBlank, trimEndBy_concat]
    by_cases hc : Text.isAsciiBlank c = true
    · have hone : c.utf8Size = 1 := Text.utf8Size_of_lt (Text.inAscii_isAsciiBlank c hc)
      rw [if_pos hc, if_pos hc, hone, Nat.sub_self, Nat.add_zero, ih h]
    · rw [if_neg hc, if_neg hc]

theorem trim_at (h : At s i (t ++ r)) :
    trim s i (i + Text.size t) = .ok (Slice.trim ⟨i, t⟩).span := by
  have ht := Text.run_eq Text.isAsciiBlank t
  have hrest : At s (i + Text.size (Text.run Text.isAsciiBlank t).1)
      ((Text.run Text.isAsciiBlank t).2 ++ r) := h.of_eq (by rw [← List.append_assoc, ht])
  have hsize : i + Text.size t = i + Text.size (Text.run Text.isAsciiBlank t).1 +
      Text.size (Text.run Text.isAsciiBlank t).2 := by
    rw [Nat.add_assoc, ← Text.size_append, ht]
  rw [trim, trimStart_at h, ok_bind, hsize, trimStop_at hrest]
  rfl

/-! ## Tags -/

/-- What the lexer gives for a tag that is read. -/
def lexed (e : Except SyntaxFault (Tag × Text)) : Lexed :=
  e.map fun p => ((Token.tag p.1).lexeme, p.1.whole.stop)

theorem comment_at (h : At s (start + Text.size lead) r) :
    comment s start (start + Text.size lead) = .ok (lexed (Tag.readComment start lead r)) := by
  rw [comment, h.find, ok_bind, Tag.readComment]
  cases Text.cut ('-' :: '-' :: close2) r with
  | none => rfl
  | some p =>
    simp only [Option.map_some, lexed, Except.map, Token.lexeme, Slice.span, Slice.stop, Token.whole]
    have h4 : Text.size ('-' :: '-' :: close2) = 4 := rfl
    simp only [Text.size_append, h4, Nat.add_assoc]

theorem triple_at (h : At s (start + Text.size lead) r) :
    triple s start (start + Text.size lead) = .ok (lexed (Tag.readTriple start lead r)) := by
  rw [triple, h.find, ok_bind, Tag.readTriple]
  cases hc : Text.cut close3 r with
  | none => rfl
  | some p =>
    have hinner : At s (start + Text.size lead) (p.1 ++ (close3 ++ p.2)) := by
      rwa [← List.append_assoc, ← Text.cut_eq hc]
    simp only [Option.map_some, trim_at hinner, ok_bind, lexed, Except.map, Token.lexeme, Slice.span,
      Slice.stop, Token.whole]
    have h3 : Text.size close3 = 3 := rfl
    simp only [Text.size_append, h3, Nat.add_assoc]

theorem dropEndTilde_concat (t : Text) (c : Char) :
    Tag.dropEndTilde (t ++ [c]) = if c = '~' then t else t ++ [c] := by
  simp [Tag.dropEndTilde]

theorem beforeTilde_at (h : At s i (t ++ r)) :
    beforeTilde s i (i + Text.size t) = .ok (i + Text.size (Tag.dropEndTilde t)) := by
  rcases List.eq_nil_or_concat' t with rfl | ⟨t, c, rfl⟩
  · simp [beforeTilde, both, ok_bind, Tag.dropEndTilde]
  · have hpos := c.utf8Size_pos
    rw [List.append_assoc] at h
    have hc : At s (i + Text.size t) (c :: r) := h.append
    obtain ⟨d, hd, hs⟩ := hc.byte (k := c.utf8Size - 1) (by omega)
    have hsize : Text.size (t ++ [c]) = Text.size t + c.utf8Size := Text.size_append t [c]
    have hlast : i + Text.size (t ++ [c]) - 1 = i + Text.size t + (c.utf8Size - 1) := by omega
    have hlt : i < i + Text.size (t ++ [c]) := by omega
    rw [beforeTilde, decide_eq_true hlt, both_true, hlast, hd, ok_bind, ok_bind, dropEndTilde_concat]
    by_cases hc : c = '~'
    · rw [decide_eq_true ((hs.eq_iff (by decide)).2 hc), if_pos rfl, if_pos hc, hc]
      rfl
    · rw [decide_eq_false (mt (hs.eq_iff (by decide)).1 hc), if_neg (by decide), if_neg hc]

/-- A sigil is as long as it has bytes. -/
theorem size_sigil (t : Text) : Text.size (t.take (TagKind.classify t).2) = (TagKind.classify t).2 := by
  unfold TagKind.classify
  split
  case h_5 => split <;> rfl
  case h_10 => split <;> rfl
  all_goals rfl

theorem exists_at_trim (h : At s i (t ++ r)) :
    ∃ x, At s (Slice.trim ⟨i, t⟩).start ((Slice.trim ⟨i, t⟩).text ++ x) := by
  obtain ⟨a, b, ht, -, -, hstart⟩ := Slice.trim_eq ⟨i, t⟩
  rw [hstart]
  exact ⟨b ++ r, h.of_eq ((congrArg (· ++ r) ht).trans (by simp))⟩

theorem plain_at (h : At s (start + Text.size lead) r) :
    plain s start (start + Text.size lead) = .ok (lexed (Tag.readPlain start lead r)) := by
  rw [plain, h.find, ok_bind, Tag.readPlain]
  cases hc : Text.cut close2 r with
  | none => rfl
  | some p =>
    obtain ⟨body, rest⟩ := p
    have hbody : At s (start + Text.size lead) (body ++ (close2 ++ rest)) := by
      rwa [← List.append_assoc, ← Text.cut_eq hc]
    obtain ⟨tl, htl, -⟩ := Tag.dropEndTilde_eq body
    have hdropped : At s (start + Text.size lead) (Tag.dropEndTilde body ++ (tl ++ (close2 ++ rest))) := by
      rwa [← List.append_assoc, ← htl]
    obtain ⟨x, hx⟩ := exists_at_trim hdropped
    simp only [Option.map_some, beforeTilde_at hbody, ok_bind, trim_at hdropped]
    generalize Slice.trim ⟨start + Text.size lead, Tag.dropEndTilde body⟩ = content at hx ⊢
    have hslice : slice s content.span.start content.span.stop = .ok content.text := hx.slice
    have hsigil := size_sigil content.text
    simp only [hslice, ok_bind]
    generalize TagKind.classify content.text = sorted at hsigil ⊢
    obtain ⟨kind, n⟩ := sorted
    simp only at hsigil
    have hcontent : content.text.take n ++ content.text.drop n = content.text := List.take_append_drop n _
    have hinner : At s (content.drop n).start ((content.drop n).text ++ x) :=
      hx.of_eq (by rw [← List.append_assoc, Slice.drop, hcontent])
    have hstart : (content.drop n).start = content.start + n := congrArg (content.start + ·) hsigil
    have hstop : (content.drop n).start + Text.size (content.drop n).text = content.stop := by
      rw [Slice.drop, Slice.stop, Nat.add_assoc, ← Text.size_append, hcontent]
    have htrim : trim s (content.start + n) content.stop = .ok (content.drop n).trim.span := by
      rw [← hstart, ← hstop]
      exact trim_at hinner
    have h2 : Text.size close2 = 2 := rfl
    simp only [Slice.span, htrim, ok_bind, lexed, Except.map, Token.lexeme, Token.whole]
    simp only [Slice.stop, Text.size_append, h2, Nat.add_assoc]

/-- The tilde that a tag begins with is found at its offset. -/
theorem tilde_at (h : At s i (tilde ++ r)) (ht : Tag.Tilde tilde r) :
    (if byte? s i = some '~' then ['~'] else []) = tilde := by
  rcases ht with rfl | ⟨rfl, hr⟩
  · obtain ⟨d, hd, hs⟩ := At.byte? (k := 0) h (by decide)
    rw [Nat.add_zero] at hd
    rw [if_pos (by rw [hd, (hs.eq_iff (by decide)).2 rfl])]
  · cases r with
    | nil => rw [h.byte?_nil, if_neg (by simp)]
    | cons c r =>
      obtain ⟨d, hd, hs⟩ := At.byte? (k := 0) h c.utf8Size_pos
      rw [Nat.add_zero] at hd
      refine if_neg fun he => hr ?_
      rw [hd, Option.some.injEq, hs.eq_iff (by decide)] at he
      rw [he]
      rfl

theorem tag_at (h : At s start (open2 ++ r)) : tag s start = .ok (lexed (Tag.read start r)) := by
  have hr : At s (start + 2) r := h.append
  have hf := Tag.read_form start r
  generalize Tag.read start r = e at hf ⊢
  unfold tag
  cases hf with
  | @comment tilde r ht =>
    have htilde : Tag.Tilde tilde ("!--".toList ++ r) := ht.imp_right fun h0 => ⟨h0, by simp⟩
    rw [List.append_assoc] at hr
    have hmark := hr.append
    simp only [tilde_at hr htilde, hmark.stands, Text.startsWith, Text.after?_append, ok_bind,
      Option.isSome_some, if_true]
    have hsize : start + 2 + Text.size tilde + 3 = start + Text.size (open2 ++ tilde ++ "!--".toList) := by
      have h2 : Text.size open2 = 2 := rfl
      have h3 : Text.size "!--".toList = 3 := rfl
      simp only [Text.size_append, h2, h3, Nat.add_assoc]
    have hinner : At s (start + 2 + Text.size tilde + 3) r := hmark.append
    rw [hsize] at hinner ⊢
    exact comment_at hinner
  | @triple r =>
    have htilde : Tag.Tilde [] ('{' :: r) := .inr ⟨rfl, by simp⟩
    have hr' : At s (start + 2) ([] ++ '{' :: r) := hr
    have hmark : At s (start + 2 + Text.size []) ('{' :: r) := hr
    have hinner : At s (start + Text.size (open2 ++ ['{'])) r := hr.cons
    simp only [tilde_at hr' htilde, hmark.stands, ok_bind]
    exact triple_at hinner
  | @plain tilde u ht hn hb =>
    have hmark := hr.append
    have hdash : stands s (start + 2 + Text.size tilde) "!--".toList = .ok false := by
      rw [hmark.stands, Text.startsWith, hn, Option.isSome_none]
    have hbrace : both (.ok tilde.isEmpty) (stands s (start + 2 + Text.size tilde) ['{']) = .ok false := by
      rw [hmark.stands, both_ok, Except.ok.injEq, Bool.and_eq_false_imp]
      intro h0
      rw [Bool.eq_false_iff, ne_eq, Text.startsWith_iff]
      rintro ⟨x, rfl⟩
      exact hb (List.isEmpty_iff.1 h0) rfl
    simp only [tilde_at hr ht, hdash, hbrace, ok_bind, Bool.false_eq_true, if_false]
    have hsize : start + 2 + Text.size tilde = start + Text.size (open2 ++ tilde) := by
      rw [Text.size_append, ← Nat.add_assoc]
      rfl
    rw [hsize] at hmark ⊢
    exact plain_at hmark

theorem rawBlock_at (h : At s start (open4 ++ r)) :
    rawBlock s start = .ok (match RawBlock.read (open4 ++ r) with
      | none => .error .rawBlock
      | some (b, _) => .ok ((Token.raw start b).lexeme, (Token.raw start b).whole.stop)) := by
  rw [rawBlock, h.findRawBlock, ok_bind]
  cases hread : RawBlock.read (open4 ++ r) with
  | none => rfl
  | some p =>
    obtain ⟨b, rest⟩ := p
    have hcontent : At s (start + Text.size (open4 ++ b.head ++ close4))
        (b.content ++ (open4 ++ b.tail ++ close4 ++ rest)) :=
      h.of_eq ((RawBlock.read_eq hread).trans (by simp [RawBlock.written]))
    have h4 : Text.size open4 = 4 ∧ Text.size close4 = 4 := ⟨rfl, rfl⟩
    simp only [Text.size_append, h4, ← Nat.add_assoc] at hcontent
    simp only [Option.map_some, hcontent.slice, ok_bind]
    rfl

/-- What is read where braces open is the next token. -/
theorem next_at (h : At s start (open2 ++ r)) :
    (do if ← stands s start open4 then rawBlock s start else tag s start) =
      .ok ((Token.next start (open2 ++ r)).map fun p => (p.1.lexeme, p.1.whole.stop)) := by
  rw [h.stands, ok_bind, Token.next, Text.after?_append]
  by_cases h4 : Text.startsWith open4 (open2 ++ r) = true
  · obtain ⟨x, hx⟩ := Text.startsWith_iff.1 h4
    simp only [h4, if_true]
    rw [← hx] at h ⊢
    rw [rawBlock_at h]
    cases RawBlock.read (open4 ++ x) <;> rfl
  · simp only [Bool.eq_false_iff.2 h4, Bool.false_eq_true, if_false]
    rw [tag_at h]
    cases Tag.read start r <;> rfl

/-! ## Rounds -/

variable {l : Lexer} {k j : Nat}

/-- Every offset in a text lies in a character. -/
theorem exists_char_at (h : i < Text.size s) :
    ∃ j c r k, At s j (c :: r) ∧ k < c.utf8Size ∧ j + k = i := by
  induction s generalizing i with
  | nil => exact nomatch h
  | cons c s ih =>
    by_cases hi : i < c.utf8Size
    · exact ⟨0, c, s, i, at_zero _, hi, Nat.zero_add i⟩
    · rw [Text.size_cons] at h
      obtain ⟨j, d, r, k, ⟨a, rfl, rfl⟩, hk, hjk⟩ := ih (i := i - c.utf8Size) (by omega)
      exact ⟨c.utf8Size + Text.size a, d, r, k, ⟨c :: a, rfl, rfl⟩, hk, by omega⟩

/-- Where neither mark stands, the lexer moves on by a byte. -/
theorem round_passed (h : At s j (c :: r)) (hk : k < c.utf8Size) (hl : l.pos = j + k)
    (he : Text.startsWith Token.escape (c :: r) = false) (ho : Text.startsWith open2 (c :: r) = false) :
    l.round s = .ok (.ok { l with pos := l.pos + 1 }) := by
  rw [round, hl, Token.escape, h.stands_amid hk (by decide) he, ok_bind, open2,
    h.stands_amid hk (by decide) ho]
  rfl

theorem round_escape (h : At s l.pos (Token.escape ++ r)) :
    l.round s = .ok (.ok { l with pos := match Text.cut close2 r with
      | some (inner, _) => l.pos + Text.size (Token.escape ++ inner ++ close2)
      | none => Text.size s }) := by
  have hr : At s (l.pos + 3) r := h.append
  rw [round, h.stands, Text.startsWith, Text.after?_append, ok_bind, hr.find]
  cases Text.cut close2 r with
  | none => rfl
  | some p =>
    simp only [Text.size_append, ← Nat.add_assoc]
    rfl

theorem round_open (h : At s l.pos (open2 ++ r)) :
    l.round s = .ok (match Token.next l.pos (open2 ++ r) with
      | .error fault => .error ⟨fault, l.pos⟩
      | .ok (t, _) => .ok ⟨l.lexemesTo l.pos ++ [t.lexeme], t.whole.stop, t.whole.stop⟩) := by
  have he : Text.startsWith Token.escape (open2 ++ r) = false := rfl
  rw [round, h.stands, he, h.stands, Text.startsWith, Text.after?_append, ok_bind, ok_bind]
  simp only [Option.isSome_some, Bool.false_eq_true, if_false, if_true]
  rw [next_at h, ok_bind]
  cases Token.next l.pos (open2 ++ r) <;> rfl

/-- A token that is read is not empty. -/
theorem lt_stop_of_next {t : Token} {n : Nat} (hr : r ≠ []) (h : Token.next n r = .ok (t, rest)) :
    n < t.whole.stop := by
  obtain ⟨hstart, htext⟩ := Token.next_eq h
  have hlen := Token.next_rest_length hr h
  have hne : t.whole.text ≠ [] := by
    intro h0
    rw [h0, List.nil_append] at htext
    exact absurd (htext ▸ hlen) (Nat.lt_irrefl _)
  have := Text.size_pos hne
  rw [Slice.stop, hstart]
  omega

theorem at_stop_of_next {t : Token} (h : At s i r) (hn : Token.next i r = .ok (t, rest)) :
    At s t.whole.stop rest := by
  obtain ⟨hstart, htext⟩ := Token.next_eq hn
  rw [Slice.stop, hstart]
  exact h.of_eq htext.symm

/-- No mark stands amid the bytes of a character. -/
theorem startsWith_amid {mark : Text} {d : Char} (hk : k < c.utf8Size) (hpos : 0 < k)
    (hd : d.toNat < 128) : Text.startsWith (d :: mark) (c :: r) = false := by
  rw [Bool.eq_false_iff, ne_eq, Text.startsWith_iff]
  intro hp
  obtain ⟨rfl, -⟩ := List.cons_prefix_cons.1 hp
  rw [Text.utf8Size_of_lt hd] at hk
  omega

/-- Each round finds a fault, or gets on and does not leave the source. -/
theorem round_onward (h : l.pos < Text.size s) :
    (∃ e, l.round s = .ok (.error e)) ∨
      ∃ l', l.round s = .ok (.ok l') ∧ l.pos < l'.pos ∧ l'.pos ≤ Text.size s := by
  obtain ⟨j, c, r, k, hc, hk, hjk⟩ := exists_char_at h
  rcases Nat.eq_zero_or_pos k with rfl | hpos
  · obtain rfl : j = l.pos := hjk
    by_cases he : Text.startsWith Token.escape (c :: r) = true
    · obtain ⟨x, hx⟩ := Text.startsWith_iff.1 he
      rw [← hx] at hc
      refine .inr ⟨_, round_escape hc, ?_⟩
      cases hcut : Text.cut close2 x with
      | none => exact ⟨h, Nat.le_refl _⟩
      | some p =>
        have hend : At s (l.pos + Text.size (Token.escape ++ p.1 ++ close2)) p.2 :=
          hc.of_eq (by rw [Text.cut_eq hcut]; simp)
        refine ⟨Nat.lt_add_of_pos_right (Text.size_pos ?_), hend.le⟩
        simp [Token.escape]
    · by_cases ho : Text.startsWith open2 (c :: r) = true
      · obtain ⟨x, hx⟩ := Text.startsWith_iff.1 ho
        rw [← hx] at hc
        have hround := round_open hc
        cases hn : Token.next l.pos (open2 ++ x) with
        | error fault => exact .inl ⟨_, by rw [hround, hn]⟩
        | ok p =>
          exact .inr ⟨_, by rw [hround, hn], lt_stop_of_next (List.cons_ne_nil _ _) hn,
            (at_stop_of_next hc hn).le⟩
      · exact .inr ⟨_, round_passed hc hk rfl (Bool.eq_false_iff.2 he) (Bool.eq_false_iff.2 ho),
          Nat.lt_succ_self _, h⟩
  · exact .inr ⟨_, round_passed hc hk hjk.symm (startsWith_amid hk hpos (by decide))
      (startsWith_amid hk hpos (by decide)), Nat.lt_succ_self _, h⟩

/-! ## The whole source -/

theorem run_fault {e : SyntaxError} (hl : l.pos < Text.size s) (h : l.round s = .ok (.error e)) :
    run s l = .ok (.error e) := by
  rw [run, if_pos hl, h, ok_bind]

theorem run_onward {l' : Lexer} (h : l.round s = .ok (.ok l')) (hlt : l.pos < l'.pos)
    (hle : l'.pos ≤ Text.size s) : run s l = run s l' := by
  rw [run, if_pos (Nat.lt_of_lt_of_le hlt hle), h, ok_bind]
  exact onward_of ⟨hlt, hle⟩

/-- The lexer passes a character that begins no mark. -/
theorem run_char (h : At s l.pos (c :: r)) (he : Text.startsWith Token.escape (c :: r) = false)
    (ho : Text.startsWith open2 (c :: r) = false) :
    run s l = run s { l with pos := l.pos + c.utf8Size } := by
  have hend := (At.cons h).le
  have upTo (k : Nat) (hk : k ≤ c.utf8Size) : run s l = run s { l with pos := l.pos + k } := by
    induction k with
    | zero => rfl
    | succ k ih =>
      have hround := round_passed (l := { l with pos := l.pos + k }) h (k := k) (by omega) rfl he ho
      rw [ih (by omega), run_onward hround (Nat.lt_succ_self _) (by simp only; omega)]
      rfl
  exact upTo _ (Nat.le_refl _)

/-- The lexer after literal text, the tokens before it being known. -/
def passing (lexemes : List Lexeme) (textStart : Nat) (u : Text) : Lexer :=
  ⟨lexemes, textStart, textStart + Text.size u⟩

/-- Literal text that has been passed, as a token. -/
def passed (textStart : Nat) (u : Text) : List Token :=
  if u = [] then [] else [.text ⟨textStart, u⟩]

variable {textStart : Nat} {lexemes : List Lexeme} {x : Text} {fault : SyntaxFault}

theorem lexemesTo_passing (lexemes : List Lexeme) (textStart : Nat) (u : Text) :
    (passing lexemes textStart u).lexemesTo (textStart + Text.size u) =
      lexemes ++ (passed textStart u).map Token.lexeme := by
  have hlt : (passing lexemes textStart u).textStart < textStart + Text.size u ↔ u ≠ [] :=
    ⟨by rintro h rfl; exact Nat.lt_irrefl _ h, fun hu => Nat.lt_add_of_pos_right (Text.size_pos hu)⟩
  rw [lexemesTo, passed]
  by_cases hu : u = []
  · rw [if_neg (mt hlt.1 (not_not.2 hu)), if_pos hu, List.map_nil, List.append_nil]
    rfl
  · rw [if_pos (hlt.2 hu), if_neg hu]
    rfl

theorem run_literal (h : At s (textStart + Text.size u) (c :: r))
    (he : Text.startsWith Token.escape (c :: r) = false) (ho : Text.startsWith open2 (c :: r) = false) :
    run s (passing lexemes textStart u) = run s (passing lexemes textStart (u ++ [c])) := by
  rw [run_char (l := passing lexemes textStart u) h he ho, passing, passing, Text.size_append,
    ← Nat.add_assoc]
  rfl

theorem run_escape (h : At s (textStart + Text.size u) (Token.escape ++ r))
    (hc : Text.cut close2 r = some (t, x)) :
    run s (passing lexemes textStart u) =
      run s (passing lexemes textStart (u ++ (Token.escape ++ t ++ close2))) := by
  have hround := round_escape (l := passing lexemes textStart u) h
  have hend : At s (textStart + Text.size u + Text.size (Token.escape ++ t ++ close2)) x :=
    h.of_eq (by rw [Text.cut_eq hc]; simp)
  rw [hc] at hround
  rw [run_onward hround (Nat.lt_add_of_pos_right (Text.size_pos (by simp [Token.escape]))) hend.le]
  simp only [passing, Text.size_append, Nat.add_assoc]

theorem run_unclosed (h : At s (textStart + Text.size u) (Token.escape ++ r))
    (hc : Text.cut close2 r = none) :
    run s (passing lexemes textStart u) = run s (passing lexemes textStart (u ++ (Token.escape ++ r))) := by
  have hround := round_escape (l := passing lexemes textStart u) h
  rw [hc] at hround
  rw [run_onward hround (h.lt_of_ne_nil (List.cons_ne_nil _ _)) (Nat.le_refl _), passing, passing,
    Text.size_append, ← Nat.add_assoc, h.size_eq]

theorem run_refused (h : At s (textStart + Text.size u) (open2 ++ r))
    (hn : Token.next (textStart + Text.size u) (open2 ++ r) = .error fault) :
    run s (passing lexemes textStart u) = .ok (.error ⟨fault, textStart + Text.size u⟩) := by
  have hround := round_open (l := passing lexemes textStart u) h
  rw [passing, hn] at hround
  exact run_fault (h.lt_of_ne_nil (List.cons_ne_nil _ _)) hround

theorem run_token {t : Token} (h : At s (textStart + Text.size u) (open2 ++ r))
    (hn : Token.next (textStart + Text.size u) (open2 ++ r) = .ok (t, rest)) :
    run s (passing lexemes textStart u) =
      run s (passing (lexemes ++ (passed textStart u).map Token.lexeme ++ [t.lexeme]) t.whole.stop []) := by
  have hround := round_open (l := passing lexemes textStart u) h
  have hpos : (passing lexemes textStart u).pos = textStart + Text.size u := rfl
  rw [hpos, hn, lexemesTo_passing] at hround
  exact run_onward hround (lt_stop_of_next (List.cons_ne_nil _ _) hn) (at_stop_of_next h hn).le

/-- The tokens of what begins with the literal text `u` and goes on with `r`. -/
def tokensAfter (textStart : Nat) (u r : Text) : Except SyntaxError (List Token) :=
  let p := Token.literal r
  (Token.stream (textStart + Text.size (u ++ p.1)) p.2).map (passed textStart (u ++ p.1) ++ ·)

theorem tokensAfter_nil (textStart : Nat) (r : Text) :
    tokensAfter textStart [] r = Token.stream textStart r := by
  have hl := Token.literal_eq r
  simp only [tokensAfter, List.nil_append]
  generalize hp : Token.literal r = p at hl ⊢
  obtain ⟨w, x⟩ := p
  by_cases hw : w = []
  · obtain rfl : x = r := by rw [← hl, hw]; rfl
    rw [passed, if_pos hw, hw]
    cases h : Token.stream textStart x <;> simp [Except.map, h]
  · have hr : r ≠ [] := fun hr => hw (List.append_eq_nil_iff.1 (hl.trans hr)).1
    have hnext : Token.next textStart r = .ok (.text ⟨textStart, w⟩, x) := by
      rw [Token.next]
      split
      · rw [hp]
      · next ho => exact absurd (congrArg Prod.fst (hp.symm.trans (Token.literal_of_open ho))) hw
    rw [Token.stream_of_next hr hnext, passed, if_neg hw]
    rfl

/-- Literal text may be taken to what has been passed. -/
theorem tokensAfter_append {w : Text} (h : Token.literal r = (w ++ (Token.literal x).1, (Token.literal x).2))
    (textStart : Nat) (u : Text) : tokensAfter textStart u r = tokensAfter textStart (u ++ w) x := by
  simp only [tokensAfter, h, List.append_assoc]

/-- Where no literal text follows, what has been passed is a token. -/
theorem tokensAfter_of_literal (h : Token.literal r = ([], r)) (textStart : Nat) (u : Text) :
    tokensAfter textStart u r =
      (Token.stream (textStart + Text.size u) r).map (passed textStart u ++ ·) := by
  simp only [tokensAfter, h, List.append_nil]

theorem literal_char (he : Text.startsWith Token.escape (c :: r) = false)
    (ho : Text.startsWith open2 (c :: r) = false) :
    Token.literal (c :: r) = ([c] ++ (Token.literal r).1, (Token.literal r).2) := by
  rw [Token.literal]
  split
  · next h => simp [Text.startsWith, h] at he
  · rw [if_neg (by simp [ho])]
    rfl

theorem literal_unclosed (h : Text.cut close2 r = none) :
    Token.literal (Token.escape ++ r) = (Token.escape ++ r ++ (Token.literal []).1, (Token.literal []).2) := by
  have ha := Text.after?_append Token.escape r
  rw [show Token.escape ++ r = '\\' :: (open2 ++ r) from rfl] at ha ⊢
  rw [Token.literal, Token.literal]
  split
  · next r₁ hr₁ =>
    obtain rfl := Option.some.inj (ha.symm.trans hr₁)
    split
    · simp
    · next hc => exact nomatch h.symm.trans hc
  · next hn => exact nomatch ha.symm.trans hn

/-- After literal text the lexer comes to the tokens of what begins with it. -/
theorem run_passing (h : At s textStart (u ++ r)) :
    run s (passing lexemes textStart u) =
      .ok ((tokensAfter textStart u r).map fun ts => lexemes ++ ts.map Token.lexeme) := by
  induction hlen : r.length using Nat.strong_induction_on generalizing textStart u r lexemes with
  | _ n ih =>
  subst hlen
  have hr := h.append
  -- literal text is taken to what has been passed
  have passes {w x : Text} (hw : w ≠ []) (hx : r = w ++ x)
      (hl : Token.literal r = (w ++ (Token.literal x).1, (Token.literal x).2))
      (hrun : run s (passing lexemes textStart u) = run s (passing lexemes textStart (u ++ w))) :
      run s (passing lexemes textStart u) =
        .ok ((tokensAfter textStart u r).map fun ts => lexemes ++ ts.map Token.lexeme) := by
    have hshort : x.length < r.length := by
      have := List.length_pos_iff.2 hw
      rw [hx, List.length_append]
      omega
    rw [hrun, tokensAfter_append hl]
    exact ih x.length hshort (by rwa [List.append_assoc, ← hx]) rfl
  by_cases h0 : r = []
  · subst h0
    have hend := hr.size_eq
    rw [Text.size_nil, Nat.add_zero] at hend
    have hstop : ¬ (passing lexemes textStart u).pos < Text.size s := Nat.not_lt.2 (Nat.le_of_eq hend.symm)
    rw [run, if_neg hstop, ← hend, lexemesTo_passing, tokensAfter_of_literal (by rw [Token.literal]),
      Token.stream_nil]
    simp [Except.map]
  by_cases he : Text.startsWith Token.escape r = true
  · obtain ⟨x, rfl⟩ := Text.startsWith_iff.1 he
    cases hc : Text.cut close2 x with
    | none =>
      exact passes (List.cons_ne_nil _ _) (List.append_nil _).symm (literal_unclosed hc)
        (run_unclosed hr hc)
    | some p =>
      have hx : Token.escape ++ x = Token.escape ++ p.1 ++ close2 ++ p.2 := by
        rw [Text.cut_eq hc]
        simp
      exact passes (List.cons_ne_nil _ _) hx (hx ▸ Token.literal_escape hc p.2) (run_escape hr hc)
  by_cases ho : Text.startsWith open2 r = true
  · obtain ⟨x, rfl⟩ := Text.startsWith_iff.1 ho
    have hopen := Text.after?_append open2 x
    rw [tokensAfter_of_literal (Token.literal_of_open hopen)]
    cases hn : Token.next (textStart + Text.size u) (open2 ++ x) with
    | error fault =>
      rw [run_refused hr hn, Token.stream_of_fault h0 hn]
      rfl
    | ok p =>
      rw [run_token hr hn, Token.stream_of_next h0 hn,
        ih p.2.length (Token.next_rest_length h0 hn) (at_stop_of_next hr hn) rfl, tokensAfter_nil]
      cases Token.stream p.1.whole.stop p.2 <;> simp [Except.map]
  · obtain ⟨c, r, rfl⟩ := List.exists_cons_of_ne_nil h0
    have he' := Bool.eq_false_iff.2 he
    have ho' := Bool.eq_false_iff.2 ho
    exact passes (List.cons_ne_nil c []) rfl (literal_char he' ho') (run_literal hr he' ho')

/-- The tokens that the lexer comes to are those that are read. -/
theorem lex_eq (source : Text) : lex source = .ok ((tokens source).map (List.map Token.lexeme)) := by
  have h : run source (passing [] 0 []) = _ := run_passing (at_zero source)
  rw [tokensAfter_nil] at h
  exact h

end Lexer

end Stencil
