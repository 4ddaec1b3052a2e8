import Stencil.Syntax.Fault
import Stencil.Syntax.RawBlock
/-!
Tokens of a template source: literal text, tags and raw blocks.

`tokens` reads a whole source.  Each token keeps the slice it was read from, so the tokens of a source
spell it out again (`next_eq`).
-/

namespace Stencil

/-- What a tag does, told by its sigil. -/
inductive TagKind
  | comment
  | expression
  | unescaped
  | decorator
  | invocation
  | openBlock
  | openInverse
  | openInvocation
  | openDecorator
  | otherwise
  | close
  deriving DecidableEq, Repr

/-- A tag: `inner` is its content after the sigil, `whole` includes the braces. -/
structure Tag where
  kind : TagKind
  inner : Slice
  whole : Slice
  deriving DecidableEq, Repr

inductive Token
  | text (piece : Slice)
  | tag (tag : Tag)
  | raw (start : Nat) (block : RawBlock)
  deriving DecidableEq, Repr

namespace Token

/-- The part of the source that a token stands for. -/
def whole : Token → Slice
  | text piece => piece
  | tag t => t.whole
  | raw start block => ⟨start, block.written⟩

end Token

/-! ## Tags -/

namespace TagKind

/-- The kind of a tag with the trimmed content `text`, and the length of its sigil. -/
def classify (text : Text) : TagKind × Nat :=
  match text with
  | '!' :: _ => (comment, 1)
  | '#' :: '>' :: _ => (openInvocation, 2)
  | '#' :: '*' :: _ => (openDecorator, 2)
  | '#' :: _ => (openBlock, 1)
  | '^' :: r => if Text.allBlank r then (otherwise, 1) else (openInverse, 1)
  | '/' :: _ => (close, 1)
  | '>' :: _ => (invocation, 1)
  | '*' :: _ => (decorator, 1)
  | '&' :: _ => (unescaped, 1)
  | _ =>
    if text = "else".toList || Text.startsWith "else ".toList text then (otherwise, 0)
    else (expression, 0)

end TagKind

namespace Tag

/-- A leading tilde, if there is one, and the rest. -/
def splitTilde : Text → Text × Text
  | '~' :: r => (['~'], r)
  | r => ([], r)

theorem splitTilde_eq (r : Text) : (splitTilde r).1 ++ (splitTilde r).2 = r := by
  unfold splitTilde
  split <;> rfl

/-- The text without one tilde at its end. -/
def dropEndTilde (s : Text) : Text :=
  if s.getLast? = some '~' then s.dropLast else s

/-- A comment in double dashes; `r` follows the opener `{{`, the tilde and `!--`. -/
def readComment (start : Nat) (lead r : Text) : Except SyntaxFault (Tag × Text) :=
  match Text.cut ('-' :: '-' :: close2) r with
  | none => .error .unterminatedComment
  | some (inner, rest) =>
    .ok (⟨.comment, ⟨start + Text.size lead, inner⟩, ⟨start, lead ++ inner ++ '-' :: '-' :: close2⟩⟩,
      rest)

/-- An expression in triple braces; `r` follows the opener. -/
def readTriple (start : Nat) (lead r : Text) : Except SyntaxFault (Tag × Text) :=
  match Text.cut close3 r with
  | none => .error .unterminatedTriple
  | some (inner, rest) =>
    .ok (⟨.unescaped, Slice.trim ⟨start + Text.size lead, inner⟩, ⟨start, lead ++ inner ++ close3⟩⟩,
      rest)

/-- Any other tag; `r` follows the opener and the tilde. -/
def readPlain (start : Nat) (lead r : Text) : Except SyntaxFault (Tag × Text) :=
  match Text.cut close2 r with
  | none => .error .unterminatedTag
  | some (body, rest) =>
    let content := Slice.trim ⟨start + Text.size lead, dropEndTilde body⟩
    let (kind, sigil) := TagKind.classify content.text
    .ok (⟨kind, Slice.trim (content.drop sigil), ⟨start, lead ++ body ++ close2⟩⟩, rest)

/-- The tag that starts at byte `start`; `r` follows its two opening braces. -/
def read (start : Nat) (r : Text) : Except SyntaxFault (Tag × Text) :=
  let (tilde, r₁) := splitTilde r
  match Text.after? "!--".toList r₁ with
  | some r₂ => readComment start (open2 ++ tilde ++ "!--".toList) r₂
  | none =>
    match tilde, r₁ with
    | [], '{' :: r₂ => readTriple start (open2 ++ ['{']) r₂
    | _, _ => readPlain start (open2 ++ tilde) r₁

theorem readComment_eq {start : Nat} {lead r rest : Text} {t : Tag}
    (h : readComment start lead r = .ok (t, rest)) :
    t.whole.start = start ∧ t.whole.text ++ rest = lead ++ r := by
  unfold readComment at h
  split at h
  · simp at h
  · next inner rest' hc =>
    simp only [Except.ok.injEq, Prod.mk.injEq] at h
    obtain ⟨rfl, rfl⟩ := h
    simp [Text.cut_eq hc]

theorem readTriple_eq {start : Nat} {lead r rest : Text} {t : Tag}
    (h : readTriple start lead r = .ok (t, rest)) :
    t.whole.start = start ∧ t.whole.text ++ rest = lead ++ r := by
  unfold readTriple at h
  split at h
  · simp at h
  · next inner rest' hc =>
    simp only [Except.ok.injEq, Prod.mk.injEq] at h
    obtain ⟨rfl, rfl⟩ := h
    simp [Text.cut_eq hc]

theorem readPlain_eq {start : Nat} {lead r rest : Text} {t : Tag}
    (h : readPlain start lead r = .ok (t, rest)) :
    t.whole.start = start ∧ t.whole.text ++ rest = lead ++ r := by
  unfold readPlain at h
  split at h
  · simp at h
  · next body rest' hc =>
    simp only [Except.ok.injEq, Prod.mk.injEq] at h
    obtain ⟨rfl, rfl⟩ := h
    simp [Text.cut_eq hc]

theorem read_eq {start : Nat} {r rest : Text} {t : Tag} (h : read start r = .ok (t, rest)) :
    t.whole.start = start ∧ t.whole.text ++ rest = open2 ++ r := by
  have hr := splitTilde_eq r
  unfold read at h
  split at h
  next tilde r₁ ht =>
  rw [ht] at hr
  subst hr
  split at h
  · next r₂ ha => simpa [Text.after?_eq ha] using readComment_eq h
  · split at h
    · simpa using readTriple_eq h
    · simpa using readPlain_eq h

theorem whole_length_pos {start : Nat} {r rest : Text} {t : Tag} (h : read start r = .ok (t, rest)) :
    0 < t.whole.text.length := by
  unfold read at h
  split at h
  split at h
  · unfold readComment at h
    split at h
    · simp at h
    · simp only [Except.ok.injEq, Prod.mk.injEq] at h
      simp [← h.1, open2]
  · split at h
    · unfold readTriple at h
      split at h
      · simp at h
      · simp only [Except.ok.injEq, Prod.mk.injEq] at h
        simp [← h.1, open2]
    · unfold readPlain at h
      split at h
      · simp at h
      · simp only [Except.ok.injEq, Prod.mk.injEq] at h
        simp [← h.1, open2]

end Tag

/-! ## The token stream -/

namespace Token

/-- Mark of a tag that is meant literally. -/
def escape : Text := '\\' :: open2

/-- The literal text at the head of a source, up to the next tag, and the rest.  A backslash before the
opening braces keeps them literal, together with all up to the next closing braces. -/
def literal : Text → Text × Text
  | [] => ([], [])
  | c :: r =>
    match _h : Text.after? escape (c :: r) with
    | some r₁ =>
      match _h' : Text.cut close2 r₁ with
      | none => (c :: r, [])
      | some (inner, r₂) =>
        let p := literal r₂
        (escape ++ inner ++ close2 ++ p.1, p.2)
    | none =>
      if Text.startsWith open2 (c :: r) then ([], c :: r)
      else
        let p := literal r
        (c :: p.1, p.2)
termination_by s => s.length
decreasing_by
  · have h1 := Text.after?_length _h
    have h2 := Text.cut_length _h'
    simp only [escape, open2, close2, List.length_cons, List.length_nil] at h1 h2
    simp only [List.length_cons]
    omega
  · simp

theorem literal_eq (s : Text) : (literal s).1 ++ (literal s).2 = s := by
  fun_induction literal s with
  | case1 => rfl
  | case2 c r r₁ h h' => simp
  | case3 c r r₁ h inner r₂ h' p ih =>
    rw [Text.after?_eq h, Text.cut_eq h', List.append_assoc, ih]
    simp
  | case4 c r h ho => rfl
  | case5 c r h ho p ih =>
    rw [List.cons_append, ih]

/-- A text that does not begin a tag begins with literal text. -/
theorem literal_ne_nil {c : Char} {r : Text} (h : Text.startsWith open2 (c :: r) = false) :
    (literal (c :: r)).1 ≠ [] := by
  unfold literal
  split
  · split
    · simp
    · simp [escape]
  · simp [h]

/-- The token at the head of a source that is not empty and starts at byte `start`, and the rest. -/
def next (start : Nat) (s : Text) : Except SyntaxFault (Token × Text) :=
  match Text.after? open2 s with
  | none =>
    let p := literal s
    .ok (text ⟨start, p.1⟩, p.2)
  | some r =>
    if Text.startsWith open4 s then
      match RawBlock.read s with
      | none => .error .rawBlock
      | some (block, rest) => .ok (raw start block, rest)
    else
      match Tag.read start r with
      | .error fault => .error fault
      | .ok (t, rest) => .ok (tag t, rest)

theorem next_eq {start : Nat} {s rest : Text} {t : Token} (h : next start s = .ok (t, rest)) :
    t.whole.start = start ∧ t.whole.text ++ rest = s := by
  unfold next at h
  split at h
  · simp only [Except.ok.injEq, Prod.mk.injEq] at h
    obtain ⟨rfl, rfl⟩ := h
    exact ⟨rfl, literal_eq s⟩
  · next r hr =>
    split at h
    · split at h
      · simp at h
      · next block rest' hb =>
        simp only [Except.ok.injEq, Prod.mk.injEq] at h
        obtain ⟨rfl, rfl⟩ := h
        exact ⟨rfl, (RawBlock.read_eq hb).symm⟩
    · split at h
      · simp at h
      · next t' rest' ht =>
        simp only [Except.ok.injEq, Prod.mk.injEq] at h
        obtain ⟨rfl, rfl⟩ := h
        have he := Tag.read_eq ht
        exact ⟨he.1, he.2.trans (Text.after?_eq hr).symm⟩

theorem next_rest_length {start : Nat} {s rest : Text} {t : Token} (hs : s ≠ [])
    (h : next start s = .ok (t, rest)) : rest.length < s.length := by
  have he := congrArg List.length (next_eq h).2
  have hp : 0 < t.whole.text.length := by
    unfold next at h
    split at h
    · next hn =>
      simp only [Except.ok.injEq, Prod.mk.injEq] at h
      obtain ⟨rfl, rfl⟩ := h
      cases s with
      | nil => exact absurd rfl hs
      | cons c r => exact List.length_pos_iff.2 (literal_ne_nil (by simp [Text.startsWith, hn]))
    · split at h
      · split at h
        · simp at h
        · simp only [Except.ok.injEq, Prod.mk.injEq] at h
          obtain ⟨rfl, rfl⟩ := h
          exact RawBlock.written_length_pos _
      · split at h
        · simp at h
        · next t' rest' ht =>
          simp only [Except.ok.injEq, Prod.mk.injEq] at h
          obtain ⟨rfl, rfl⟩ := h
          exact Tag.whole_length_pos ht
  rw [List.length_append] at he
  omega

/-- The tokens of a source that starts at byte `start`. -/
def stream (start : Nat) (s : Text) : Except SyntaxError (List Token) :=
  if _hs : s = [] then .ok []
  else
    match _h : next start s with
    | .error fault => .error ⟨fault, start⟩
    | .ok (t, rest) => do
      let more ← stream t.whole.stop rest
      return t :: more
termination_by s.length
decreasing_by exact next_rest_length _hs _h

end Token

/-- The tokens of a source. -/
def tokens (source : Text) : Except SyntaxError (List Token) :=
  Token.stream 0 source

end Stencil
