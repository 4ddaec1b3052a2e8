import Stencil.Proofs.Syntax.Lexer
import Stencil.Proofs.Syntax.Place
import Stencil.Proofs.Syntax.Position
/-!
The tokens of a source tile it.

They follow one another from the first byte of the source to the last, cut between characters, and literal
text that two tags enclose is one token.  The content of a tag stands between its delimiters
(`tokens_tiled`).
-/

namespace Stencil

open Scan

/-- The spans follow one another from an offset to another without gap or overlap, and none is empty. -/
def Span.Tiles : Nat → List Span → Nat → Prop
  | i, [], j => i = j
  | i, s :: l, j => s.start = i ∧ s.start < s.stop ∧ Tiles s.stop l j

/-- The slice is what stands in the source between its offsets, which are between characters. -/
structure Slice.CutFrom (source : Text) (s : Slice) : Prop where
  start : source.IsBoundary s.start
  stop : source.IsBoundary s.stop
  slice : Scan.slice source s.start s.stop = .ok s.text

variable {source s r rest : Text} {start : Nat} {ts : List Token}

theorem Scan.At.isBoundary {i : Nat} (h : At s i r) : s.IsBoundary i := by
  obtain ⟨a, rfl, rfl⟩ := h
  exact ⟨a, r, rfl, rfl⟩

theorem Slice.cutFrom_of_at {t : Slice} (h : At source t.start (t.text ++ r)) : t.CutFrom source :=
  ⟨h.isBoundary, h.append.isBoundary, h.slice⟩

namespace Token

def isText : Token → Bool
  | text _ => true
  | _ => false

variable {t u : Token} {p : Slice}

/-! ## One token after another -/

/-- What follows literal text is the end or a mark. -/
theorem rest_of_text (h : next start s = .ok (text p, rest)) : rest = [] ∨ ∃ x, rest = open2 ++ x := by
  obtain ⟨-, -, rfl⟩ := next_text h
  exact literal_rest s

theorem not_text_of_open (h : next start (open2 ++ s) = .ok (text p, rest)) : False := by
  obtain ⟨hn, -⟩ := next_text h
  rw [Text.after?_append] at hn
  exact nomatch hn

theorem not_both_text (h : next start s = .ok (t, r)) (hu : next t.whole.stop r = .ok (u, rest))
    (hr : r ≠ []) : ¬ (t.isText ∧ u.isText) := by
  rintro ⟨ht, hut⟩
  cases t with
  | text p =>
    obtain ⟨x, rfl⟩ := (rest_of_text h).resolve_left hr
    cases u with
    | text q => exact not_text_of_open hu
    | tag _ => exact nomatch hut
    | raw _ _ => exact nomatch hut
  | tag _ => exact nomatch ht
  | raw _ _ => exact nomatch ht

theorem isChain_of_stream (h : stream start s = .ok ts) :
    ts.IsChain fun t u => ¬ (t.isText ∧ u.isText) := by
  induction ts generalizing start s with
  | nil => exact .nil
  | cons t ts ih =>
    obtain ⟨-, r, ht, hrest⟩ := stream_cons_eq_ok h
    refine List.isChain_cons.2 ⟨fun u hu => ?_, ih hrest⟩
    cases ts with
    | nil => exact nomatch hu
    | cons u' us =>
      obtain rfl := Option.some.inj hu
      obtain ⟨hr, _, hn, -⟩ := stream_cons_eq_ok hrest
      exact not_both_text ht hn hr

theorem tiles_of_stream (h : stream start s = .ok ts) :
    Span.Tiles start (ts.map fun t => t.whole.span) (start + Text.size s) := by
  induction ts generalizing start s with
  | nil =>
    rcases stream_eq_ok h with ⟨rfl, -⟩ | ⟨-, _, _, _, he, -⟩
    · rfl
    · exact nomatch he
  | cons t ts ih =>
    obtain ⟨hs, rest, hn, hrest⟩ := stream_cons_eq_ok h
    obtain ⟨hstart, htext⟩ := next_eq hn
    have hlt : t.whole.start < t.whole.stop := hstart ▸ Lexer.lt_stop_of_next hs hn
    have hend : t.whole.stop + Text.size rest = start + Text.size s := by
      rw [← htext, Text.size_append, Slice.stop, hstart, Nat.add_assoc]
    exact ⟨hstart, hlt, hend ▸ ih hrest⟩

end Token

/-! ## Tokens in their source -/

namespace Token.Stands

variable {before after : Text} {k : Token}

theorem at_start (h : k.Stands source before after) : At source k.whole.start (k.whole.text ++ after) :=
  ⟨before, h.eq, h.start_eq.symm⟩

theorem exists_delimiters {t : Tag} (h : (Token.tag t).Stands source before after) :
    ∃ opener closer, Tag.Delimiters t.kind opener closer ∧ t.Delimited opener closer := by
  obtain ⟨r, -, -, hread⟩ := next_tag.1 h.next_eq
  exact Tag.delimited_of_read hread

theorem inner_cutFrom {t : Tag} (h : (Token.tag t).Stands source before after) :
    t.inner.CutFrom source := by
  obtain ⟨opener, closer, -, a, b, hw, -, -, hstart⟩ := h.exists_delimiters
  have hinner : At source (t.whole.start + Text.size (opener ++ a))
      (t.inner.text ++ (b ++ closer ++ after)) :=
    h.at_start.of_eq (by rw [Token.whole, hw]; simp)
  exact Slice.cutFrom_of_at (hstart ▸ hinner)

end Token.Stands

/-- The tokens tile the source. -/
structure Tiled (source : Text) (ts : List Token) : Prop where
  tiles : Span.Tiles 0 (ts.map fun t => t.whole.span) (Text.size source)
  cut : ∀ t ∈ ts, t.whole.CutFrom source
  apart : ts.IsChain fun t u => ¬ (t.isText ∧ u.isText)
  inner_cut : ∀ t, Token.tag t ∈ ts → t.inner.CutFrom source
  delimited : ∀ t, Token.tag t ∈ ts → ∃ opener closer, Tag.Delimiters t.kind opener closer ∧
    t.Delimited opener closer ∧ t.whole.start + Text.size opener ≤ t.inner.start ∧
    t.inner.stop + Text.size closer ≤ t.whole.stop

theorem tiled_of_tokens (h : tokens source = .ok ts) : Tiled source ts where
  tiles := Nat.zero_add (Text.size source) ▸ Token.tiles_of_stream h
  cut t ht := by
    obtain ⟨before, after, hstands⟩ := Token.exists_stands_of_mem h ht
    exact Slice.cutFrom_of_at hstands.at_start
  apart := Token.isChain_of_stream h
  inner_cut t ht := by
    obtain ⟨before, after, hstands⟩ := Token.exists_stands_of_mem h ht
    exact hstands.inner_cutFrom
  delimited t ht := by
    obtain ⟨before, after, hstands⟩ := Token.exists_stands_of_mem h ht
    obtain ⟨opener, closer, hkind, hd⟩ := hstands.exists_delimiters
    exact ⟨opener, closer, hkind, hd, hd.between⟩

/-- The lexer gets on with every round that finds no fault, and comes to the tokens of the source.  When
there are any, they tile it. -/
theorem tokens_tiled (source : Text) :
    (∀ l : Lexer, l.pos < Text.size source → (∃ e, l.round source = .ok (.error e)) ∨
      ∃ l', l.round source = .ok (.ok l') ∧ l.pos < l'.pos ∧ l'.pos ≤ Text.size source) ∧
    Lexer.lex source = .ok ((tokens source).map (List.map Token.lexeme)) ∧
    ∀ ts, tokens source = .ok ts → Tiled source ts :=
  ⟨fun _ h => Lexer.round_onward h, Lexer.lex_eq source, fun _ h => tiled_of_tokens h⟩

/-- Literal text with an escaped tag, a comment, an expression in triple braces, a block with tildes, and a
raw block. -/
def mixedTokens : Text :=
  "ü\\".toList ++ open2 ++ ['x'] ++ close2 ++ open2 ++ "!-- ".toList ++ close2 ++ " --".toList ++ close2 ++
    open2 ++ ['{', ' ', 'a'] ++ close3 ++ open2 ++ "~ #if ü ~".toList ++ close2 ++ open4 ++ ['r'] ++ close4 ++
    open2 ++ ['y'] ++ close2 ++ open4 ++ "/r".toList ++ close4 ++ open2 ++ "/if".toList ++ close2 ++ ['ü']

def mixedTokensRead : List Token :=
  [.text ⟨0, "ü\\".toList ++ open2 ++ ['x'] ++ close2⟩,
    .tag ⟨.comment, ⟨13, ' ' :: close2 ++ [' ']⟩,
      ⟨8, open2 ++ "!-- ".toList ++ close2 ++ " --".toList ++ close2⟩⟩,
    .tag ⟨.unescaped, ⟨25, ['a']⟩, ⟨21, open2 ++ ['{', ' ', 'a'] ++ close3⟩⟩,
    .tag ⟨.openBlock, ⟨34, "if ü".toList⟩, ⟨29, open2 ++ "~ #if ü ~".toList ++ close2⟩⟩,
    .raw 43 ⟨['r'], open2 ++ ['y'] ++ close2, "/r".toList⟩,
    .tag ⟨.close, ⟨70, "if".toList⟩, ⟨67, open2 ++ "/if".toList ++ close2⟩⟩,
    .text ⟨74, ['ü']⟩]

theorem tokens_tiled_mixed : tokens mixedTokens = .ok mixedTokensRead ∧ Tiled mixedTokens mixedTokensRead ∧
    ∃ l, Lexer.round mixedTokens ⟨[], 0, 0⟩ = .ok (.ok l) ∧ 0 < l.pos ∧ l.pos ≤ Text.size mixedTokens := by
  have htokens : tokens mixedTokens = .ok mixedTokensRead := by decide +kernel
  obtain ⟨hround, -, htiled⟩ := tokens_tiled mixedTokens
  refine ⟨htokens, htiled _ htokens, ?_⟩
  rcases hround ⟨[], 0, 0⟩ (by decide) with ⟨e, he⟩ | h
  · have hpassed : Lexer.round mixedTokens ⟨[], 0, 0⟩ = .ok (.ok ⟨[], 0, 1⟩) := by decide
    exact nomatch hpassed.symm.trans he
  · exact h

end Stencil
