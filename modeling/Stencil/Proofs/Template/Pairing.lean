import Mathlib
import Stencil.Proofs.Scope
import Stencil.Proofs.Syntax.Place
import Stencil.Proofs.Template.Places
import Stencil.Proofs.Template.Spans
/-!
Sources that differ in how they spell some names, token by token.

`Respelled` goes through two sources that agree but for some names and closing tags, each of a free name
that has the same key in both.  The tokens of such sources pair off (`Respelled.token`): the two of a pair are
the same but for their places, or tags of one kind that differ in what is listed.
-/

namespace Stencil

/-! ## Heads of one text -/

namespace Text

variable {a b x y : Text}

theorem append_of_size_le (h : a ++ x = b ++ y) (hs : size a ≤ size b) :
    ∃ c, b = a ++ c ∧ x = c ++ y := by
  rcases List.append_eq_append_iff.1 h with ⟨c, hb, hx⟩ | ⟨c, rfl, rfl⟩
  · exact ⟨c, hb, hx⟩
  · have hc : c = [] := by
      by_contra hne
      have := size_pos hne
      rw [size_append] at hs
      omega
    exact ⟨[], by simp [hc]⟩

theorem append_inj_of_size (h : a ++ x = b ++ y) (hs : size a = size b) : a = b ∧ x = y := by
  obtain ⟨c, rfl, rfl⟩ := append_of_size_le h (Nat.le_of_eq hs)
  have hc : c = [] := by
    by_contra hne
    have := size_pos hne
    rw [size_append] at hs
    omega
  simp [hc]

end Text

/-! ## The beginning of a tag that names a partial or closes a block -/

namespace Tag

/-- What stands before the content of a tag: the braces, perhaps a tilde, and the sigil among blanks. -/
inductive Lead (kind : TagKind) : Text → Prop
  | intro {tilde before sigil between : Text} : tilde = ['~'] ∨ tilde = [] →
      TagKind.Sigil kind sigil → (∀ c ∈ before, Text.isAsciiBlank c = true) →
      (∀ c ∈ between, Text.isAsciiBlank c = true) →
      Lead kind (open2 ++ (tilde ++ (before ++ sigil ++ between)))

variable {k k' : TagKind} {a : Text}

theorem Lead.noBrace (h : Lead k a) : '}' ∉ a := by
  cases h with
  | intro ht hs hb hb' =>
    rcases ht with rfl | rfl <;>
      simp [open2, hs.noBrace, noBrace_of_blanks hb, noBrace_of_blanks hb']

theorem Lead.opens (h : Lead k a) : ∃ y, a = open2 ++ y := by
  cases h with
  | intro => exact ⟨_, rfl⟩

/-- The sigil is all that is neither a blank nor a tilde nor a brace. -/
theorem Lead.sigil (h : Lead k a) :
    TagKind.Sigil k (a.filter fun c => !Text.isAsciiBlank c && c ≠ '~' && c ≠ '{') := by
  cases h with
  | @intro tilde before sigil between ht hs hb hb' =>
    have none {s : Text} (h : ∀ c ∈ s, Text.isAsciiBlank c = true) :
        s.filter (fun c => !Text.isAsciiBlank c && c ≠ '~' && c ≠ '{') = [] :=
      List.filter_eq_nil_iff.2 fun c hc => by simp [h c hc]
    have htilde : tilde.filter (fun c => !Text.isAsciiBlank c && c ≠ '~' && c ≠ '{') = [] := by
      rcases ht with rfl | rfl <;> rfl
    have hsigil : sigil.filter (fun c => !Text.isAsciiBlank c && c ≠ '~' && c ≠ '{') = sigil := by
      cases hs <;> rfl
    have hopen : open2.filter (fun c => !Text.isAsciiBlank c && c ≠ '~' && c ≠ '{') = [] := rfl
    simp only [List.filter_append, hopen, htilde, none hb, none hb', hsigil, List.nil_append,
      List.append_nil]
    exact hs

/-- One beginning tells one kind. -/
theorem Lead.unique (h : Lead k a) (h' : Lead k' a) : k = k' := by
  have hs := h.sigil
  have hs' := h'.sigil
  generalize a.filter _ = sigil at hs hs'
  cases hs <;> cases hs' <;> rfl

end Tag

/-! ## Names registered alike -/

namespace PartialName

variable (declared : List Text) (key : Text → Text)

/-- The tokens spell names that are free and have the same key. -/
structure SameKey (token token' : Slice) : Prop where
  free : Node.isFree declared (unquote token.text) = true
  free' : Node.isFree declared (unquote token'.text) = true
  key_eq : key (unquote token'.text) = key (unquote token.text)

/-- The names are spelled the same, or both are free and have the same key. -/
inductive Agrees : PartialName → PartialName → Prop
  | moved {name : PartialName} (i : Nat) : Agrees name (name.moved i)
  | spelled {token token' : Slice} : SameKey declared key token token' →
      Agrees (.fixed token) (.fixed token')

variable {declared key} {name name' : PartialName}

theorem lowered_moved (name : PartialName) (i : Nat) :
    ((name.moved i).lowered declared key).token.text = (name.lowered declared key).token.text := by
  cases name with
  | computed => rfl
  | fixed token =>
    unfold moved lowered
    dsimp only
    split <;> rfl

/-- The closing tag of a name is lowered to the same text. -/
theorem Agrees.closing_eq (h : Agrees declared key name name') (s : Text) :
    name'.closing declared key s = name.closing declared key s := by
  cases h with
  | moved i => cases name <;> rfl
  | spelled hs => simp [closing, hs.free, hs.free', hs.key_eq]

theorem read_moved {s params : Text} {i : Nat} (h : read ⟨i, s⟩ = .ok (name, params)) (j : Nat) :
    read ⟨j, s⟩ = .ok (name.moved j, params) := by
  obtain ⟨rest, hr, rfl⟩ := read_eq_ok_iff.1 h
  exact read_eq_ok_iff.2 ⟨rest, hr.moved j, rfl⟩

end PartialName

/-! ## Blocks that are open -/

/-- The name of the partial whose block is open. -/
def Opener.name? : Opener → Option PartialName
  | .invocation name _ => some name
  | _ => none

namespace Parser

/-- The names of the open blocks, the innermost first. -/
def openNames (p : Parser) : List (Option PartialName) :=
  p.stack.map fun f => f.opener.name?

/-- The names of the open blocks after a tag. -/
def namesAfter (names : List (Option PartialName)) (t : Tag) : List (Option PartialName) :=
  match t.kind with
  | .openBlock | .openInverse | .openDecorator => none :: names
  | .openInvocation => (PartialName.read t.inner).toOption.map Prod.fst :: names
  | .close => names.tail
  | _ => names

variable {p p' q q' : Parser}

theorem openNames_push (p : Parser) (n : Node) : (p.push n).openNames = p.openNames := by
  have h := congrArg (List.map Opener.name?) (openers_push p n)
  rwa [List.map_map, List.map_map] at h

theorem openNames_stepTag {t : Tag} (h : p.stepTag t = .ok q) :
    q.openNames = namesAfter p.openNames t := by
  unfold namesAfter
  cases takes_of_stepTag h with
  | leaf hn =>
    rw [openNames_push]
    unfold leaf? at hn
    split at hn <;> simp_all
  | invocation hk => rw [openNames_push, hk]
  | openInvocation hk hr =>
    rw [hk, hr]
    rfl
  | @openBlock inverted hk =>
    rw [hk]
    cases inverted <;> rfl
  | openDecorator hk =>
    rw [hk]
    rfl
  | otherwise hk h =>
    obtain ⟨f, outer, hs, rfl⟩ := otherwise_eq_ok_iff.1 h
    simp [openNames, hs, hk]
  | close hk h =>
    obtain ⟨f, outer, hs, -, rfl⟩ := close_eq_ok_iff.1 h
    rw [hk, openNames_push, openNames, openNames, hs]
    rfl

variable (declared : List Text) (key : Text → Text)

/-- The same blocks are open in both parsers, with names that agree. -/
structure Alike (p p' : Parser) : Prop where
  sections : p'.sections = p.sections
  openNames : List.Forall₂ (Option.Rel (PartialName.Agrees declared key)) p.openNames p'.openNames

variable {declared key}

theorem Alike.keeps (h : Alike declared key p p') : keeps p'.stack = keeps p.stack := by
  rw [keeps_eq, keeps_eq, h.sections]

theorem Alike.push (h : Alike declared key p p') (n n' : Node) :
    Alike declared key (p.push n) (p'.push n') :=
  ⟨by rw [sections_push, sections_push, h.sections], by
    rw [openNames_push, openNames_push]
    exact h.openNames⟩

variable (declared key) in
/-- The tags are of one kind, and the names that are read in them agree. -/
structure TagsAgree (t t' : Tag) : Prop where
  kind : t'.kind = t.kind
  name : t.kind = .invocation ∨ t.kind = .openInvocation → ∀ name params name' params',
    PartialName.read t.inner = .ok (name, params) →
    PartialName.read t'.inner = .ok (name', params') → PartialName.Agrees declared key name name'

/-- Tags that agree keep the same blocks open. -/
theorem Alike.stepTag (h : Alike declared key p p') {t t' : Tag} (ht : TagsAgree declared key t t')
    (hp : p.stepTag t = .ok q) (hp' : p'.stepTag t' = .ok q') : Alike declared key q q' := by
  refine ⟨?_, ?_⟩
  · rw [sections_stepTag hp, sections_stepTag hp', h.sections, BlockSection.after, BlockSection.after,
      ht.kind]
  · rw [openNames_stepTag hp, openNames_stepTag hp']
    unfold namesAfter
    rw [ht.kind]
    cases hk : t.kind <;> simp only
    case openInvocation =>
      obtain ⟨name, params, hr⟩ := Lowering.read_of_stepTag hp (.inr hk)
      obtain ⟨name', params', hr'⟩ := Lowering.read_of_stepTag hp' (.inr (ht.kind.trans hk))
      rw [hr, hr']
      exact .cons (.some (ht.name (.inr hk) _ _ _ _ hr hr')) h.openNames
    case close =>
      have hn := h.openNames
      generalize p.openNames = names, p'.openNames = names' at hn ⊢
      cases hn with
      | nil => exact .nil
      | cons _ hrest => exact hrest
    case openBlock => exact .cons .none h.openNames
    case openInverse => exact .cons .none h.openNames
    case openDecorator => exact .cons .none h.openNames
    all_goals exact h.openNames

end Parser

/-! ## Names and closing tags in the tokens -/

namespace Lowering

variable {declared : List Text} {key : Text → Text} {i j start : Nat} {s s' rest rest' : Text}
  {p p' q q' : Parser} {t t' : Token} {ts ts' : List Token} {stack stack' : List Frame}

/-- What is taken from a closing tag is taken from the name of its block. -/
theorem ofClose_eq {β : Type} (g : Harvest β) (p : Parser) (inner : Slice) :
    g.ofClose p.stack inner = (p.openNames.headD none).toList.flatMap fun n => g.close n inner := by
  obtain ⟨root, stack⟩ := p
  cases stack with
  | nil => rfl
  | cons f outer =>
    obtain ⟨o, i, body, inverse⟩ := f
    cases o with
    | invocation => exact (List.append_nil _).symm
    | _ => rfl

theorem inner_of_spot {x : PartialName × Slice} (h : x ∈ spots.ofToken stack t) :
    ∃ tag, t = .tag tag ∧ x.2.start = tag.inner.start := by
  obtain ⟨name, slice⟩ := x
  cases hasSpot_of_mem h with
  | name hk hr =>
    obtain ⟨more, hreads, -⟩ := PartialName.read_eq_ok_iff.1 hr
    exact ⟨_, rfl, hreads.eq.2.1⟩
  | close => exact ⟨_, rfl, rfl⟩

/-- A name or a closing tag stands between the braces of its token. -/
theorem spot_bounds {x : PartialName × Slice} (h : x ∈ spots.ofToken stack t)
    (hn : Token.next start s = .ok (t, rest)) :
    start + 2 ≤ x.2.start ∧ x.2.start + 2 ≤ t.whole.stop := by
  obtain ⟨tag, rfl, hx⟩ := inner_of_spot h
  obtain ⟨r, -, -, hread⟩ := Token.next_tag.1 hn
  obtain ⟨a, b, hw, hi⟩ := Tag.inner_of_read hread
  have hstart : tag.whole.start = start := (Token.next_eq hn).1
  have h2 : Text.size open2 = 2 := rfl
  have h2' : Text.size close2 = 2 := rfl
  rw [hx, Slice.stop, Token.whole, hw, hstart, hi]
  simp only [Text.size_append, h2, h2']
  omega

theorem le_start_of_spot {x : PartialName × Slice} (h : x ∈ spots.ofRun p ts)
    (hs : Token.stream start s = .ok ts) : start + 2 ≤ x.2.start := by
  induction ts generalizing p start s with
  | nil => exact absurd h List.not_mem_nil
  | cons t ts ih =>
    obtain ⟨-, rest, hn, hrest⟩ := Token.stream_cons_eq_ok hs
    unfold Harvest.ofRun at h
    split at h
    · rcases List.mem_append.1 h with h | h
      · exact (spot_bounds h hn).1
      · have := ih h hrest
        have hstart := (Token.next_eq hn).1
        rw [Slice.stop] at this
        omega
    · exact absurd h List.not_mem_nil

/-- A token with a name or a closing tag of a fixed name, taken apart. -/
structure SpotAt (start : Nat) (t : Tag) (slice : Slice) (a m : Text) : Prop where
  lead : Tag.Lead t.kind a
  start_eq : slice.start = start + Text.size a
  ne_nil : slice.text ≠ []
  closeless : Closeless m
  whole_eq : t.whole.text = a ++ (slice.text ++ (m ++ close2))

theorem exists_spotAt {token slice : Slice} (h : (PartialName.fixed token, slice) ∈ spots.ofToken p.stack t)
    (hn : Token.next start s = .ok (t, rest)) (hp : p.step t = .ok q) (hnamed : Parser.Named p.stack) :
    ∃ tag a m, t = .tag tag ∧ SpotAt start tag slice a m := by
  have spotAt {t : Tag} {more : Text} (hn : Token.next start s = .ok (.tag t, rest))
      (hk : t.kind = .invocation ∨ t.kind = .openInvocation ∨ t.kind = .close)
      (hstart : slice.start = t.inner.start) (hne : slice.text ≠ [])
      (hi : t.inner.text = slice.text ++ more) : ∃ a m, SpotAt start t slice a m := by
    obtain ⟨tilde, a, b, hw, hs, hsp, htilde, -⟩ := Token.next_exchange hn hk (by simp [hi, hne])
    rw [hi] at hw hsp
    cases hsp with
    | @intro before sigil between _ blanks tl hsig hb hb' _ _ _ hcl _ =>
      refine ⟨_, more ++ (blanks ++ tl), .intro htilde hsig hb hb', hstart.trans hs, hne, ?_, ?_⟩
      · rw [List.append_assoc] at hcl
        exact hcl.of_append
      · rw [hw]
        simp
  generalize hname : PartialName.fixed token = name at h
  cases hasSpot_of_mem h with
  | @name t name params hk hr =>
    obtain ⟨more, hreads, -⟩ := PartialName.read_eq_ok_iff.1 hr
    obtain ⟨hi, hstart, hne⟩ := hreads.eq
    obtain ⟨a, m, hat⟩ := spotAt hn (hk.imp_right .inl) hstart hne hi
    exact ⟨t, a, m, rfl, hat⟩
  | @close t f outer name params hk hs ho =>
    subst hname
    obtain ⟨f', outer', hs', hc⟩ := closedBy_of_stepTag (Parser.step_tag_eq_ok_iff.1 hp) hk
    obtain ⟨rfl, rfl⟩ := List.cons.inj (hs.symm.trans hs')
    have hne : unquote token.text ≠ [] :=
      hnamed _ (hs ▸ List.mem_cons_self) (.fixed token) params ho
    obtain ⟨a, m, hat⟩ := spotAt hn (.inr (.inr hk)) rfl
      (PartialName.close_ne_nil (ho ▸ hc) hne) (List.append_nil _).symm
    exact ⟨t, a, m, rfl, hat⟩

/-- A free name and the tag that closes its block are replaced by the registry name. -/
theorem changes_of_spot {token slice : Slice}
    (h : (PartialName.fixed token, slice) ∈ spots.ofToken p.stack t)
    (hfree : Node.isFree declared (unquote token.text) = true) :
    (changes declared key).ofToken p.stack t =
      Edit.needed slice (Alias.ofReference (key (unquote token.text))) := by
  have hkeep : keeps p.stack = true := by
    unfold Harvest.ofToken at h
    split at h
    · next hk => exact hk
    · exact nomatch h
  unfold Harvest.ofToken
  rw [if_pos hkeep]
  generalize hname : PartialName.fixed token = name at h
  cases hasSpot_of_mem h with
  | name hk hr =>
    subst hname
    simp only [ofTag_name _ hk hr, changes, PartialName.lowered_free hfree]
    rfl
  | @close t f outer name params hk hs ho =>
    subst hname
    have hnames : p.openNames = some (.fixed token) :: outer.map fun f => f.opener.name? := by
      rw [Parser.openNames, hs, List.map_cons, ho]
      rfl
    simp [Harvest.ofTag, hk, ofClose_eq, hnames, changes, PartialName.closing, hfree]

end Lowering

/-! ## Sources that are respelled -/

/-- The texts, at offsets `i` and `j`, are the same but for names and closing tags that are listed in `l` and
`l'`; each of them belongs to a free name, and both names have the same key. -/
inductive Respelled (declared : List Text) (key : Text → Text) (l l' : List (PartialName × Slice)) :
    Nat → Text → Nat → Text → Prop
  | same {i j : Nat} {s : Text} : Respelled declared key l l' i s j s
  | next {i j : Nat} {a s s' : Text} {token token' slice slice' : Slice} :
      (.fixed token, slice) ∈ l → slice.start = i + Text.size a →
      (.fixed token', slice') ∈ l' → slice'.start = j + Text.size a →
      PartialName.SameKey declared key token token' →
      Respelled declared key l l' slice.stop s slice'.stop s' →
      Respelled declared key l l' i (a ++ (slice.text ++ s)) j (a ++ (slice'.text ++ s'))

namespace Respelled

open Lowering

variable {declared : List Text} {key : Text → Text} {l l' k k' : List (PartialName × Slice)} {i j : Nat}
  {s s' : Text}

/-- Only what is listed from the offsets on matters. -/
theorem mono (h : Respelled declared key l l' i s j s') (hl : ∀ x ∈ l, i ≤ x.2.start → x ∈ k)
    (hl' : ∀ x ∈ l', j ≤ x.2.start → x ∈ k') : Respelled declared key k k' i s j s' := by
  induction h with
  | same => exact .same
  | @next i j a s s' token token' slice slice' hm hstart hm' hstart' hkey _ ih =>
    have hle : i ≤ slice.start := by omega
    have hle' : j ≤ slice'.start := by omega
    have hstop : slice.start ≤ slice.stop := Nat.le_add_right _ _
    have hstop' : slice'.start ≤ slice'.stop := Nat.le_add_right _ _
    exact .next (hl _ hm hle) hstart (hl' _ hm' hle') hstart' hkey
      (ih (fun x hx hi => hl x hx (by omega)) fun x hx hj => hl' x hx (by omega))

/-- Where nothing is listed nothing differs. -/
theorem eq_of_nil (h : Respelled declared key l l' i s j s') (hl : l = [] ∨ l' = []) : s' = s := by
  cases h with
  | same => rfl
  | next hm _ hm' =>
    rcases hl with rfl | rfl
    · exact nomatch hm
    · exact nomatch hm'

/-- What comes before all that is listed is the same. -/
theorem skip {c r : Text} (h : Respelled declared key l l' i (c ++ r) j s')
    (hl : ∀ x ∈ l, i + Text.size c ≤ x.2.start) :
    ∃ r', s' = c ++ r' ∧ Respelled declared key l l' (i + Text.size c) r (j + Text.size c) r' := by
  generalize hs : c ++ r = s at h
  cases h with
  | same => exact ⟨r, hs.symm, .same⟩
  | @next _ _ a s s' token token' slice slice' hm hstart hm' hstart' hkey hrest =>
    have hsize : Text.size c ≤ Text.size a := by
      have := hl _ hm
      simp only at this
      omega
    obtain ⟨b, rfl, rfl⟩ := Text.append_of_size_le hs hsize
    rw [Text.size_append, ← Nat.add_assoc] at hstart hstart'
    exact ⟨b ++ (slice'.text ++ s'), List.append_assoc .., .next hm hstart hm' hstart' hkey hrest⟩

/-- Up to the first closing braces nothing differs if nothing is listed before them. -/
theorem skip_close {m m' r r' : Text} (hm : Closeless m) (hm' : Closeless m')
    (h : Respelled declared key l l' i (m ++ close2 ++ r) j (m' ++ close2 ++ r'))
    (hl : ∀ x ∈ l, i + Text.size (m ++ close2) ≤ x.2.start) :
    m' = m ∧
      Respelled declared key l l' (i + Text.size (m ++ close2)) r (j + Text.size (m ++ close2)) r' := by
  obtain ⟨r₁, hr, hrest⟩ := h.skip hl
  have hcut := (cut_close2_iff (x := r')).2 hm'
  rw [hr, (cut_close2_iff (x := r₁)).2 hm] at hcut
  obtain ⟨rfl, rfl⟩ := Prod.mk.inj (Option.some.inj hcut)
  exact ⟨rfl, hrest⟩

end Respelled

/-! ## Tokens that pair off -/

namespace Lowering

/-- Tokens that are the same but for their places, or but for the name or the closing tag in them. -/
inductive Pair (declared : List Text) (key : Text → Text) (stack stack' : List Frame) :
    Token → Token → Prop
  | moved {t : Token} (j : Nat) : Pair declared key stack stack' t (t.moved j)
  | spelled {t t' : Tag} {token token' slice slice' : Slice} {a b : Text} : t'.kind = t.kind →
      (.fixed token, slice) ∈ spots.ofToken stack (.tag t) →
      slice.start = t.whole.start + Text.size a → t.whole.text = a ++ slice.text ++ b →
      (.fixed token', slice') ∈ spots.ofToken stack' (.tag t') →
      slice'.start = t'.whole.start + Text.size a → t'.whole.text = a ++ slice'.text ++ b →
      PartialName.SameKey declared key token token' → Pair declared key stack stack' (.tag t) (.tag t')

variable {declared : List Text} {key : Text → Text} {i j : Nat} {s s' rest rest' : Text}
  {p p' q q' : Parser} {t t' : Token} {ts ts' : List Token}

theorem whole_moved (t : Token) (j : Nat) : (t.moved j).whole = ⟨j, t.whole.text⟩ := by
  cases t <;> rfl

theorem mem_ofRun_cons {x : PartialName × Slice} (hp : p.step t = .ok q) :
    x ∈ spots.ofRun p (t :: ts) ↔ x ∈ spots.ofToken p.stack t ∨ x ∈ spots.ofRun q ts := by
  rw [Harvest.ofRun_cons _ hp, List.mem_append]

theorem mem_ofRun_of_le {x : PartialName × Slice} (hn : Token.next i s = .ok (t, rest))
    (hp : p.step t = .ok q) (hx : x ∈ spots.ofRun p (t :: ts)) (hle : t.whole.stop ≤ x.2.start) :
    x ∈ spots.ofRun q ts := by
  refine ((mem_ofRun_cons hp).1 hx).resolve_left fun h => ?_
  have := (spot_bounds h hn).2
  omega

/-- The beginning of a tag does not hold a whole token. -/
theorem stop_le_of_lead {kind : TagKind} {a x : Text} (ha : Tag.Lead kind a)
    (hn : Token.next i (a ++ x) = .ok (t, rest)) : i + Text.size a < t.whole.stop := by
  obtain ⟨hstart, hwhole⟩ := Token.next_eq hn
  by_contra hle
  rw [Slice.stop, hstart] at hle
  obtain ⟨c, rfl, -⟩ := Text.append_of_size_le hwhole (by omega)
  have hclose : close2 <:+ t.whole.text := by
    refine Token.close2_suffix_of_next hn ?_
    rintro piece rfl
    obtain ⟨y, hy⟩ := ha.opens
    have := (Token.next_text hn).1
    rw [hy, List.append_assoc, Text.after?_append] at this
    exact absurd this (Option.some_ne_none _)
  exact ha.noBrace (List.mem_append_left c (hclose.subset (by simp [close2])))

/-- Texts that begin with the same token up to where the token ends. -/
theorem next_moved {x : Text} (hn : Token.next i s = .ok (t, rest))
    (hn' : Token.next j (t.whole.text ++ x) = .ok (t', rest'))
    (hx : rest = x ∨ ∃ c y y', 2 ≤ Text.size c ∧ rest = c ++ y ∧ x = c ++ y') :
    t' = t.moved j ∧ rest' = x := by
  have helse : Token.next j (t.whole.text ++ x) = .ok (t.moved j, x) := by
    refine Token.next_elsewhere hn j ?_
    rintro piece rfl
    have hrest := (Token.next_text hn).2.2
    rcases Token.literal_rest s with hl | ⟨z, hz⟩
    · rcases hx with rfl | ⟨c, y, y', hc, hr, -⟩
      · exact .inl ⟨hrest.trans hl, hrest.trans hl⟩
      · rw [hrest, hl] at hr
        rw [(List.append_eq_nil_iff.1 hr.symm).1] at hc
        simp at hc
    · refine .inr ⟨⟨z, hrest.trans hz⟩, ?_⟩
      rcases hx with rfl | ⟨c, y, y', hc, hr, rfl⟩
      · exact ⟨z, hrest.trans hz⟩
      · have hopen : open2 ++ z = c ++ y := hz.symm.trans (hrest.symm.trans hr)
        obtain ⟨d, rfl, -⟩ := Text.append_of_size_le hopen hc
        exact ⟨d ++ y', List.append_assoc ..⟩
  obtain ⟨rfl, rfl⟩ := Prod.mk.inj (Except.ok.inj (hn'.symm.trans helse))
  exact ⟨rfl, rfl⟩

/-- A tag in which what is listed differs is a tag of the same kind that goes on in the same way. -/
theorem pair_of_spots {tag tag' : Tag} {token token' slice slice' : Slice} {a u u' A A' m m' : Text}
    (hn : Token.next i (a ++ (slice.text ++ u)) = .ok (.tag tag, rest))
    (hn' : Token.next j (a ++ (slice'.text ++ u')) = .ok (.tag tag', rest'))
    (hp : p.step (.tag tag) = .ok q) (hp' : p'.step (.tag tag') = .ok q')
    (hrest : Token.stream tag.whole.stop rest = .ok ts)
    (hm : (.fixed token, slice) ∈ spots.ofToken p.stack (.tag tag))
    (hstart : slice.start = i + Text.size a)
    (hm' : (.fixed token', slice') ∈ spots.ofToken p'.stack (.tag tag'))
    (hstart' : slice'.start = j + Text.size a)
    (hat : SpotAt i tag slice A m) (hat' : SpotAt j tag' slice' A' m')
    (hkey : PartialName.SameKey declared key token token')
    (h : Respelled declared key (spots.ofRun p (.tag tag :: ts)) (spots.ofRun p' (.tag tag' :: ts'))
      slice.stop u slice'.stop u') :
    Pair declared key p.stack p'.stack (.tag tag) (.tag tag') ∧
      Respelled declared key (spots.ofRun q ts) (spots.ofRun q' ts') tag.whole.stop rest
        tag'.whole.stop rest' := by
  have parts {i : Nat} {tag : Tag} {slice : Slice} {u rest A m : Text}
      (hn : Token.next i (a ++ (slice.text ++ u)) = .ok (.tag tag, rest))
      (hstart : slice.start = i + Text.size a) (hat : SpotAt i tag slice A m) :
      A = a ∧ u = m ++ close2 ++ rest ∧ tag.whole.start = i ∧
        tag.whole.stop = slice.stop + Text.size (m ++ close2) := by
    obtain ⟨hi, hwhole⟩ := Token.next_eq hn
    change tag.whole.start = i at hi
    change tag.whole.text ++ rest = _ at hwhole
    have hsize : Text.size A = Text.size a := by
      have := hat.start_eq
      omega
    rw [hat.whole_eq, List.append_assoc, List.append_assoc slice.text] at hwhole
    obtain ⟨rfl, hu⟩ := Text.append_inj_of_size hwhole hsize
    refine ⟨rfl, (List.append_cancel_left hu).symm, hi, ?_⟩
    rw [Slice.stop, Slice.stop, hat.whole_eq, hi, hstart]
    simp [Nat.add_assoc]
  obtain ⟨rfl, rfl, hi, hstop⟩ := parts hn hstart hat
  obtain ⟨rfl, rfl, hj, hstop'⟩ := parts hn' hstart' hat'
  have hlater : Respelled declared key (spots.ofRun q ts) (spots.ofRun q' ts') slice.stop
      (m ++ close2 ++ rest) slice'.stop (m' ++ close2 ++ rest') := by
    -- all that is listed in one token has the same place
    have later {i : Nat} {tag : Tag} {slice : Slice} {p q : Parser} {token : Slice} {A m : Text}
        {ts : List Token} (hp : p.step (.tag tag) = .ok q)
        (hm : (.fixed token, slice) ∈ spots.ofToken p.stack (.tag tag)) (hat : SpotAt i tag slice A m)
        (x : PartialName × Slice) (hx : x ∈ spots.ofRun p (.tag tag :: ts))
        (hle : slice.stop ≤ x.2.start) : x ∈ spots.ofRun q ts := by
      refine ((mem_ofRun_cons hp).1 hx).resolve_left fun h => ?_
      obtain ⟨t₁, h₁, hs₁⟩ := inner_of_spot h
      obtain ⟨t₂, h₂, hs₂⟩ := inner_of_spot hm
      have hsame : x.2.start = slice.start := by
        rw [hs₁, ← Token.tag.inj h₁, Token.tag.inj h₂, ← hs₂]
      have := Slice.start_lt_stop hat.ne_nil
      omega
    exact h.mono (later hp hm hat) (later hp' hm' hat')
  obtain ⟨rfl, hmore⟩ := hlater.skip_close hat.closeless hat'.closeless fun x hx => by
    have := le_start_of_spot hx hrest
    omega
  rw [← hstop, ← hstop'] at hmore
  have hkind : tag'.kind = tag.kind := hat'.lead.unique hat.lead
  have hwhole := hat.whole_eq.trans (List.append_assoc ..).symm
  have hwhole' := hat'.whole_eq.trans (List.append_assoc ..).symm
  exact ⟨.spelled hkind hm (hi ▸ hstart) hwhole hm' (hj ▸ hstart') hwhole' hkey, hmore⟩

end Lowering

/-- The first tokens of sources that are respelled pair off, and the rests are respelled. -/
theorem Respelled.token {declared : List Text} {key : Text → Text} {i j : Nat} {s s' rest rest' : Text}
    {p p' q q' : Parser} {t t' : Token} {ts ts' : List Token}
    (hn : Token.next i s = .ok (t, rest)) (hn' : Token.next j s' = .ok (t', rest'))
    (hp : p.step t = .ok q) (hp' : p'.step t' = .ok q')
    (hnamed : Parser.Named p.stack) (hnamed' : Parser.Named p'.stack)
    (hrest : Token.stream t.whole.stop rest = .ok ts)
    (hrest' : Token.stream t'.whole.stop rest' = .ok ts')
    (h : Respelled declared key (Lowering.spots.ofRun p (t :: ts)) (Lowering.spots.ofRun p' (t' :: ts'))
      i s j s') :
    Lowering.Pair declared key p.stack p'.stack t t' ∧
      Respelled declared key (Lowering.spots.ofRun q ts) (Lowering.spots.ofRun q' ts')
        t.whole.stop rest t'.whole.stop rest' := by
  obtain ⟨hi, hwhole⟩ := Token.next_eq hn
  have hj := (Token.next_eq hn').1
  generalize hl : Lowering.spots.ofRun p (t :: ts) = l, hl' : Lowering.spots.ofRun p' (t' :: ts') = l'
    at h
  cases h with
  | same =>
    rw [← hwhole] at hn'
    obtain ⟨rfl, rfl⟩ := Lowering.next_moved hn hn' (.inl rfl)
    exact ⟨.moved j, .same⟩
  | @next _ _ a u u' token token' slice slice' hm hstart hm' hstart' hkey hmore =>
    subst hl hl'
    rcases (Lowering.mem_ofRun_cons hp).1 hm with hin | hlater
    · obtain ⟨tag, A, m, rfl, hat⟩ := Lowering.exists_spotAt hin hn hp hnamed
      have hA : A = a := by
        rw [show (Token.tag tag).whole.text = tag.whole.text from rfl, hat.whole_eq,
          List.append_assoc] at hwhole
        refine (Text.append_inj_of_size hwhole ?_).1
        have := hat.start_eq
        omega
      subst hA
      -- the other token has not ended before the other name either
      have hin' : (PartialName.fixed token', slice') ∈ Lowering.spots.ofToken p'.stack t' := by
        refine ((Lowering.mem_ofRun_cons hp').1 hm').resolve_right fun hlater' => ?_
        have := Lowering.le_start_of_spot hlater' hrest'
        have := Lowering.stop_le_of_lead hat.lead hn'
        simp only at *
        omega
      obtain ⟨tag', A', m', rfl, hat'⟩ := Lowering.exists_spotAt hin' hn' hp' hnamed'
      exact Lowering.pair_of_spots hn hn' hp hp' hrest hin hstart hin' hstart' hat hat' hkey hmore
    · have hbound := Lowering.le_start_of_spot hlater hrest
      have hsize : Text.size t.whole.text + 2 ≤ Text.size a := by
        rw [Slice.stop, hi] at hbound
        simp only at hbound
        omega
      obtain ⟨b, rfl, rfl⟩ := Text.append_of_size_le hwhole (by omega)
      rw [Text.size_append] at hsize hstart hstart'
      rw [List.append_assoc] at hn'
      obtain ⟨rfl, rfl⟩ := Lowering.next_moved hn hn' (.inr ⟨b, _, _, by omega, rfl, rfl⟩)
      have hstop : t.whole.stop = i + Text.size t.whole.text := by rw [Slice.stop, hi]
      have hstop' : (t.moved j).whole.stop = j + Text.size t.whole.text := by
        rw [Lowering.whole_moved]
        rfl
      have hle : t.whole.stop ≤ slice.start := by omega
      have hle' : (t.moved j).whole.stop ≤ slice'.start := by omega
      refine ⟨.moved j, .next hlater (by omega) (Lowering.mem_ofRun_of_le hn' hp' hm' hle') (by omega) hkey
        (hmore.mono (fun x hx h => Lowering.mem_ofRun_of_le hn hp hx ?_)
          fun x hx h => Lowering.mem_ofRun_of_le hn' hp' hx ?_)⟩
      · exact hle.trans ((Nat.le_add_right _ _).trans h)
      · exact hle'.trans ((Nat.le_add_right _ _).trans h)

end Stencil
