import Mathlib
import Stencil.Proofs.Syntax.Delimiters
import Stencil.Proofs.Template.Invocations
import Stencil.Proofs.Template.Places
/-!
The places that a tree records.

A tree keeps where the names of partials, the tags that close their blocks and the raw blocks stand in the
source.  Each of them lies in a token of its own, so they are apart from each other, and the names
follow one another as the walk visits them.  The runtime source is the source with some of these places
filled anew (`spans_parse`).
-/

namespace Stencil

/-! ## Slices of a text -/

namespace Slice

/-- The slice is what stands in the source at its offset. -/
def Within (source : Text) (s : Slice) : Prop :=
  ∃ before after, source = before ++ (s.text ++ after) ∧ s.start = Text.size before

/-- The slices have no byte in common. -/
def Apart (s t : Slice) : Prop :=
  s.stop ≤ t.start ∨ t.stop ≤ s.start

theorem Apart.symm {s t : Slice} (h : s.Apart t) : t.Apart s :=
  h.elim .inr .inl

theorem start_lt_stop {s : Slice} (h : s.text ≠ []) : s.start < s.stop := by
  have := Text.size_pos h
  rw [stop]
  omega

/-- The slices lie in the text one after the other; `start` is the offset of its first character. -/
inductive Laid : Nat → Text → List Slice → Prop
  | none {start : Nat} {s : Text} : Laid start s []
  | next {start : Nat} {a m b : Text} {l : List Slice} :
      Laid (start + Text.size a + Text.size m) b l →
      Laid start (a ++ (m ++ b)) (⟨start + Text.size a, m⟩ :: l)

variable {start : Nat} {s x : Text} {l l' : List Slice} {t : Slice}

theorem laid_one {a m b : Text} : Laid start (a ++ (m ++ b)) [⟨start + Text.size a, m⟩] :=
  .next .none

theorem Laid.append (h : Laid start s l) (hx : Laid (start + Text.size s) x l') :
    Laid start (s ++ x) (l ++ l') := by
  induction h with
  | @none start s =>
    cases hx with
    | none => exact .none
    | @next _ a m b l hb =>
      have hsize : start + Text.size s + Text.size a = start + Text.size (s ++ a) := by
        simp [Nat.add_assoc]
      rw [hsize] at hb ⊢
      rw [← List.append_assoc]
      exact .next hb
  | @next start a m b l _ ih =>
    have hsize : start + Text.size (a ++ (m ++ b)) =
        start + Text.size a + Text.size m + Text.size b := by simp [Nat.add_assoc]
    simp only [List.append_assoc, List.cons_append]
    exact .next (ih (hsize ▸ hx))

theorem Laid.exists_before (h : Laid start s l) (ht : t ∈ l) :
    ∃ before after, s = before ++ (t.text ++ after) ∧ t.start = start + Text.size before := by
  induction h with
  | none => exact nomatch ht
  | @next start a m b l _ ih =>
    rcases List.mem_cons.1 ht with rfl | ht
    · exact ⟨a, b, rfl, rfl⟩
    · obtain ⟨before, after, rfl, hstart⟩ := ih ht
      refine ⟨a ++ (m ++ before), after, by simp, ?_⟩
      rw [hstart, Text.size_append, Text.size_append, Nat.add_assoc, Nat.add_assoc]

theorem Laid.within (h : Laid 0 s l) (ht : t ∈ l) : t.Within s := by
  obtain ⟨before, after, hs, hstart⟩ := h.exists_before ht
  exact ⟨before, after, hs, by rw [hstart, Nat.zero_add]⟩

theorem Laid.pairwise (h : Laid start s l) : l.Pairwise fun t u => t.stop ≤ u.start := by
  induction h with
  | none => exact .nil
  | @next start a m b l hrest ih =>
    refine List.pairwise_cons.2 ⟨fun u hu => ?_, ih⟩
    obtain ⟨before, -, -, hstart⟩ := hrest.exists_before hu
    rw [hstart]
    exact Nat.le_add_right _ _

end Slice

/-! ## Edits carried out -/

namespace Edit

/-- The second text is the first with the edited slices replaced, in the order of the edits, and with all
between them copied; `start` is the offset of the first character. -/
inductive Carried : Nat → Text → List Edit → Text → Prop
  | done {start : Nat} {s : Text} : Carried start s [] s
  | next {start : Nat} {a m b r out : Text} {es : List Edit} :
      Carried (start + Text.size a + Text.size m) b es out →
      Carried start (a ++ (m ++ b)) (⟨⟨start + Text.size a, m⟩, r⟩ :: es) (a ++ (r ++ out))

theorem Fits.carried {start : Nat} {s : Text} {es : List Edit} (h : Fits start s es) :
    Carried start s es (splice start s es) := by
  induction h with
  | none => exact .done
  | next _ _ ih =>
    rw [splice_between]
    exact .next ih

end Edit

/-! ## Spellings of names -/

namespace PartialName

/-- The token writes the name: as it stands, between quotation marks, or in brackets. -/
inductive Writes : Text → Text → Prop
  | bare {name : Text} : name ≠ [] → (∀ c ∈ name, Text.isAsciiBlank c = false) →
      (∀ c ∈ ['(', '"', '\'', '['], name.head? ≠ some c) → Writes name name
  | quoted {mark : Char} {name : Text} : mark = '"' ∨ mark = '\'' → name ≠ [] → mark ∉ name →
      Writes (mark :: (name ++ [mark])) name
  | bracketed {name : Text} : name ≠ [] → ']' ∉ name → Writes ('[' :: (name ++ [']'])) name

theorem notMem_of_splitOnce {c : Char} {s inner rest : Text}
    (h : Text.splitOnce c s = some (inner, rest)) : c ∉ inner := by
  intro hc
  obtain ⟨a, b, rfl⟩ := List.append_of_mem hc
  have hs : s = a ++ [c] ++ (b ++ [c] ++ rest) := by
    rw [Text.cut_eq h]
    simp
  have := Text.cut_first h hs
  simp at this

theorem unquote_of_bare {token : Text} (h : ∀ c ∈ ['"', '\'', '['], token.head? ≠ some c) :
    unquote token = token := by
  unfold unquote
  split
  · rfl
  · next q r =>
    have hq (c : Char) (hc : c ∈ ['"', '\'', '[']) : q ≠ c := fun he => h c hc (by rw [he]; rfl)
    split
    · rfl
    · rw [if_neg]
      simp [hq '"' (by simp), hq '\'' (by simp), hq '[' (by simp)]

theorem writes_of_splitToken {s token rest : Text} (h : splitToken s = .ok (token, rest))
    (hp : s.head? ≠ some '(') (hne : unquote token ≠ []) : Writes token (unquote token) := by
  unfold splitToken at h
  simp only at h
  split at h
  · split at h
    · simp at h
    · next inner rest' hc =>
      obtain ⟨rfl, rfl⟩ := Prod.mk.inj (Except.ok.inj h)
      have hu : unquote ('"' :: inner ++ ['"']) = inner := by simp [unquote]
      rw [hu] at hne ⊢
      exact .quoted (.inl rfl) hne (notMem_of_splitOnce hc)
  · split at h
    · simp at h
    · next inner rest' hc =>
      obtain ⟨rfl, rfl⟩ := Prod.mk.inj (Except.ok.inj h)
      have hu : unquote ('\'' :: inner ++ ['\'']) = inner := by simp [unquote]
      rw [hu] at hne ⊢
      exact .quoted (.inr rfl) hne (notMem_of_splitOnce hc)
  · split at h
    · simp at h
    · next inner rest' hc =>
      obtain ⟨rfl, rfl⟩ := Prod.mk.inj (Except.ok.inj h)
      have hu : unquote ('[' :: inner ++ [']']) = inner := by simp [unquote]
      rw [hu] at hne ⊢
      exact .bracketed hne (notMem_of_splitOnce hc)
  · next h₁ h₂ h₃ =>
    obtain ⟨rfl, rfl⟩ := Prod.mk.inj (Except.ok.inj h)
    -- the token begins as the text does, so with none of the marks
    have hhead (c : Char) (hc : c ∈ ['(', '"', '\'', '[']) :
        (s.takeWhile fun c => !Text.isAsciiBlank c).head? ≠ some c := by
      intro hh
      cases s with
      | nil => simp at hh
      | cons d r =>
        rw [List.takeWhile_cons] at hh
        split at hh
        · obtain rfl := Option.some.inj hh
          simp only [List.mem_cons, List.not_mem_nil, or_false] at hc
          rcases hc with rfl | rfl | rfl | rfl
          · exact hp rfl
          · exact h₁ r rfl
          · exact h₂ r rfl
          · exact h₃ r rfl
        · simp at hh
    have hu := unquote_of_bare fun c hc => hhead c (List.mem_cons_of_mem _ hc)
    rw [hu] at hne ⊢
    exact .bare hne (fun c hc => by simpa using List.mem_takeWhile_imp hc) hhead

theorem Reads.writes {start : Nat} {s rest : Text} {token : Slice}
    (h : Reads start s (.fixed token) rest) : Writes token.text (unquote token.text) := by
  have hne := h.unquote_ne_nil
  cases h with
  | @fixed token _ hp ht hu =>
    refine writes_of_splitToken ht (fun hh => hp ?_) hne
    cases token with
    | nil => exact absurd rfl hne
    | cons c token => exact hh

end PartialName

/-! ## Places in the order of the tokens -/

namespace Node

/-- The places that a node records itself: of its name, of what closes its block, of its own text. -/
def ownSpans : Node → List Slice
  | invocation name _ => [name.token]
  | blockInvocation name _ close _ => [name.token, close]
  | raw _ _ whole => [whole]
  | _ => []

/-- The places that the walk over a forest meets. -/
def spans (nodes : List Node) : List Slice :=
  (walk nodes).flatMap ownSpans

end Node

namespace Harvest

/-- The places of names, closing tags and raw blocks. -/
def places : Harvest Slice where
  name n := [n.token]
  close _ slice := [slice]
  raw _ whole := [whole]

theorem ofNodes_places (nodes : List Node) : places.ofNodes nodes = Node.spans nodes := by
  refine congrArg (fun f => (Node.walk nodes).flatMap f) (funext fun n => ?_)
  cases n <;> rfl

variable {start : Nat} {s rest : Text} {p q : Parser} {ts : List Token} {t : Token}

theorem laid_tag {t : Tag} (h : Token.next start s = .ok (.tag t, rest)) (stack : List Frame) :
    Slice.Laid start t.whole.text (places.ofTag stack t) := by
  obtain ⟨r, -, -, hread⟩ := Token.next_tag.1 h
  obtain ⟨a, b, hw, hstart⟩ := Tag.inner_of_read hread
  have hinner : t.inner = ⟨start + Text.size (open2 ++ a), t.inner.text⟩ := by rw [← hstart]
  rcases places.ofTag_cases stack t with ⟨name, params, -, hr, he⟩ | ⟨-, he⟩ | he <;> rw [he]
  · obtain ⟨more, hreads, -⟩ := PartialName.read_eq_ok_iff.1 hr
    obtain ⟨htext, hplace, -⟩ := hreads.eq
    have hname : places.name name = [⟨start + Text.size (open2 ++ a), name.token.text⟩] := by
      rw [← hstart, ← hplace]
      rfl
    rw [hname, hw, htext, List.append_assoc name.token.text]
    exact Slice.laid_one
  · unfold ofClose
    split
    · have hclose (n : PartialName) : places.close n t.inner =
          [⟨start + Text.size (open2 ++ a), t.inner.text⟩] := congrArg (fun s => [s]) hinner
      rw [hclose, hw]
      exact Slice.laid_one
    · exact .none
  · exact .none

/-- The place that a token gives lies in it. -/
theorem laid_token (h : Token.next start s = .ok (t, rest)) (stack : List Frame) :
    Slice.Laid start t.whole.text (places.ofToken stack t) := by
  unfold ofToken
  split
  · cases t with
    | text piece => exact .none
    | raw i b =>
      obtain rfl : i = start := (Token.next_eq h).1
      have hlaid : Slice.Laid i ([] ++ (b.written ++ [])) [⟨i + Text.size [], b.written⟩] :=
        Slice.laid_one
      rw [List.nil_append, List.append_nil] at hlaid
      exact hlaid
    | tag t => exact laid_tag h stack
  · exact .none

/-- The places that a run gives lie in its source, one after the other. -/
theorem laid_run (h : Token.stream start s = .ok ts) (hr : p.run ts = .ok q) :
    Slice.Laid start s (places.ofRun p ts) := by
  induction ts generalizing p start s with
  | nil => exact .none
  | cons t ts ih =>
    obtain ⟨-, rest, hn, hrest⟩ := Token.stream_cons_eq_ok h
    obtain ⟨p', hp, hr⟩ := Parser.run_cons_eq_ok_iff.1 hr
    obtain ⟨hstart, hwhole⟩ := Token.next_eq hn
    rw [Slice.stop, hstart] at hrest
    rw [ofRun_cons _ hp, ← hwhole]
    exact (laid_token hn p.stack).append (ih hrest hr)

theorem names_sublist_token (stack : List Frame) (t : Token) :
    ((names.ofToken stack t).map PartialName.token).Sublist (places.ofToken stack t) := by
  unfold ofToken
  split
  · cases t with
    | text piece => exact List.nil_sublist _
    | raw i b => exact List.nil_sublist _
    | tag t =>
      simp only
      rcases names.ofTag_cases stack t with ⟨name, params, hk, hr, he⟩ | ⟨-, he⟩ | he <;> rw [he]
      · rw [Lowering.ofTag_name places hk hr]
        exact List.Sublist.refl _
      · rw [Lowering.names_ofClose]
        exact List.nil_sublist _
      · exact List.nil_sublist _
  · exact List.nil_sublist _

theorem names_sublist_run (p : Parser) (ts : List Token) :
    ((names.ofRun p ts).map PartialName.token).Sublist (places.ofRun p ts) := by
  induction ts generalizing p with
  | nil => exact List.nil_sublist _
  | cons t ts ih =>
    unfold ofRun
    split
    · rw [List.map_append]
      exact (names_sublist_token _ t).append (ih _)
    · exact List.nil_sublist _

/-- Each name has been read from the content of a tag. -/
theorem reads_of_mem_names {n : PartialName} (h : n ∈ names.ofRun p ts) :
    ∃ start s rest, PartialName.Reads start s n rest := by
  have token {stack : List Frame} {t : Token} (h : n ∈ names.ofToken stack t) :
      ∃ start s rest, PartialName.Reads start s n rest := by
    unfold ofToken at h
    split at h
    · cases t with
      | text piece => exact absurd h List.not_mem_nil
      | raw i b => exact absurd h List.not_mem_nil
      | tag t =>
        simp only at h
        rcases names.ofTag_cases stack t with ⟨name, params, -, hr, he⟩ | ⟨-, he⟩ | he <;> rw [he] at h
        · obtain ⟨rest, hreads, -⟩ := PartialName.read_eq_ok_iff.1 hr
          rw [List.mem_singleton.1 h]
          exact ⟨_, _, rest, hreads⟩
        · rw [Lowering.names_ofClose] at h
          exact absurd h List.not_mem_nil
        · exact absurd h List.not_mem_nil
    · exact absurd h List.not_mem_nil
  induction ts generalizing p with
  | nil => exact absurd h List.not_mem_nil
  | cons t ts ih =>
    unfold ofRun at h
    split at h
    · exact (List.mem_append.1 h).elim token ih
    · exact absurd h List.not_mem_nil

end Harvest

/-! ## Names in the order of the walk -/

theorem Node.invokedNames_eq (nodes : List Node) :
    invokedNames nodes = (invocations nodes).map Invocation.name := by
  rw [invocations, List.map_filterMap]
  refine List.filterMap_congr fun n _ => ?_
  cases n <;> rfl

namespace Parser

variable {p q : Parser}

/-- A token adds its name to those that have been read. -/
theorem names_step {t : Token} (h : p.step t = .ok q) :
    q.invocations.map Invocation.name =
      p.invocations.map Invocation.name ++ Harvest.names.ofToken p.stack t := by
  cases t with
  | text piece =>
    obtain rfl := Except.ok.inj h
    simp [invocations_push, Harvest.ofToken, Node.invocations, Node.walk, Node.descendants,
      Node.invocation?]
  | raw i b =>
    obtain rfl := Except.ok.inj h
    simp [invocations_push, Harvest.ofToken, Harvest.names, Node.invocations, Node.walk,
      Node.descendants, Node.invocation?]
  | tag t =>
    have ht := step_tag_eq_ok_iff.1 h
    have hq := congrArg (List.filterMap fun e : Except SyntaxFault Invocation => e.toOption)
      (invocations_stepTag ht)
    have hok (l : List Invocation) :
        (l.map Except.ok).filterMap (fun e : Except SyntaxFault Invocation => e.toOption) = l := by
      induction l with
      | nil => rfl
      | cons i l ih => simp [Except.toOption]
    rw [List.filterMap_append, hok, hok] at hq
    rw [hq, List.map_append]
    refine congrArg (p.invocations.map Invocation.name ++ ·) ?_
    by_cases hk : t.kind = .invocation ∨ t.kind = .openInvocation
    · obtain ⟨name, params, hr⟩ := Lowering.read_of_stepTag ht hk
      obtain ⟨i, hi, hname⟩ : ∃ i : Invocation,
          Call.ofTag? p.sections t = some ⟨p.sections, .ok i⟩ ∧ i.name = name := by
        rcases hk with hk | hk <;> simp [Call.ofTag?, hk, hr, Except.map]
      rw [kept_ofTag? hi, Harvest.ofToken]
      simp only [Lowering.ofTag_name Harvest.names hk hr]
      split <;> simp [Except.toOption, hname, Harvest.names]
    · have hcall : Call.ofTag? p.sections t = none := by
        unfold Call.ofTag?
        split <;> simp_all
      rw [hcall, Harvest.ofToken]
      simp [Call.kept, Lowering.names_ofTag_nameless p.stack hk]

theorem names_run {ts : List Token} (h : p.run ts = .ok q) :
    q.invocations.map Invocation.name =
      p.invocations.map Invocation.name ++ Harvest.names.ofRun p ts := by
  induction ts generalizing p with
  | nil =>
    obtain rfl := Except.ok.inj h
    simp [Harvest.ofRun]
  | cons t ts ih =>
    obtain ⟨p', hs, hr⟩ := run_cons_eq_ok_iff.1 h
    rw [ih hr, names_step hs, Harvest.ofRun_cons _ hs, List.append_assoc]

end Parser

/-- The walk meets the names in the order of the tokens. -/
theorem Harvest.invokedNames_parse {ts : List Token} {q : Parser} {nodes : List Node}
    (hr : Parser.start.run ts = .ok q) (hf : q.finish = .ok nodes) :
    Node.invokedNames nodes = names.ofRun Parser.start ts := by
  have hq : q.invocations = Node.invocations nodes := by
    obtain rfl := Parser.finish_eq_ok_iff.1 hf
    exact List.append_nil _
  rw [Node.invokedNames_eq, ← hq, Parser.names_run hr]
  rfl

/-! ## Sources -/

theorem Lowering.slice_mem_spans {declared : List Text} {key : Text → Text} {n : Node} {e : Edit}
    (h : e ∈ nodeEdits declared key n) : e.slice ∈ n.ownSpans := by
  have needed {s : Slice} {r : Text} (h : e ∈ Edit.needed s r) : e.slice = s := by
    unfold Edit.needed at h
    split at h
    · exact nomatch h
    · rw [List.mem_singleton.1 h]
  have name {name : PartialName} {closing : List Slice} (h : e ∈ nameEdits declared key name closing) :
      e.slice ∈ name.token :: closing := by
    unfold nameEdits at h
    split at h
    · simp only at h
      split at h
      · obtain ⟨s, hs, he⟩ := List.mem_flatMap.1 h
        rw [needed he]
        exact hs
      · exact nomatch h
    · rw [needed h]
      exact List.mem_cons_self
  cases n with
  | invocation => exact name h
  | blockInvocation => exact name h
  | raw =>
    rw [List.mem_singleton.1 h]
    exact List.mem_singleton_self _
  | _ => exact nomatch h

/-- The places that a tree records are slices of its source, apart from each other; the names stand one
after the other in the order of the walk, and each fixed name is written by its token.  For every
expander, the runtime source is the source in which some of these places are filled as the edits say,
with all else copied. -/
theorem spans_parse {source : Text} {nodes : List Node} (h : parse source = .ok nodes) :
    (∀ s ∈ Node.spans nodes, s.Within source) ∧
    (Node.spans nodes).Pairwise Slice.Apart ∧
    (Node.invokedNames nodes).Pairwise (fun m n => m.token.start < n.token.start) ∧
    (∀ n ∈ Node.invokedNames nodes, ∀ name, n.fixed? = some name →
      PartialName.Writes n.token.text name) ∧
    ∀ e : Expander, ∃ t edits, Template.parse e source = .ok t ∧
      edits.Perm (Lowering.edits (Template.key e) nodes) ∧
      (∀ d ∈ edits, d.slice ∈ Node.spans nodes) ∧ Edit.Carried 0 source edits t.runtimeSource := by
  have hparse := h
  obtain ⟨ts, hts, h⟩ := Except.bind_eq_ok_iff.1 h
  obtain ⟨q, hrun, hfinish⟩ := Except.bind_eq_ok_iff.1 h
  have hlaid : Slice.Laid 0 source (Harvest.places.ofRun Parser.start ts) := Harvest.laid_run hts hrun
  have hperm : (Node.spans nodes).Perm (Harvest.places.ofRun Parser.start ts) := by
    rw [← Harvest.ofNodes_places]
    exact Harvest.places.perm_parse hrun hfinish
  have hnames := Harvest.invokedNames_parse hrun hfinish
  have hreads {n : PartialName} (hn : n ∈ Node.invokedNames nodes) :
      ∃ start s rest, PartialName.Reads start s n rest :=
    Harvest.reads_of_mem_names (hnames ▸ hn)
  refine ⟨fun s hs => hlaid.within (hperm.mem_iff.1 hs), ?_, ?_, fun n hn name hname => ?_, fun e => ?_⟩
  · exact hperm.symm.pairwise (hlaid.pairwise.imp .inl) Slice.Apart.symm
  · have hsorted := hlaid.pairwise.sublist (Harvest.names_sublist_run Parser.start ts)
    rw [← hnames, List.pairwise_map] at hsorted
    refine hsorted.imp_of_mem fun {m n} hm _ hmn => Nat.lt_of_lt_of_le ?_ hmn
    obtain ⟨_, _, _, hm⟩ := hreads hm
    obtain ⟨-, -, hne⟩ := hm.eq
    exact Slice.start_lt_stop hne
  · obtain ⟨_, _, _, hn⟩ := hreads hn
    cases n with
    | computed => exact nomatch hname
    | fixed token =>
      rw [← Option.some.inj hname]
      exact hn.writes
  · have hnamed : Parser.Named Parser.start.stack := fun o ho => nomatch ho
    have hfits := Lowering.fits_run (Node.declaredNames nodes) (Template.key e) hts hrun hnamed
    have hedits := (Lowering.changes (Node.declaredNames nodes) (Template.key e)).perm_parse hrun hfinish
    rw [← Lowering.edits_eq] at hedits
    refine ⟨_, _, by rw [Template.parse, hparse]; rfl, hedits.symm, fun d hd => ?_, ?_⟩
    · obtain ⟨n, hn, hd⟩ := List.mem_flatMap.1 (hedits.mem_iff.2 hd)
      exact List.mem_flatMap.2 ⟨n, hn, Lowering.slice_mem_spans hd⟩
    · have hlower : lower (Template.key e) source nodes = _ :=
        congrArg (Edit.splice 0 source) (Edit.sorted_of_perm hedits hfits.ordered)
      exact hlower ▸ hfits.carried

/-- A partial with a body and an `else` in it, whose closing tag is spelled otherwise than its name, around
partials with a bare and with a computed name. -/
def mixedPlaces : Text :=
  'ü' :: open2 ++ "#> [a b] k".toList ++ close2 ++ "{{> c:d}}{{else}}{{> (f . y)}}".toList ++ open2 ++
    "/\"a b\"".toList ++ close2

def mixedPlacesNodes : List Node :=
  [.text ['ü'],
    .blockInvocation (.fixed ⟨7, "[a b]".toList⟩) ['k'] ⟨49, "\"a b\"".toList⟩
      [.invocation (.fixed ⟨20, "c:d".toList⟩) [], .invocation (.computed ⟨37, "(f . y)".toList⟩) []]]

/-- The names that are no plain words become aliases, also in the closing tag, and the lone dot is spelled
out. -/
def mixedPlacesEdits : List Edit :=
  [⟨⟨7, "[a b]".toList⟩, Alias.ofReference "a b".toList⟩,
    ⟨⟨20, "c:d".toList⟩, Alias.ofReference "c:d".toList⟩,
    ⟨⟨37, "(f . y)".toList⟩, "(f this y)".toList⟩,
    ⟨⟨49, "\"a b\"".toList⟩, Alias.ofReference "a b".toList⟩]

def mixedPlacesRuntime : Text :=
  'ü' :: open2 ++ "#> ".toList ++ Alias.ofReference "a b".toList ++ " k".toList ++ close2 ++
    open2 ++ "> ".toList ++ Alias.ofReference "c:d".toList ++ close2 ++
    "{{else}}{{> (f this y)}}".toList ++ open2 ++ '/' :: Alias.ofReference "a b".toList ++ close2

theorem edits_mixedPlaces :
    (Lowering.edits (Template.key .identity) mixedPlacesNodes).Perm mixedPlacesEdits := by
  decide +kernel

theorem lower_mixedPlaces :
    lower (Template.key .identity) mixedPlaces mixedPlacesNodes = mixedPlacesRuntime := by
  have hsorted : mixedPlacesEdits.Pairwise fun d e => d.slice.start < e.slice.start := by decide
  rw [lower, Edit.applyAll, Edit.sorted_of_perm edits_mixedPlaces hsorted]
  decide +kernel

theorem spans_parse_mixed : parse mixedPlaces = .ok mixedPlacesNodes ∧
    (∀ s ∈ Node.spans mixedPlacesNodes, s.Within mixedPlaces) ∧
    (Node.spans mixedPlacesNodes).Pairwise Slice.Apart ∧
    PartialName.Writes "[a b]".toList "a b".toList ∧
    ∃ t edits, Template.parse .identity mixedPlaces = .ok t ∧
      edits.Perm (Lowering.edits (Template.key .identity) mixedPlacesNodes) ∧
      edits.Perm mixedPlacesEdits ∧
      Edit.Carried 0 mixedPlaces edits t.runtimeSource ∧ t.runtimeSource = mixedPlacesRuntime := by
  have h : parse mixedPlaces = .ok mixedPlacesNodes := by cbv
  obtain ⟨hwithin, hapart, -, hwrites, hedits⟩ := spans_parse h
  obtain ⟨t, edits, ht, hperm, -, hcarried⟩ := hedits .identity
  refine ⟨h, hwithin, hapart, hwrites _ List.mem_cons_self _ rfl, t, edits, ht, hperm,
    hperm.trans edits_mixedPlaces, hcarried, ?_⟩
  rw [Template.parse, h] at ht
  obtain rfl := Except.ok.inj ht
  exact lower_mixedPlaces

end Stencil
