import Mathlib.Data.List.Infix
import Stencil.Escaper
import Stencil.Proofs.Markup.Reads
import Stencil.Proofs.Syntax.Tag
import Stencil.Proofs.Template.Harvest
/-!
Attribute values, escaped and then parsed.

The escaper knows an invocation by the sigil that stands right after the opening braces or after their
tilde.  The parser also drops blanks there.  A value without such blanks is safe: it is refused, or
nothing is collected from it once it is escaped (`collected_escape_attributeTag`).  An invocation with
blanks before its sigil is missed (`collected_escape_attributeTag_loose`).
-/

namespace Stencil

/-! ## The beginning of an invocation -/

/-- What stands between the opening braces of an invocation and its name. -/
structure Sign where
  tilde : Text
  blanks : Text
  sigil : Text
  tilde_eq : tilde = ['~'] ∨ tilde = []
  blank : ∀ c ∈ blanks, Text.isAsciiBlank c = true
  sigil_eq : sigil = ['>'] ∨ sigil = ['#', '>']

namespace Sign

/-- The characters of a sign. -/
def isChar (c : Char) : Bool :=
  Text.isAsciiBlank c || c = '~' || c = '#' || c = '>'

def text (g : Sign) : Text :=
  g.tilde ++ g.blanks ++ g.sigil

def opener (g : Sign) : Text :=
  open2 ++ g.text

variable (g : Sign)

theorem chars : ∀ c ∈ g.text, isChar c = true := by
  intro c hc
  rw [text, List.mem_append, List.mem_append] at hc
  rcases hc with (hc | hc) | hc
  · rcases g.tilde_eq with h | h <;> rw [h] at hc
    · rw [List.mem_singleton.1 hc]
      decide
    · exact absurd hc List.not_mem_nil
  · simp [isChar, g.blank c hc]
  · have hsigil : g.sigil.all isChar = true := by
      rcases g.sigil_eq with h | h <;> rw [h] <;> decide
    exact List.all_eq_true.1 hsigil c hc

theorem not_mem {c : Char} (hc : isChar c = false) : c ∉ g.text :=
  fun h => by simp [g.chars c h] at hc

theorem not_mem_opener {c : Char} (hc : isChar c = false) (hb : c ≠ '{') : c ∉ g.opener := by
  simp [opener, open2, hb, g.not_mem hc]

theorem gt_mem : '>' ∈ g.text := by
  rcases g.sigil_eq with h | h <;> simp [text, h]

theorem opener_isPrefix (q rest : Text) : g.opener <+: g.opener ++ q ++ close2 ++ rest :=
  ⟨q ++ close2 ++ rest, by simp⟩

theorem exists_cons : ∃ c r, g.text = c :: r ∧ isChar c = true := by
  obtain ⟨c, r, h⟩ := List.exists_cons_of_ne_nil (List.ne_nil_of_mem g.gt_mem)
  exact ⟨c, r, h, g.chars c (h ▸ List.mem_cons_self)⟩

end Sign

/-- Whether a text can begin like an invocation when more text follows. -/
def mayOpen : Text → Bool
  | [] => true
  | [c] => c = '{'
  | [c, d] => c = '{' && d = '{'
  | c :: d :: e :: _ => c = '{' && d = '{' && Sign.isChar e

theorem mayOpen_of_opener {g : Sign} {y x : Text} (h : g.opener <+: y ++ x) : mayOpen y = true := by
  obtain ⟨e, r, hg, he⟩ := g.exists_cons
  rw [Sign.opener, hg] at h
  match y with
  | [] => rfl
  | [c] =>
    simp only [open2, List.cons_append, List.nil_append, List.cons_prefix_cons] at h
    simp [mayOpen, h.1.symm]
  | [c, d] =>
    simp only [open2, List.cons_append, List.nil_append, List.cons_prefix_cons] at h
    simp [mayOpen, h.1.symm, h.2.1.symm]
  | c :: d :: e' :: y =>
    simp only [open2, List.cons_append, List.nil_append, List.cons_prefix_cons] at h
    obtain ⟨rfl, rfl, rfl, -⟩ := h
    simp [mayOpen, he]

/-- The text begins with an invocation that has blanks before its sigil. -/
def opensLoosely (s : Text) : Bool :=
  match Text.after? open2 s with
  | none => false
  | some r =>
    let p := Text.run Text.isAsciiBlank (Tag.splitTilde r).2
    !p.1.isEmpty && (Text.startsWith ['>'] p.2 || Text.startsWith ['#', '>'] p.2)

/-- Somewhere in the text an invocation has blanks before its sigil. -/
def LooselyOpened (v : Text) : Prop :=
  ∃ s ∈ v.tails, opensLoosely s = true

instance : DecidablePred LooselyOpened :=
  fun v => inferInstanceAs (Decidable (∃ s ∈ v.tails, opensLoosely s = true))

theorem Sign.opensLoosely_of_opener (g : Sign) (hb : g.blanks ≠ []) {s : Text} (h : g.opener <+: s) :
    opensLoosely s = true := by
  obtain ⟨y, rfl⟩ := h
  obtain ⟨b, bs, hbs⟩ := List.exists_cons_of_ne_nil hb
  have hblank := g.blank b (hbs ▸ List.mem_cons_self)
  have htilde : Tag.splitTilde (g.text ++ y) = (g.tilde, g.blanks ++ (g.sigil ++ y)) := by
    refine Tag.splitTilde_eq_iff.2 ⟨by simp [text], g.tilde_eq.imp_right fun h0 => ⟨h0, ?_⟩⟩
    rw [hbs]
    rintro hh
    rw [Option.some.inj hh] at hblank
    exact absurd hblank (by decide)
  have hrun : Text.run Text.isAsciiBlank (g.blanks ++ (g.sigil ++ y)) = (g.blanks, g.sigil ++ y) := by
    refine Text.run_of_all g.blank fun c hc => ?_
    rcases g.sigil_eq with h | h <;> rw [h] at hc <;> rw [← Option.some.inj hc] <;> decide
  rw [opensLoosely, opener, List.append_assoc, Text.after?_append]
  simp only [htilde, hrun]
  rcases g.sigil_eq with h | h <;> rw [h, hbs] <;> simp [Text.startsWith, Text.after?]

/-! ## Tags that invoke -/

/-- The tag names a partial to be rendered. -/
def Tag.Invokes (t : Tag) : Prop :=
  t.kind = .invocation ∨ t.kind = .openInvocation

theorem Tag.Invokes.exists_sign {start : Nat} {r rest : Text} {t : Tag} (ht : t.Invokes)
    (h : read start r = .ok (t, rest)) :
    ∃ (g : Sign) (q : Text), r = g.text ++ q ++ close2 ++ rest ∧ Closeless q := by
  have hf := read_form start r
  rw [h] at hf
  generalize he : Except.ok (t, rest) = e at hf
  cases hf with
  | comment =>
    unfold readComment at he
    split at he
    · simp at he
    · obtain ⟨rfl, rfl⟩ := Prod.mk.inj (Except.ok.inj he)
      simp [Invokes] at ht
  | triple =>
    unfold readTriple at he
    split at he
    · simp at he
    · obtain ⟨rfl, rfl⟩ := Prod.mk.inj (Except.ok.inj he)
      simp [Invokes] at ht
  | @plain tilde s htl hn hb =>
    obtain ⟨body, before, sigil, content, after, tl, hc, hbody, hsig, hbefore, -⟩ :=
      readPlain_sigil he.symm (ht.imp_right .inl)
    have hsigil : sigil = ['>'] ∨ sigil = ['#', '>'] := by
      generalize hk : t.kind = k at hsig
      cases hsig with
      | invocation => exact .inl rfl
      | openInvocation => exact .inr rfl
      | close => simp [Invokes, hk] at ht
    have hs := Text.cut_eq hc
    have hcl := Closeless.of_cut hc
    have hparts : body = before ++ sigil ++ (content ++ after ++ tl) := by simp [hbody]
    rw [hparts] at hs hcl
    refine ⟨⟨tilde, before, sigil, htl.imp_right And.left, hbefore, hsigil⟩, content ++ after ++ tl, ?_,
      hcl.of_append⟩
    simp [hs, Sign.text]

namespace Token

/-- Each token of a stream is read at some place of the text, and what follows it is read as well. -/
theorem exists_next_of_mem {start : Nat} {s : Text} {ts : List Token} (h : stream start s = .ok ts)
    {t : Token} (ht : t ∈ ts) :
    ∃ start' u rest ts', u <:+ s ∧ next start' u = .ok (t, rest) ∧
      stream t.whole.stop rest = .ok ts' := by
  induction ts generalizing start s with
  | nil => exact absurd ht List.not_mem_nil
  | cons t₁ ts ih =>
    obtain ⟨-, rest, hn, hrest⟩ := stream_cons_eq_ok h
    rcases List.mem_cons.1 ht with rfl | ht
    · exact ⟨start, s, rest, ts, List.suffix_rfl, hn, hrest⟩
    · obtain ⟨start', u, rest', ts', hu, h'⟩ := ih hrest ht
      refine ⟨start', u, rest', ts', hu.trans ?_, h'⟩
      rw [← (next_eq hn).2]
      exact List.suffix_append _ _

/-- A closing marker without its opening marker is not read. -/
theorem stream_closing (start : Nat) (x : Text) :
    stream start (RawBlock.closing ++ x) = .error ⟨.rawBlock, start⟩ := by
  have he : RawBlock.closing ++ x = open4 ++ ('/' :: RawBlock.protector ++ close4 ++ x) := by
    simp [RawBlock.closing]
  have h2 : Text.after? open2 (RawBlock.closing ++ x) =
      some (open2 ++ ('/' :: RawBlock.protector ++ close4 ++ x)) := by
    rw [he]
    exact Text.after?_append open2 _
  have hw : Text.firstWord ('/' :: RawBlock.protector) = some ('/' :: RawBlock.protector) := by decide
  have hr : RawBlock.read (RawBlock.closing ++ x) = none := by
    rw [RawBlock.read, he, Text.after?_append]
    simp only [RawBlock.cut_close4_closer, hw]
  refine stream_of_fault (by simp [he, open4]) ?_
  have h4 : Text.startsWith open4 (RawBlock.closing ++ x) = true := by
    rw [he, Text.startsWith, Text.after?_append]
    rfl
  rw [next, h2, h4, hr]
  rfl

end Token

theorem Harvest.ofRun_names_eq_nil {ts : List Token} (h : ∀ t, .tag t ∈ ts → ¬ t.Invokes)
    (p : Parser) : names.ofRun p ts = [] := by
  have token (stack : List Frame) (t : Token) (ht : ∀ u, t = .tag u → ¬ u.Invokes) :
      names.ofToken stack t = [] := by
    cases t with
    | text => simp [ofToken]
    | raw => simp [ofToken, names]
    | tag u =>
      have hclose : names.ofClose stack u.inner = [] := by
        unfold ofClose
        split <;> rfl
      have hu := ht u rfl
      unfold Tag.Invokes at hu
      cases hk : u.kind <;> simp_all [ofToken, ofTag]
  induction ts generalizing p with
  | nil => rfl
  | cons t ts ih =>
    rw [ofRun]
    split
    · rw [token _ t (fun u hu => h u (hu ▸ List.mem_cons_self)),
        ih fun u hu => h u (List.mem_cons_of_mem t hu)]
      rfl
    · rfl

/-- A source is free of invocations if each place where one can be read has a closing marker after it. -/
theorem invokedNames_eq_nil {source : Text} {nodes : List Node} (hp : parse source = .ok nodes)
    (h : ∀ (g : Sign) (q rest : Text), g.opener ++ q ++ close2 ++ rest <:+ source → Closeless q →
      RawBlock.closing <+: rest) : Node.invokedNames nodes = [] := by
  obtain ⟨ts, hts, hp⟩ := Except.bind_eq_ok_iff.1 hp
  obtain ⟨p, hr, hf⟩ := Except.bind_eq_ok_iff.1 hp
  have hnames := Harvest.names.perm_parse hr hf
  rw [Harvest.ofNodes_names, Harvest.ofRun_names_eq_nil] at hnames
  · exact hnames.eq_nil
  · intro t ht hi
    obtain ⟨start, u, rest, ts', hu, hn, hrest⟩ := Token.exists_next_of_mem hts ht
    obtain ⟨r, rfl, -, hread⟩ := Token.next_tag.1 hn
    obtain ⟨g, q, rfl, hq⟩ := hi.exists_sign hread
    obtain ⟨x, rfl⟩ := h g q rest (by simpa [Sign.opener] using hu) hq
    rw [Token.stream_closing] at hrest
    exact nomatch hrest

namespace Markup

/-! ## Guarded values -/

/-- A suffix of a text in two parts begins in the second or in the first. -/
theorem suffix_append_cases {u a b : Text} (h : u <:+ a ++ b) :
    u <:+ b ∨ ∃ y, y ≠ [] ∧ y <:+ a ∧ u = y ++ b := by
  obtain ⟨x, hx⟩ := h
  rcases List.append_eq_append_iff.1 hx with ⟨w, rfl, rfl⟩ | ⟨w, rfl, rfl⟩
  · by_cases hw : w = []
    · exact .inl (by simp [hw])
    · exact .inr ⟨w, hw, List.suffix_append _ _, rfl⟩
  · exact .inl (List.suffix_append _ _)

/-- Nothing that begins inside a marker can be an invocation. -/
theorem mayOpen_marker {m y : Text} (hm : m ∈ [RawBlock.opening, RawBlock.closing, close2])
    (hy : y <:+ m) (hne : y ≠ []) : mayOpen y = false := by
  have h : ∀ m ∈ [RawBlock.opening, RawBlock.closing, close2], ∀ y ∈ m.tails, y ≠ [] →
      mayOpen y = false := by
    decide
  exact h m hm y ((List.mem_tails y m).2 hy) hne

theorem invocation?_closeless {s t rest : Text} (h : invocation? s = some (t, rest)) :
    ∃ w, t = w ++ close2 ∧ Closeless w := by
  have closed {o : Text} (ho : '}' ∉ o) (h : closed? o s = some (t, rest)) :
      ∃ w, t = w ++ close2 ∧ Closeless w := by
    obtain ⟨r, -, h⟩ := Option.bind_eq_some_iff.1 h
    obtain ⟨⟨p, rest⟩, hp, he⟩ := Option.map_eq_some_iff.1 h
    exact ⟨o ++ p, (Prod.mk.inj he).1.symm, (Closeless.append_left ho).2 (Closeless.of_cut hp)⟩
  unfold invocation? at h
  split at h
  · next hc =>
    obtain rfl := Option.some.inj h
    exact closed (by decide) hc
  · exact closed (by decide) h

theorem guarded_ofValue_cons {c : Char} {r : Text} (h : invocation? (c :: r) = none) :
    (ofValue (c :: r)).guarded = c :: (ofValue r).guarded := by
  rw [ofValue]
  split
  · next he => simp [h] at he
  · simp

/-- What follows a value in a tag. -/
def valueEnd : Text := ['"', '>']

/-- A text that does not run into an opening marker stands at the head of a guarded value only if it stands
at the head of the value. -/
theorem prefix_of_prefix_guarded {v w : Text} (hq : '"' ∉ w)
    (hw : ∀ y, y ≠ [] → y <:+ w → ∀ z, ¬ y <+: RawBlock.opening ++ z)
    (h : w <+: (ofValue v).guarded ++ valueEnd) : w <+: v := by
  fun_induction ofValue v generalizing w with
  | case1 =>
    cases w with
    | nil => exact List.prefix_rfl
    | cons c w =>
      simp only [guarded, valueEnd, List.nil_append, List.cons_prefix_cons] at h
      exact absurd (h.1 ▸ List.mem_cons_self) hq
  | case2 d r t rest hi ih =>
    by_cases hne : w = []
    · rw [hne]
      exact List.nil_prefix
    · rw [guarded, guard, List.append_assoc, List.append_assoc, List.append_assoc] at h
      exact absurd h (hw w hne List.suffix_rfl _)
  | case3 d r hi ih =>
    cases w with
    | nil => exact List.nil_prefix
    | cons c w =>
      rw [guarded_addText, List.singleton_append, List.cons_append, List.cons_prefix_cons] at h
      refine List.cons_prefix_cons.2 ⟨h.1, ih (fun hc => hq (List.mem_cons_of_mem c hc)) ?_ h.2⟩
      exact fun y hne hy => hw y hne (hy.trans (List.suffix_cons c w))

/-- The second brace and the sign after it do not run into an opening marker. -/
theorem not_prefix_opening (g : Sign) {y : Text} (hne : y ≠ []) (hy : y <:+ '{' :: g.text)
    (z : Text) : ¬ y <+: RawBlock.opening ++ z := by
  have hbrace : Sign.isChar '{' = false := by decide
  intro h
  rcases List.suffix_cons_iff.1 hy with rfl | hy
  · obtain ⟨e, r, hg, he⟩ := g.exists_cons
    simp only [hg, RawBlock.opening, open4, List.cons_append, List.cons_prefix_cons] at h
    rw [h.2.1, hbrace] at he
    exact Bool.false_ne_true he
  · obtain ⟨c, y, rfl⟩ := List.exists_cons_of_ne_nil hne
    simp only [RawBlock.opening, open4, List.cons_append, List.cons_prefix_cons] at h
    exact g.not_mem hbrace (h.1 ▸ hy.subset List.mem_cons_self)

section Suffix

variable {g : Sign} {q rest v : Text}

/-- An invocation that is read in a guarded value has been guarded, or the value has its opener at a place
where the escaper sees no invocation. -/
theorem opener_of_suffix (hs : g.opener ++ q ++ close2 ++ rest <:+ (ofValue v).guarded ++ valueEnd)
    (hq : Closeless q) :
    RawBlock.closing <+: rest ∨ ∃ x v', v = x ++ v' ∧ invocation? v' = none ∧ g.opener <+: v' ∧
      g.opener ++ q ++ close2 ++ rest = (ofValue v').guarded ++ valueEnd := by
  have hopen := g.opener_isPrefix q rest
  have hcl : Closeless (g.opener ++ q) :=
    (Closeless.append_left (g.not_mem_opener (by decide) (by decide))).2 hq
  generalize hu : g.opener ++ q ++ close2 ++ rest = u at hs hopen ⊢
  -- the place cannot lie inside a marker
  have marker {m z : Text} (hm : m ∈ [RawBlock.opening, RawBlock.closing, close2])
      (h : u <:+ m ++ z) : u <:+ z := by
    rcases suffix_append_cases h with h | ⟨y, hne, hy, rfl⟩
    · exact h
    · have := mayOpen_marker hm hy hne
      simp [mayOpen_of_opener hopen] at this
  fun_induction ofValue v with
  | case1 =>
    have hmem : '{' ∈ u := hopen.subset (by simp [Sign.opener, open2])
    exact absurd (hs.subset hmem) (by decide)
  | case2 c r t r' hi ih =>
    obtain ⟨w, rfl, hw⟩ := invocation?_closeless hi
    have hg : (invocation (w ++ close2) (ofValue r')).guarded ++ valueEnd =
        RawBlock.opening ++ (w ++ (close2 ++ (RawBlock.closing ++
          ((ofValue r').guarded ++ valueEnd)))) := by
      simp [guarded, guard]
    rw [hg] at hs
    rcases suffix_append_cases (marker (by simp) hs) with h | ⟨y, -, hy, rfl⟩
    · rcases ih (marker (by simp) (marker (by simp) h)) with h | ⟨x, v', rfl, hv'⟩
      · exact .inl h
      · exact .inr ⟨w ++ close2 ++ x, v', by rw [(invocation?_eq hi).1]; simp, hv'⟩
    · -- the closing braces that end the tag are the ones that end the guarded invocation
      obtain ⟨w₀, rfl⟩ := hy
      have h₁ := cut_close2_iff (x := rest).2 hcl
      have h₂ := cut_close2_iff (x := RawBlock.closing ++ ((ofValue r').guarded ++ valueEnd)).2
        hw.of_append
      rw [hu, ← List.append_assoc, h₂] at h₁
      rw [← (Prod.mk.inj (Option.some.inj h₁)).2]
      exact .inl (List.prefix_append _ _)
  | case3 c r hi ih =>
    have hg : (addText [c] (ofValue r)).guarded ++ valueEnd =
        [c] ++ ((ofValue r).guarded ++ valueEnd) := by
      simp
    rw [hg] at hs
    rcases suffix_append_cases hs with h | ⟨y, hne, hy, rfl⟩
    · rcases ih h with h | ⟨x, v', rfl, hv'⟩
      · exact .inl h
      · exact .inr ⟨c :: x, v', rfl, hv'⟩
    · obtain rfl : y = [c] :=
        hy.eq_of_length_le (List.length_pos_iff.2 hne)
      refine .inr ⟨[], c :: r, rfl, hi, ?_, by rw [guarded_ofValue_cons hi]; rfl⟩
      have hquote : '"' ∉ '{' :: g.text := by simp [g.not_mem (c := '"') (by decide)]
      obtain ⟨rfl, h⟩ := List.cons_prefix_cons.1 hopen
      exact List.cons_prefix_cons.2
        ⟨rfl, prefix_of_prefix_guarded hquote (fun y hne hy => not_prefix_opening g hne hy) h⟩

theorem close2_infix_append {a b : Text} (h : close2 <:+: a ++ b) :
    close2 <:+: a ∨ close2 <:+: b ∨ '}' ∈ a ∧ '}' ∈ b := by
  rcases List.infix_append_iff_ne_nil.1 h with h | h | ⟨y, z, hy, hz, hc, hya, hzb⟩
  · exact .inl h
  · exact .inr (.inl h)
  · have hbrace : ∀ c ∈ close2, c = '}' := by simp [close2]
    have mem {w : Text} (hw : w ≠ []) (hs : w ⊆ close2) : '}' ∈ w := by
      obtain ⟨c, w, rfl⟩ := List.exists_cons_of_ne_nil hw
      rw [hbrace c (hs List.mem_cons_self)]
      exact List.mem_cons_self
    refine .inr (.inr ⟨hya.subset (mem hy ?_), hzb.subset (mem hz ?_)⟩) <;>
      rw [hc]
    · exact List.subset_append_left y z
    · exact List.subset_append_right y z

/-- A text that begins like an invocation and is not one has no closing braces. -/
theorem not_infix_of_invocation? {s o : Text} (h : invocation? s = none)
    (ho : o = open2 ++ ['>'] ∨ o = open2 ++ ['~', '>']) (hs : o <+: s) : ¬ close2 <:+: s := by
  have hclosed : closed? o s = none := by
    unfold invocation? at h
    split at h
    · exact nomatch h
    · next hn => rcases ho with rfl | rfl <;> assumption
  have hbrace : '}' ∉ o := by
    rcases ho with rfl | rfl <;> decide
  obtain ⟨y, rfl⟩ := hs
  rw [closed?, Text.after?_append] at hclosed
  intro hc
  rcases close2_infix_append hc with hc | hc | hc
  · exact hbrace (hc.subset (by decide))
  · exact Text.not_infix_of_cut (Option.map_eq_none_iff.1 hclosed) hc
  · exact hbrace hc.1

theorem guarded_ofValue_eq_self {s : Text} (h : ¬ close2 <:+: s) : (ofValue s).guarded = s := by
  fun_induction ofValue s with
  | case1 => rfl
  | case2 c r t rest hi =>
    obtain ⟨w, rfl, -⟩ := invocation?_closeless hi
    rw [(invocation?_eq hi).1] at h
    exact absurd ⟨w, rest, rfl⟩ h
  | case3 c r hi ih => simp [ih fun hr => h (List.infix_cons hr)]

theorem bodyOpener?_of_suffix {s v : Text} (h : firstBodyOpener? v = none) (hs : s <:+ v) :
    bodyOpener? s = none := by
  induction v with
  | nil =>
    rw [List.suffix_nil.1 hs]
    rfl
  | cons c r ih =>
    rw [firstBodyOpener?] at h
    cases hc : bodyOpener? (c :: r) with
    | some o => simp [hc] at h
    | none =>
      rcases List.suffix_cons_iff.1 hs with rfl | hs
      · exact hc
      · exact ih (by simpa [hc] using h) hs

/-- An invocation that is read in an escaped value and is not guarded has blanks before its sigil. -/
theorem looselyOpened_of_suffix (hb : firstBodyOpener? v = none)
    (hs : g.opener ++ q ++ close2 ++ rest <:+ (ofValue v).guarded ++ valueEnd) (hq : Closeless q) :
    RawBlock.closing <+: rest ∨ LooselyOpened v := by
  rcases opener_of_suffix hs hq with h | ⟨x, v', rfl, hi, ho, hu⟩
  · exact .inl h
  refine .inr ⟨v', (List.mem_tails _ _).2 (List.suffix_append x v'), g.opensLoosely_of_opener ?_ ho⟩
  intro hblanks
  have hg : g.opener = open2 ++ (g.tilde ++ g.sigil) := by
    rw [Sign.opener, Sign.text, hblanks, List.append_nil]
  rcases g.sigil_eq with hsigil | hsigil
  · -- without blanks the escaper would see the invocation, had it an end
    have ht : g.opener = open2 ++ ['>'] ∨ g.opener = open2 ++ ['~', '>'] := by
      rw [hg, hsigil]
      rcases g.tilde_eq with h | h <;> simp [h]
    have hv' := not_infix_of_invocation? hi ht ho
    rw [guarded_ofValue_eq_self hv'] at hu
    rcases close2_infix_append (hu ▸ List.infix_append _ close2 rest) with h | h | h
    · exact hv' h
    · exact absurd h (by decide)
    · exact absurd h.2 (by decide)
  · have hn := bodyOpener?_of_suffix hb (List.suffix_append x v')
    obtain ⟨y, rfl⟩ := ho
    rw [hg, hsigil, bodyOpener?] at hn
    rcases g.tilde_eq with h | h <;>
      simp [h, Text.startsWith, open2, Text.after?] at hn

end Suffix

/-! ## A tag with one attribute -/

/-- What stands before a value in a tag. -/
def attributeLead (element name : Text) : Text :=
  '<' :: element ++ ' ' :: name ++ ['=', '"']

/-- A start tag with one attribute. -/
def attributeTag (element name value : Text) : Text :=
  attributeLead element name ++ value ++ valueEnd

/-- A name that the reader finds before an equals sign.  Opening braces at its head would make it a tag. -/
structure AttributeName (name : Text) : Prop where
  ne_nil : name ≠ []
  chars : ∀ c ∈ name, Text.isAsciiBlank c = false ∧ c ≠ '=' ∧ c ≠ '>'
  bare : ¬ open2 <+: name

section Tag

variable {tag element name value : Text}

theorem AttributeName.run (h : AttributeName name) (r : Text) :
    Text.run Text.isAsciiBlank (' ' :: (name ++ r)) = ([' '], name ++ r) := by
  refine Text.run_of_all (s := [' ']) (x := name ++ r) (by simp [Text.isAsciiBlank]) fun c hc => ?_
  rw [List.head?_append_of_ne_nil name h.ne_nil] at hc
  exact (h.chars c (List.mem_of_head? hc)).1

theorem attributeName_append (h : ∀ c ∈ name, Text.isAsciiBlank c = false ∧ c ≠ '=' ∧ c ≠ '>')
    (r : Text) : attributeName (name ++ '=' :: r) = (name, '=' :: r) := by
  induction name with
  | nil => simp [attributeName]
  | cons c n ih =>
    obtain ⟨h₁, h₂, h₃⟩ := h c List.mem_cons_self
    have ih := ih fun d hd => h d (List.mem_cons_of_mem c hd)
    rw [List.cons_append, attributeName]
    · simp [h₁, h₂, h₃, ih]
    · rintro w rfl hw
      cases n with
      | nil => simp at hw
      | cons d n => exact (h d (by simp)).2.2 (List.cons.inj hw).1

theorem value?_quoted (h : '"' ∉ value) :
    value? ('"' :: (value ++ valueEnd)) = some ⟨['"'], value, ['>']⟩ := by
  have hcut : Text.cut ['"'] (value ++ valueEnd) = some (value, ['>']) := Text.cut_of_notMem h ['>']
  rw [value?, if_pos (by decide), hcut]
  rfl

theorem AttributeName.atAttribute (h : AttributeName name) (r : Text) :
    AtAttribute (name ++ '=' :: r) := by
  obtain ⟨c, n, rfl⟩ := List.exists_cons_of_ne_nil h.ne_nil
  refine .of_not (h.chars c List.mem_cons_self).2.2 ?_ ?_ <;> rintro w rfl hw
  · cases n with
    | nil => simp at hw
    | cons d n => exact (h.chars d (by simp)).2.2 (List.cons.inj hw).1
  · cases n with
    | nil => simp at hw
    | cons d n =>
      rw [(List.cons.inj hw).1] at h
      exact h.bare ⟨n, rfl⟩

/-- The attribute of a tag is read with the pieces of its value, or refused with it. -/
theorem readAttributes_attribute (hn : AttributeName name) (hv : '"' ∉ value) :
    readAttributes element (' ' :: (name ++ '=' :: '"' :: (value ++ valueEnd))) =
      (readValue element name value).map fun m =>
        some ⟨append (addText (' ' :: name ++ ['=', '"']) (append m (addText ['"'] nil)))
          (text ['>'] nil), false, []⟩ := by
  have hvalue := value?_quoted hv
  have hclose : readAttributes element ['>'] = .ok (some ⟨text ['>'] nil, false, []⟩) :=
    readAttributes_ok_iff.2 (StartTag.Reads.close (b := []) rfl)
  generalize value ++ valueEnd = w at *
  have hrun := hn.run ('=' :: '"' :: w)
  have hat := hn.atAttribute ('"' :: w)
  have hname := attributeName_append hn.chars ('"' :: w)
  have hgap : Text.run Text.isAsciiBlank ('=' :: '"' :: w) = ([], '=' :: '"' :: w) := rfl
  have hgap' : Text.run Text.isAsciiBlank ('"' :: w) = ([], '"' :: w) := rfl
  generalize name ++ '=' :: '"' :: w = s at *
  rw [readAttributes, hrun]
  split
  · next he => exact absurd he (ne_nil_of_attributeName hname hn.ne_nil)
  · next he => exact absurd he (hat.1 _)
  · next he => exact absurd he (hat.2.1 _)
  · next he => exact absurd he (hat.2.2 _)
  · next he =>
    obtain rfl := he
    rw [hname, dif_neg hn.ne_nil, hgap]
    simp only
    rw [hgap']
    simp only
    split
    · next hno => simp [hvalue] at hno
    · next v hv' =>
      obtain rfl := Option.some.inj (hvalue.symm.trans hv')
      cases readValue element name value with
      | error d => rfl
      | ok m =>
        simp only [hclose]
        simp [StartTag.after, Except.map]

theorem readStartTag_attributeTag (he : ElementName element) (hn : AttributeName name)
    (hv : '"' ∉ value) :
    readStartTag (attributeTag element name value) =
      (readValue (Text.lowerAscii element) name value).map fun m =>
        some (Text.lowerAscii element,
          ⟨append (text ('<' :: element) nil)
            (append (addText (' ' :: name ++ ['=', '"']) (append m (addText ['"'] nil)))
              (text ['>'] nil)), false, []⟩) := by
  have hs : attributeTag element name value =
      '<' :: (element ++ ' ' :: (name ++ '=' :: '"' :: (value ++ valueEnd))) := by
    simp [attributeTag, attributeLead]
  have hrun := he.run (show isNameChar ' ' = false by decide)
  rw [hs, readStartTag]
  simp only [List.drop_one, List.tail_cons, hrun, readAttributes_attribute hn hv]
  cases readValue (Text.lowerAscii element) name value <;> rfl

theorem atStartTag_attributeTag (he : ElementName element) :
    AtStartTag tag false (attributeTag element name value) := by
  obtain ⟨c, r, rfl, hc⟩ := he.initial
  have hbang : c ≠ '!' := by
    rintro rfl
    exact absurd hc (by decide)
  refine ⟨?_, rfl, hc⟩
  simp [verbatim?, attributeTag, attributeLead, Text.after?, open4, open2, hbang.symm]

theorem read_of_refused {s : Text} {d : Disallowed} {inside : Bool} (ha : AtStartTag tag inside s)
    (hd : readStartTag s = .error d) : read tag inside s = .error d := by
  obtain ⟨c, r, rfl⟩ := cons_of_opensTag ha.2.2
  rw [read]
  split
  · next hv => simp [ha.1] at hv
  · rw [if_neg (by simp [ha.2.1]), dif_pos ha.2.2]
    split
    · next he => rw [← Except.error.inj (hd.symm.trans he)]
    · next he => simp [hd] at he
    · next he => simp [hd] at he

/-- A start tag without anything after it is read for its pieces only. -/
theorem ofText_of_startTag {s element : Text} {m : Markup} (ha : AtStartTag tag false s)
    (ht : readStartTag s = .ok (some (element, ⟨m, false, []⟩))) :
    ∃ m', ofText tag s = .ok m' ∧ m'.guarded = m.guarded := by
  by_cases hname : element = tag
  · subst hname
    exact ⟨_, ofText_ok_iff.2 (.template ha ht rfl .done rfl .done),
      by simp [guarded, source, Text.allBlank]⟩
  · have hcontent : plainContent element [] = ([], []) := by
      unfold plainContent
      split <;> rfl
    exact ⟨_, ofText_ok_iff.2 (.element ha ht rfl hname hcontent .done), by simp [guarded]⟩

/-- A tag with one attribute is escaped by its value, or refused with it. -/
theorem escape_attributeTag (he : ElementName element) (hn : AttributeName name) (hv : '"' ∉ value) :
    escape tag (attributeTag element name value) =
      match firstBodyOpener? value with
      | some opener => .error ⟨Text.lowerAscii element, name, opener⟩
      | none => .ok (attributeLead element name ++ (ofValue value).guarded ++ valueEnd) := by
  have ha : AtStartTag tag false (attributeTag element name value) := atStartTag_attributeTag he
  have ht := readStartTag_attributeTag he hn hv
  unfold readValue at ht
  cases hb : firstBodyOpener? value with
  | some opener =>
    simp only [hb] at ht
    rw [escape, ofText, read_of_refused ha ht]
    rfl
  | none =>
    simp only [hb] at ht
    obtain ⟨m, hm, hg⟩ := ofText_of_startTag ha ht
    rw [escape, hm]
    simp [Except.map, hg, guarded, attributeLead, valueEnd]

end Tag

/-! ## The parser on an escaped attribute -/

/-- No invocation begins before the value. -/
theorem suffix_of_attributeLead {element name u w : Text} {g : Sign} (he : ElementName element)
    (hn : AttributeName name) (hg : g.opener <+: u) (hu : u <:+ attributeLead element name ++ w) :
    u <:+ w := by
  have hlead : '>' ∉ attributeLead element name := by
    have h₁ : '>' ∉ element := fun h => absurd (he.chars '>' h) (by decide)
    have h₂ : '>' ∉ name := fun h => (hn.chars '>' h).2.2 rfl
    simp [attributeLead, h₁, h₂]
  rcases suffix_append_cases hu with h | ⟨y, hne, hy, rfl⟩
  · exact h
  rcases List.prefix_or_prefix_of_prefix hg (List.prefix_append y w) with h | h
  · exact absurd (hy.subset (h.subset (List.mem_append_right open2 g.gt_mem))) hlead
  · have hlast : '"' ∈ y := by
      have hend : attributeLead element name = '<' :: element ++ ' ' :: name ++ ['='] ++ ['"'] := by
        simp [attributeLead]
      rw [hend, List.suffix_concat_iff] at hy
      obtain ⟨y', rfl, -⟩ := hy.resolve_left hne
      exact List.mem_append_right y' (List.mem_singleton_self _)
    exact absurd (h.subset hlast) (g.not_mem_opener (by decide) (by decide))

/-- Unless an invocation in it has blanks before its sigil, an attribute value is refused for the first
opener of an invocation with a body, or its invocations are guarded, and nothing is collected from the
tag. -/
theorem collected_escape_attributeTag (s : Escaper) {element name value : Text}
    (he : ElementName element) (hn : AttributeName name) (hv : '"' ∉ value) (hl : ¬ LooselyOpened value) :
    (∃ opener, firstBodyOpener? value = some opener ∧
      s.escape (attributeTag element name value) =
        .error ⟨Text.lowerAscii element, name, opener⟩) ∨
    ∃ out, s.escape (attributeTag element name value) = .ok out ∧
      out = attributeLead element name ++ (ofValue value).guarded ++ valueEnd ∧
      ∀ nodes, parse out = .ok nodes →
        Node.invokedNames nodes = [] ∧ Node.collected nodes = [] := by
  have hesc := @escape_attributeTag s.tag element name value he hn hv
  cases hb : firstBodyOpener? value with
  | some opener =>
    simp only [hb] at hesc
    exact .inl ⟨opener, rfl, hesc⟩
  | none =>
    simp only [hb] at hesc
    refine .inr ⟨_, hesc, rfl, fun nodes hp => ?_⟩
    suffices Node.invokedNames nodes = [] from ⟨this, by simp [Node.collected, this]⟩
    refine invokedNames_eq_nil hp fun g q rest hs hq => ?_
    rw [List.append_assoc (attributeLead element name)] at hs
    have hs := suffix_of_attributeLead he hn (g.opener_isPrefix q rest) hs
    exact (looselyOpened_of_suffix hb hs hq).resolve_right hl

theorem elementName_p : ElementName ['p'] :=
  ⟨⟨'p', [], rfl, by decide⟩, List.all_eq_true.1 (by decide)⟩

theorem attributeName_title : AttributeName "title".toList :=
  ⟨by decide, by simp [Text.isAsciiBlank], by decide⟩

/-- Blanks that stand before an expression or after a sigil do no harm. -/
theorem collected_escape_attributeTag_tight :
    '"' ∉ "{{~> item}} {{ y }}".toList ∧ ¬ LooselyOpened "{{~> item}} {{ y }}".toList ∧
      ((∃ opener, firstBodyOpener? "{{~> item}} {{ y }}".toList = some opener ∧
        Escaper.default.escape (attributeTag ['p'] "title".toList "{{~> item}} {{ y }}".toList) =
          .error ⟨Text.lowerAscii ['p'], "title".toList, opener⟩) ∨
      ∃ out, Escaper.default.escape
          (attributeTag ['p'] "title".toList "{{~> item}} {{ y }}".toList) = .ok out ∧
        out = attributeLead ['p'] "title".toList ++
          (ofValue "{{~> item}} {{ y }}".toList).guarded ++ valueEnd ∧
        ∀ nodes, parse out = .ok nodes →
          Node.invokedNames nodes = [] ∧ Node.collected nodes = []) := by
  have hv : '"' ∉ "{{~> item}} {{ y }}".toList := by decide
  have hl : ¬ LooselyOpened "{{~> item}} {{ y }}".toList := by decide
  exact ⟨hv, hl, collected_escape_attributeTag .default elementName_p attributeName_title hv hl⟩

/-- With blanks before its sigil, an invocation is not guarded, and the parser collects its name. -/
theorem collected_escape_attributeTag_loose :
    ElementName ['p'] ∧ AttributeName "title".toList ∧ '"' ∉ "{{ > x}}".toList ∧
      Escaper.default.escape (attributeTag ['p'] "title".toList "{{ > x}}".toList) =
        .ok (attributeTag ['p'] "title".toList "{{ > x}}".toList) ∧
      (parse (attributeTag ['p'] "title".toList "{{ > x}}".toList)).map Node.collected =
        .ok ["x".toList] :=
  ⟨elementName_p, attributeName_title, by decide, by decide +kernel, by decide +kernel⟩

/-- Nor is an invocation with a body refused. -/
example :
    Escaper.default.escape (attributeTag ['p'] "title".toList "{{~ #> x}}y{{/x}}".toList) =
        .ok (attributeTag ['p'] "title".toList "{{~ #> x}}y{{/x}}".toList) ∧
      (parse (attributeTag ['p'] "title".toList "{{~ #> x}}y{{/x}}".toList)).map Node.collected =
        .ok ["x".toList] := by
  decide +kernel

end Markup

end Stencil
