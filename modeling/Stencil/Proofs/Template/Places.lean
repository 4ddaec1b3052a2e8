import Stencil.Proofs.Template.Lowering
/-!
What lowering leaves alone.

The edits of a source lie in it one after the other, each in the token that it comes from
(`Lowering.fits_run`).  So a token that has no edit parts them in those before and those after it, and is
copied to the runtime source with all that stands in it (`Lowering.Taken.copies`).  Such are the tags with
a name that is not free (`Lowering.copies_of_bound`).
-/

namespace Stencil

namespace Edit

/-- The slice stands at its place in the source, the edits lie before it and after it, and it is copied
between what these make of the rest. -/
def Copies (source : Text) (edits : List Edit) (slice : Slice) : Prop :=
  ∃ before after es fs, source = before ++ (slice.text ++ after) ∧ slice.start = Text.size before ∧
    sorted edits = es ++ fs ∧ Fits 0 before es ∧ Fits slice.stop after fs ∧
    applyAll source edits = splice 0 before es ++ (slice.text ++ splice slice.stop after fs)

/-- As `Copies`, but `new` stands where the slice does. -/
def Puts (source : Text) (edits : List Edit) (slice : Slice) (new : Text) : Prop :=
  ∃ before after es fs, source = before ++ (slice.text ++ after) ∧ slice.start = Text.size before ∧
    sorted edits = es ++ (needed slice new ++ fs) ∧ Fits 0 before es ∧ Fits slice.stop after fs ∧
    applyAll source edits = splice 0 before es ++ (new ++ splice slice.stop after fs)

/-- An edit of what comes first that is needed or not puts its replacement there. -/
theorem splice_needed_append {slice : Slice} {new x : Text} {fs : List Edit}
    (h : ∀ e, fs.head? = some e → slice.stop ≤ e.slice.start) :
    splice slice.start (slice.text ++ x) (needed slice new ++ fs) = new ++ splice slice.stop x fs := by
  unfold needed
  split
  · next hnew => rw [← hnew, List.nil_append, splice_copy h, Slice.stop]
  · rw [List.singleton_append]
    exact splice_replace

end Edit

namespace Lowering

variable {declared : List Text} {key : Text → Text} {start : Nat} {s : Text} {p q : Parser}
  {stack : List Frame} {ts : List Token} {k : Token}

/-! ## Tokens and their edits -/

variable (declared key) in
/-- The edits of a run lie in its source, one after the other. -/
theorem fits_run (h : Token.stream start s = .ok ts) (hr : p.run ts = .ok q)
    (hnamed : Parser.Named p.stack) : Edit.Fits start s ((changes declared key).ofRun p ts) := by
  induction ts generalizing p start s with
  | nil => exact .none
  | cons t ts ih =>
    obtain ⟨-, rest, hn, hrest⟩ := Token.stream_cons_eq_ok h
    obtain ⟨p', hp, hr⟩ := Parser.run_cons_eq_ok_iff.1 hr
    obtain ⟨hstart, hwhole⟩ := Token.next_eq hn
    rw [Slice.stop, hstart] at hrest
    rw [Harvest.ofRun_cons _ hp, ← hwhole]
    exact (inPlace_token declared key hn hp hnamed).fits.append
      (ih hrest hr (Parser.named_step hp hnamed))

theorem named_start : Parser.Named Parser.start.stack :=
  fun _ ho => nomatch ho

/-- In their order, the edits of a tree are those of the tokens of its source. -/
theorem sorted_edits (key : Text → Text) {source : Text} {nodes : List Node}
    (hts : tokens source = .ok ts) (hrun : Parser.start.run ts = .ok q) (hfinish : q.finish = .ok nodes) :
    Edit.sorted (edits key nodes) = (changes (Node.declaredNames nodes) key).ofRun Parser.start ts := by
  rw [edits_eq]
  exact Edit.sorted_of_perm ((changes _ key).perm_parse hrun hfinish)
    (fits_run _ key hts hrun named_start).ordered

/-- A token that is taken with these blocks open, between the texts before and after it and the edits
there. -/
structure Taken (declared : List Text) (key : Text → Text) (start : Nat) (s : Text) (edits : List Edit)
    (stack : List Frame) (k : Token) (before after : Text) (es fs : List Edit) : Prop where
  source_eq : s = before ++ (k.whole.text ++ after)
  start_eq : k.whole.start = start + Text.size before
  next_eq : Token.next k.whole.start (k.whole.text ++ after) = .ok (k, after)
  edits_eq : edits = es ++ ((changes declared key).ofToken stack k ++ fs)
  fits_before : Edit.Fits start before es
  fits_after : Edit.Fits k.whole.stop after fs

variable (declared key) in
/-- A token of a run is taken with the blocks open that are open after the tokens before it. -/
theorem taken_of_run {ts₁ ts₂ : List Token} {p' q' : Parser}
    (h : Token.stream start s = .ok (ts₁ ++ k :: ts₂)) (hp : p.run ts₁ = .ok p')
    (hk : p'.step k = .ok q') (hq : q'.run ts₂ = .ok q) (hnamed : Parser.Named p.stack) :
    ∃ before after, Taken declared key start s ((changes declared key).ofRun p (ts₁ ++ k :: ts₂))
      p'.stack k before after ((changes declared key).ofRun p ts₁)
      ((changes declared key).ofRun q' ts₂) := by
  induction ts₁ generalizing p start s with
  | nil =>
    obtain rfl := Except.ok.inj hp
    obtain ⟨-, rest, hn, hrest⟩ := Token.stream_cons_eq_ok h
    obtain ⟨hstart, hwhole⟩ := Token.next_eq hn
    refine ⟨[], rest, hwhole.symm, hstart, ?_, Harvest.ofRun_cons _ hk _, .none,
      fits_run declared key hrest hq (Parser.named_step hk hnamed)⟩
    rw [hwhole, hstart]
    exact hn
  | cons t ts₁ ih =>
    obtain ⟨-, rest, hn, hrest⟩ := Token.stream_cons_eq_ok h
    obtain ⟨p₁, hp₁, hp⟩ := Parser.run_cons_eq_ok_iff.1 hp
    obtain ⟨hstart, hwhole⟩ := Token.next_eq hn
    obtain ⟨before, after, ht⟩ := ih hrest hp (Parser.named_step hp₁ hnamed)
    have hstop : t.whole.stop = start + Text.size t.whole.text := by rw [Slice.stop, hstart]
    refine ⟨t.whole.text ++ before, after, ?_, ?_, ht.next_eq, ?_, ?_, ht.fits_after⟩
    · rw [← hwhole, ht.source_eq, List.append_assoc]
    · rw [ht.start_eq, hstop, Text.size_append, Nat.add_assoc]
    · rw [List.cons_append, Harvest.ofRun_cons _ hp₁, Harvest.ofRun_cons _ hp₁, ht.edits_eq,
        List.append_assoc]
    · rw [Harvest.ofRun_cons _ hp₁]
      exact (inPlace_token declared key hn hp₁ hnamed).fits.append (hstop ▸ ht.fits_before)

/-- What is taken from a run is taken from one of its tokens. -/
theorem exists_split_of_mem {β : Type} {g : Harvest β} {x : β} (hx : x ∈ g.ofRun p ts)
    (hr : p.run ts = .ok q) :
    ∃ ts₁ k ts₂ p' q', ts = ts₁ ++ k :: ts₂ ∧ p.run ts₁ = .ok p' ∧ p'.step k = .ok q' ∧
      q'.run ts₂ = .ok q ∧ x ∈ g.ofToken p'.stack k := by
  induction ts generalizing p with
  | nil => exact absurd hx List.not_mem_nil
  | cons t ts ih =>
    obtain ⟨p₁, hp₁, hr⟩ := Parser.run_cons_eq_ok_iff.1 hr
    rw [Harvest.ofRun_cons _ hp₁] at hx
    rcases List.mem_append.1 hx with hx | hx
    · exact ⟨[], t, ts, p, p₁, rfl, rfl, hp₁, hr, hx⟩
    · obtain ⟨ts₁, k, ts₂, p', q', rfl, hp, hk, hq, hx⟩ := ih hx hr
      exact ⟨t :: ts₁, k, ts₂, p', q', rfl, Parser.run_cons_eq_ok_iff.2 ⟨p₁, hp₁, hp⟩, hk, hq, hx⟩

variable (declared key) in
theorem exists_taken {β : Type} {g : Harvest β} {x : β} (hx : x ∈ g.ofRun p ts)
    (h : Token.stream start s = .ok ts) (hr : p.run ts = .ok q) (hnamed : Parser.Named p.stack) :
    ∃ (p' q' : Parser) (k : Token) (before after : Text) (es fs : List Edit),
      p'.step k = .ok q' ∧ x ∈ g.ofToken p'.stack k ∧
      Taken declared key start s ((changes declared key).ofRun p ts) p'.stack k before after es fs := by
  obtain ⟨ts₁, k, ts₂, p', q', rfl, hp, hk, hq, hx⟩ := exists_split_of_mem hx hr
  obtain ⟨before, after, ht⟩ := taken_of_run declared key h hp hk hq hnamed
  exact ⟨p', q', k, before, after, _, _, hk, hx, ht⟩

/-- A slice that is the only one in its token to be changed is put in its place. -/
theorem Taken.puts {edits edits' : List Edit} {before after : Text} {es fs : List Edit}
    (h : Taken declared key 0 s edits stack k before after es fs) {slice : Slice} {new a b : Text}
    (hk : (changes declared key).ofToken stack k = Edit.needed slice new)
    (hw : k.whole.text = a ++ (slice.text ++ b)) (hs : slice.start = k.whole.start + Text.size a)
    (hsorted : Edit.sorted edits' = edits) : Edit.Puts s edits' slice new := by
  have hstart : slice.start = Text.size (before ++ a) := by
    rw [hs, h.start_eq, Text.size_append]
    omega
  have hstop : k.whole.stop = slice.stop + Text.size b := by
    simp only [Slice.stop, hs, hw, Text.size_append]
    omega
  have hsource : s = (before ++ a) ++ (slice.text ++ (b ++ after)) := by
    rw [h.source_eq, hw]
    simp
  have hbefore : Edit.Fits 0 (before ++ a) es := by
    have := h.fits_before.append (x := a) .none
    rwa [List.append_nil] at this
  have hafter : Edit.Fits slice.stop (b ++ after) fs := by
    have hnone : Edit.Fits slice.stop b [] := .none
    exact hnone.append (hstop ▸ h.fits_after)
  have hedits : Edit.sorted edits' = es ++ (Edit.needed slice new ++ fs) := by
    rw [hsorted, h.edits_eq, hk]
  have hlater : ∀ e, fs.head? = some e → slice.stop ≤ e.slice.start := fun e he =>
    (hafter.bounds (List.mem_of_head? he)).1
  have hown : ∀ e, (Edit.needed slice new ++ fs).head? = some e →
      Text.size (before ++ a) ≤ e.slice.start := by
    intro e he
    rw [← hstart]
    unfold Edit.needed at he
    split at he
    · exact Nat.le_trans (Nat.le_add_right _ _) (hlater e he)
    · rw [← Option.some.inj he]
  refine ⟨before ++ a, b ++ after, es, fs, hsource, hstart, hedits, hbefore, hafter, ?_⟩
  rw [Edit.applyAll, hedits, hsource, hbefore.splice_append (by rwa [Nat.zero_add]), Nat.zero_add,
    ← hstart, Edit.splice_needed_append hlater]

/-- A slice of a token that has no edit is copied. -/
theorem Taken.copies {edits edits' : List Edit} {before after : Text} {es fs : List Edit}
    (h : Taken declared key 0 s edits stack k before after es fs)
    (hk : (changes declared key).ofToken stack k = []) {slice : Slice} {a b : Text}
    (hw : k.whole.text = a ++ (slice.text ++ b)) (hs : slice.start = k.whole.start + Text.size a)
    (hsorted : Edit.sorted edits' = edits) : Edit.Copies s edits' slice := by
  have hputs : Edit.Puts s edits' slice slice.text :=
    h.puts (hk.trans (needed_self slice).symm) hw hs hsorted
  simp only [Edit.Puts, needed_self, List.nil_append] at hputs
  exact hputs

/-! ## Names that are not free -/

/-- The slices in which a name stands: its token, and the content of the tag that closes its block. -/
def spots : Harvest (PartialName × Slice) where
  name n := [(n, n.token)]
  close n slice := [(n, slice)]
  raw _ _ := []

/-- The token has a name or closes its block. -/
inductive HasSpot (stack : List Frame) : Token → PartialName → Slice → Prop
  | name {t : Tag} {name : PartialName} {params : Text} :
      t.kind = .invocation ∨ t.kind = .openInvocation → PartialName.read t.inner = .ok (name, params) →
      HasSpot stack (.tag t) name name.token
  | close {t : Tag} {f : Frame} {outer : List Frame} {name : PartialName} {params : Text} :
      t.kind = .close → stack = f :: outer → f.opener = .invocation name params →
      HasSpot stack (.tag t) name t.inner

theorem hasSpot_of_mem {name : PartialName} {slice : Slice} (h : (name, slice) ∈ spots.ofToken stack k) :
    HasSpot stack k name slice := by
  unfold Harvest.ofToken at h
  split at h
  · cases k with
    | text piece => exact absurd h List.not_mem_nil
    | raw i b => exact absurd h List.not_mem_nil
    | tag t =>
      simp only at h
      rcases spots.ofTag_cases stack t with ⟨name', params, hk, hr, he⟩ | ⟨hk, he⟩ | he <;>
        rw [he] at h
      · obtain ⟨rfl, rfl⟩ := Prod.mk.inj (List.mem_singleton.1 h)
        exact .name hk hr
      · unfold Harvest.ofClose at h
        split at h
        · obtain ⟨rfl, rfl⟩ := Prod.mk.inj (List.mem_singleton.1 h)
          exact .close hk rfl rfl
        · exact absurd h List.not_mem_nil
      · exact absurd h List.not_mem_nil
  · exact absurd h List.not_mem_nil

/-- A token with a name that is not free has no edit. -/
theorem HasSpot.ofToken_eq_nil {token slice : Slice} (h : HasSpot stack k (.fixed token) slice)
    (hb : Node.isFree declared (unquote token.text) = false) :
    (changes declared key).ofToken stack k = [] := by
  have hname : (changes declared key).name (.fixed token) = [] := by
    simp only [changes, PartialName.lowered_bound hb]
    exact needed_self token
  have hclose (slice : Slice) : (changes declared key).close (.fixed token) slice = [] := by
    simp only [changes, PartialName.closing, hb]
    exact needed_self slice
  unfold Harvest.ofToken
  split
  · generalize hn : PartialName.fixed token = name at h
    cases h with
    | name hk hr => exact (ofTag_name _ hk hr).trans (hn ▸ hname)
    | @close t f outer name params hk hs ho =>
      obtain ⟨o, i, body, inverse⟩ := f
      subst ho hs hn
      simp only [Harvest.ofTag, hk]
      exact hclose t.inner
  · rfl

/-- The head of its content lies in a tag. -/
theorem exists_around {t : Tag} {rest old more : Text} (hn : Token.next start s = .ok (.tag t, rest))
    (hk : t.kind = .invocation ∨ t.kind = .openInvocation ∨ t.kind = .close) (hold : old ≠ [])
    (hi : t.inner.text = old ++ more) :
    ∃ a b, t.whole.text = a ++ (old ++ b) ∧ t.inner.start = start + Text.size a := by
  obtain ⟨tilde, a, b, hw, hstart, -⟩ := Token.next_exchange hn hk (by simp [hi, hold])
  exact ⟨_, more ++ b, by rw [hw, hi]; simp, hstart⟩

/-- The name and what closes its block lie in their tokens. -/
theorem HasSpot.within {token slice : Slice} {rest : Text} (h : HasSpot p.stack k (.fixed token) slice)
    (hn : Token.next start s = .ok (k, rest)) (hp : p.step k = .ok q) (hne : unquote token.text ≠ []) :
    ∃ a b, k.whole.text = a ++ (slice.text ++ b) ∧ slice.start = start + Text.size a := by
  generalize hname : PartialName.fixed token = name at h
  cases h with
  | name hk hr =>
    obtain ⟨more, hreads, -⟩ := PartialName.read_eq_ok_iff.1 hr
    obtain ⟨hi, hstart, hold⟩ := hreads.eq
    rw [hstart]
    exact exists_around hn (hk.imp_right .inl) hold hi
  | @close t f outer name params hk hs ho =>
    subst hname
    obtain ⟨f', outer', hs', hc⟩ := closedBy_of_stepTag (Parser.step_tag_eq_ok_iff.1 hp) hk
    obtain ⟨rfl, rfl⟩ := List.cons.inj (hs.symm.trans hs')
    exact exists_around hn (.inr (.inr hk)) (PartialName.close_ne_nil (ho ▸ hc) hne) (List.append_nil _).symm

/-- Where a name stands that is not free, and where its block is closed, the source is copied. -/
theorem copies_of_bound (key : Text → Text) {source : Text} {nodes : List Node}
    (h : Stencil.parse source = .ok nodes) {token slice : Slice}
    (hm : (PartialName.fixed token, slice) ∈ spots.ofNodes nodes) (hne : unquote token.text ≠ [])
    (hb : Node.isFree (Node.declaredNames nodes) (unquote token.text) = false) :
    Edit.Copies source (edits key nodes) slice := by
  obtain ⟨ts, hts, h⟩ := Except.bind_eq_ok_iff.1 h
  obtain ⟨q, hrun, hfinish⟩ := Except.bind_eq_ok_iff.1 h
  obtain ⟨p', q', k, before, after, es, fs, hstep, hspot, htaken⟩ :=
    exists_taken (Node.declaredNames nodes) key ((spots.perm_parse hrun hfinish).mem_iff.1 hm) hts hrun
      named_start
  have hspot := hasSpot_of_mem hspot
  obtain ⟨a, b, hw, hs⟩ := hspot.within htaken.next_eq hstep hne
  exact htaken.copies (hspot.ofToken_eq_nil hb) hw hs (sorted_edits key hts hrun hfinish)

end Lowering

end Stencil
