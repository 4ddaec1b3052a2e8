import Stencil.Proofs.Resolution.Descent
import Stencil.Proofs.Template.Pairing
/-!
The spelling of a name does not matter.

When the tokens of two sources pair off, the parser keeps the same blocks open in both (`Pair.alike`), and the
two tokens of each pair are lowered to one text (`Pair.rewritten_eq`).  So two sources that differ in how they
spell names have one runtime source, and the same references (`Template.runtimeSource_respelled`).
What the tree has dropped is another matter (`Template.runtimeSource_skipped`).
-/

namespace Stencil

namespace Lowering

variable {declared : List Text} {key : Text → Text} {i j : Nat} {s s' rest rest' : Text}
  {p p' q q' : Parser} {t t' : Token} {ts ts' : List Token}

/-! ## What pairs are lowered to -/

theorem read_of_spot {t : Tag} {stack : List Frame} {name : PartialName} {slice : Slice}
    (h : (name, slice) ∈ spots.ofToken stack (.tag t))
    (hk : t.kind = .invocation ∨ t.kind = .openInvocation) :
    ∃ params, PartialName.read t.inner = .ok (name, params) := by
  cases hasSpot_of_mem h with
  | name _ hr => exact ⟨_, hr⟩
  | close hk' => simp [hk'] at hk

theorem Pair.tagsAgree {t t' : Tag} {stack stack' : List Frame}
    (h : Pair declared key stack stack' (.tag t) (.tag t')) : Parser.TagsAgree declared key t t' := by
  generalize ht : Token.tag t = tok, ht' : Token.tag t' = tok' at h
  cases h with
  | moved j =>
    subst ht
    obtain rfl := Token.tag.inj ht'
    refine ⟨rfl, fun _ name params name' params' hr hr' => ?_⟩
    have := PartialName.read_moved hr (t.moved j).inner.start
    obtain ⟨rfl, rfl⟩ := Prod.mk.inj (Except.ok.inj (this.symm.trans hr'))
    exact .moved _
  | spelled hkind hm _ _ hm' _ _ hkey =>
    obtain rfl := Token.tag.inj ht
    obtain rfl := Token.tag.inj ht'
    refine ⟨hkind, fun hk name params name' params' hr hr' => ?_⟩
    obtain ⟨_, hs⟩ := read_of_spot hm hk
    obtain ⟨_, hs'⟩ := read_of_spot hm' (hkind ▸ hk)
    obtain ⟨rfl, -⟩ := Prod.mk.inj (Except.ok.inj (hs.symm.trans hr))
    obtain ⟨rfl, -⟩ := Prod.mk.inj (Except.ok.inj (hs'.symm.trans hr'))
    exact .spelled hkey

theorem Pair.alike (h : Pair declared key p.stack p'.stack t t') (ha : Parser.Alike declared key p p')
    (hp : p.step t = .ok q) (hp' : p'.step t' = .ok q') : Parser.Alike declared key q q' := by
  have hpair := h
  cases h with
  | @moved t j =>
    cases t with
    | text =>
      obtain rfl := Except.ok.inj hp
      obtain rfl := Except.ok.inj hp'
      exact ha.push _ _
    | raw =>
      obtain rfl := Except.ok.inj hp
      obtain rfl := Except.ok.inj hp'
      exact ha.push _ _
    | tag t =>
      exact ha.stepTag hpair.tagsAgree (Parser.step_tag_eq_ok_iff.1 hp) (Parser.step_tag_eq_ok_iff.1 hp')
  | spelled =>
    exact ha.stepTag hpair.tagsAgree (Parser.step_tag_eq_ok_iff.1 hp) (Parser.step_tag_eq_ok_iff.1 hp')

/-- The names in tags that agree are the same for the registry. -/
theorem names_of_tagsAgree {t t' : Tag} (ht : Parser.TagsAgree declared key t t')
    (ha : Parser.Alike declared key p p') (hp : p.stepTag t = .ok q) (hp' : p'.stepTag t' = .ok q') :
    List.Forall₂ (PartialName.Agrees declared key) (Harvest.names.ofToken p.stack (.tag t))
      (Harvest.names.ofToken p'.stack (.tag t')) := by
  unfold Harvest.ofToken
  rw [ha.keeps]
  split
  · by_cases hk : t.kind = .invocation ∨ t.kind = .openInvocation
    · obtain ⟨name, params, hr⟩ := read_of_stepTag hp hk
      obtain ⟨name', params', hr'⟩ := read_of_stepTag hp' (ht.kind ▸ hk)
      simp only [ofTag_name _ hk hr, ofTag_name _ (ht.kind ▸ hk) hr']
      exact .cons (ht.name hk _ _ _ _ hr hr') .nil
    · simp only [names_ofTag_nameless _ hk, names_ofTag_nameless _ (ht.kind ▸ hk)]
      exact .nil
  · exact .nil

theorem Pair.names (h : Pair declared key p.stack p'.stack t t') (ha : Parser.Alike declared key p p')
    (hp : p.step t = .ok q) (hp' : p'.step t' = .ok q') :
    List.Forall₂ (PartialName.Agrees declared key) (Harvest.names.ofToken p.stack t)
      (Harvest.names.ofToken p'.stack t') := by
  have hpair := h
  cases h with
  | @moved t j =>
    cases t with
    | text => simp [Harvest.ofToken, Token.moved]
    | raw => simp [Harvest.ofToken, Harvest.names, Token.moved]
    | tag t =>
      exact names_of_tagsAgree hpair.tagsAgree ha (Parser.step_tag_eq_ok_iff.1 hp)
        (Parser.step_tag_eq_ok_iff.1 hp')
  | spelled =>
    exact names_of_tagsAgree hpair.tagsAgree ha (Parser.step_tag_eq_ok_iff.1 hp)
      (Parser.step_tag_eq_ok_iff.1 hp')

/-- A tag at another place is lowered to the same text. -/
theorem splice_moved {t : Tag} (hn : Token.next i s = .ok (.tag t, rest))
    (ha : Parser.Alike declared key p p') (hp : p.stepTag t = .ok q) (j : Nat) :
    Edit.splice j t.whole.text ((changes declared key).ofTag p'.stack (t.moved j)) =
      Edit.splice i t.whole.text ((changes declared key).ofTag p.stack t) := by
  obtain ⟨r, -, -, hread⟩ := Token.next_tag.1 hn
  obtain ⟨a, b, hw, hi⟩ := Tag.inner_of_read hread
  have hstart : t.whole.start = i := (Token.next_eq hn).1
  have hinner : (t.moved j).inner = ⟨j + Text.size (open2 ++ a), t.inner.text⟩ := by
    rw [Tag.moved, hi, hstart, Nat.add_sub_cancel_left]
  -- what stands at the head of the content is replaced there
  have replace {old more : Text} (hc : t.inner.text = old ++ more) (new : Text) (k : Nat) :
      Edit.splice k t.whole.text (Edit.needed ⟨k + Text.size (open2 ++ a), old⟩ new) =
        open2 ++ a ++ new ++ (more ++ (b ++ close2)) := by
    rw [hw, hc, List.append_assoc old, ← List.append_assoc (open2 ++ a), Edit.splice_needed]
  by_cases hk : t.kind = .invocation ∨ t.kind = .openInvocation
  · obtain ⟨name, params, hr⟩ := read_of_stepTag hp hk
    obtain ⟨more, hreads, -⟩ := PartialName.read_eq_ok_iff.1 hr
    obtain ⟨hc, hname, -⟩ := hreads.eq
    have hr' := PartialName.read_moved hr (t.moved j).inner.start
    have hmoved : (name.moved (t.moved j).inner.start).token =
        ⟨j + Text.size (open2 ++ a), name.token.text⟩ := by
      rw [hinner]
      cases name <;> rfl
    have hplace : name.token = ⟨i + Text.size (open2 ++ a), name.token.text⟩ := by
      rw [← hi, ← hname]
    rw [ofTag_name _ hk hr, ofTag_name (t := t.moved j) _ hk hr']
    simp only [changes, hmoved, PartialName.lowered_moved]
    rw [replace hc, hplace, replace hc]
  by_cases hk' : t.kind = .close
  · have hk'' : (t.moved j).kind = .close := hk'
    simp only [Harvest.ofTag, hk', hk'', ofClose_eq]
    have hhead : Option.Rel (PartialName.Agrees declared key) (p.openNames.headD none)
        (p'.openNames.headD none) := by
      have hnames := ha.openNames
      generalize p.openNames = names, p'.openNames = names' at hnames ⊢
      cases hnames with
      | nil => exact .none
      | cons hhead _ => exact hhead
    generalize p.openNames.headD none = name, p'.openNames.headD none = name' at hhead ⊢
    cases hhead with
    | none => rfl
    | @some name name' hagrees =>
      have hplace : t.inner = ⟨i + Text.size (open2 ++ a), t.inner.text⟩ := by rw [← hi]
      have hc : t.inner.text = t.inner.text ++ [] := (List.append_nil _).symm
      simp only [Option.toList_some, List.flatMap_singleton, changes, hinner, hagrees.closing_eq]
      rw [replace hc]
      generalize name.closing declared key t.inner.text = new
      rw [hplace, replace hc]
  · rw [ofTag_nameless _ _ hk hk', ofTag_nameless (t := t.moved j) _ _ hk hk']
    rfl

/-- Tokens that pair off are lowered to the same text. -/
theorem Pair.rewritten_eq (h : Pair declared key p.stack p'.stack t t')
    (hn : Token.next i s = .ok (t, rest)) (ha : Parser.Alike declared key p p') (hp : p.step t = .ok q) :
    rewritten declared key p'.stack t' = rewritten declared key p.stack t := by
  cases h with
  | @moved t j =>
    unfold rewritten Harvest.ofToken
    rw [ha.keeps]
    cases hkeep : keeps p.stack with
    | false => rw [whole_moved]; rfl
    | true =>
      cases t with
      | text => rfl
      | raw k b =>
        simp only [if_true, Token.moved, Token.whole, changes, Edit.splice_whole]
      | tag t =>
        obtain rfl : t.whole.start = i := (Token.next_eq hn).1
        exact splice_moved hn ha (Parser.step_tag_eq_ok_iff.1 hp) j
  | @spelled t t' token token' slice slice' a b _ hm hstart hwhole hm' hstart' hwhole' hkey =>
    have hslice : slice = ⟨t.whole.start + Text.size a, slice.text⟩ := by rw [← hstart]
    have hslice' : slice' = ⟨t'.whole.start + Text.size a, slice'.text⟩ := by rw [← hstart']
    rw [rewritten, rewritten, changes_of_spot hm hkey.free, changes_of_spot hm' hkey.free', hkey.key_eq]
    simp only [Token.whole]
    rw [hwhole, hwhole', hslice, hslice', Edit.splice_needed, Edit.splice_needed]

/-! ## Runs -/

variable (declared key) in
/-- The lowered source begins with what its first token becomes. -/
theorem splice_ofRun_cons (hn : Token.next i s = .ok (t, rest)) (hp : p.step t = .ok q)
    (hrest : Token.stream t.whole.stop rest = .ok ts) {q₁ : Parser} (hr : q.run ts = .ok q₁)
    (hnamed : Parser.Named p.stack) :
    Edit.splice i s ((changes declared key).ofRun p (t :: ts)) =
      rewritten declared key p.stack t ++
        Edit.splice t.whole.stop rest ((changes declared key).ofRun q ts) := by
  obtain ⟨hstart, hwhole⟩ := Token.next_eq hn
  have hfits := fits_run declared key hrest hr (Parser.named_step hp hnamed)
  have hstop : t.whole.stop = i + Text.size t.whole.text := by rw [Slice.stop, hstart]
  rw [Harvest.ofRun_cons _ hp, ← hwhole, (inPlace_token declared key hn hp hnamed).fits.splice_append,
    rewritten, hstart, hstop]
  intro e he
  rw [← hstop]
  exact (hfits.bounds (List.mem_of_head? he)).1

end Lowering

/-- Runs over sources that are respelled lower them to the same text, and meet names that agree. -/
theorem Respelled.run {declared : List Text} {key : Text → Text} {i j : Nat} {s s' : Text}
    {p p' q q' : Parser} {ts ts' : List Token} (hs : Token.stream i s = .ok ts)
    (hs' : Token.stream j s' = .ok ts') (hr : p.run ts = .ok q) (hr' : p'.run ts' = .ok q')
    (hnamed : Parser.Named p.stack) (hnamed' : Parser.Named p'.stack)
    (ha : Parser.Alike declared key p p')
    (h : Respelled declared key (Lowering.spots.ofRun p ts) (Lowering.spots.ofRun p' ts') i s j s') :
    Edit.splice j s' ((Lowering.changes declared key).ofRun p' ts') =
        Edit.splice i s ((Lowering.changes declared key).ofRun p ts) ∧
      List.Forall₂ (PartialName.Agrees declared key) (Harvest.names.ofRun p ts)
        (Harvest.names.ofRun p' ts') := by
  have empty {k : Nat} {s : Text} (h : Token.stream k s = .ok []) : s = [] := by
    rcases Token.stream_eq_ok h with ⟨hs, -⟩ | ⟨-, _, _, _, he, -⟩
    · exact hs
    · cases he
  induction ts generalizing i j s s' p p' ts' with
  | nil =>
    obtain rfl := empty hs
    obtain rfl := h.eq_of_nil (.inl rfl)
    rw [Token.stream_nil] at hs'
    obtain rfl := Except.ok.inj hs'
    exact ⟨rfl, .nil⟩
  | cons t ts ih =>
    obtain ⟨hne, rest, hn, hrest⟩ := Token.stream_cons_eq_ok hs
    obtain ⟨p₁, hp, hr⟩ := Parser.run_cons_eq_ok_iff.1 hr
    cases ts' with
    | nil => exact absurd ((h.eq_of_nil (.inr rfl)).symm.trans (empty hs')) hne
    | cons t' ts' =>
      obtain ⟨-, rest', hn', hrest'⟩ := Token.stream_cons_eq_ok hs'
      obtain ⟨p₁', hp', hr'⟩ := Parser.run_cons_eq_ok_iff.1 hr'
      obtain ⟨hpair, hmore⟩ := h.token hn hn' hp hp' hnamed hnamed' hrest hrest'
      obtain ⟨hsplice, hnames⟩ := ih hrest hrest' hr hr' (Parser.named_step hp hnamed)
        (Parser.named_step hp' hnamed') (hpair.alike ha hp hp') hmore
      refine ⟨?_, ?_⟩
      · rw [Lowering.splice_ofRun_cons declared key hn' hp' hrest' hr' hnamed',
          Lowering.splice_ofRun_cons declared key hn hp hrest hr hnamed, hsplice,
          hpair.rewritten_eq hn ha hp]
      · rw [Harvest.ofRun_cons _ hp, Harvest.ofRun_cons _ hp']
        exact List.rel_append (hpair.names ha hp hp') hnames

/-! ## Templates -/

namespace Template

variable {e : Expander} {source source' : Text} {t t' : Template}

theorem nodup_references (h : parse e source = .ok t) : t.references.Nodup := by
  rw [(isParsed_of_parse h).references_eq]
  exact Resolution.nodup_eraseDups _

/-- The runtime source is the source with the edits of its tokens. -/
theorem runtimeSource_eq_splice (h : parse e source = .ok t) :
    ∃ ts q, tokens source = .ok ts ∧ Parser.start.run ts = .ok q ∧ q.finish = .ok t.nodes ∧
      t.runtimeSource = Edit.splice 0 source
        ((Lowering.changes (Node.declaredNames t.nodes) (key e)).ofRun Parser.start ts) := by
  obtain ⟨nodes, hparse, ht⟩ := Except.bind_eq_ok_iff.1 h
  obtain rfl := Except.ok.inj ht
  obtain ⟨ts, hts, hrest⟩ := Except.bind_eq_ok_iff.1 hparse
  obtain ⟨q, hrun, hfinish⟩ := Except.bind_eq_ok_iff.1 hrest
  have hsorted := Lowering.sorted_edits (key e) hts hrun hfinish
  exact ⟨ts, q, hts, hrun, hfinish, congrArg (Edit.splice 0 source) hsorted⟩

/-- Names that agree are collected under the same keys. -/
theorem map_key_of_agrees {declared : List Text} {key : Text → Text} {names names' : List PartialName}
    (h : List.Forall₂ (PartialName.Agrees declared key) names names') :
    ((names'.filterMap PartialName.fixed?).filter (Node.isFree declared)).map key =
      ((names.filterMap PartialName.fixed?).filter (Node.isFree declared)).map key := by
  induction h with
  | nil => rfl
  | @cons name name' names names' hhead _ ih =>
    cases hhead with
    | moved i =>
      have hfixed : (name.moved i).fixed? = name.fixed? := by cases name <;> rfl
      rw [List.filterMap_cons, List.filterMap_cons, hfixed]
      cases name.fixed? with
      | none => exact ih
      | some n =>
        cases hn : Node.isFree declared n <;> simp [hn, ih]
    | spelled hkey =>
      simp [PartialName.fixed?, hkey.free, hkey.free', hkey.key_eq, ih]

theorem mem_references_iff (h : parse e source = .ok t) {r : Text} :
    r ∈ t.references ↔ r ∈ (Node.collected t.nodes).map (key e) := by
  rw [(isParsed_of_parse h).references_eq, mem_dependencyKeys_iff, List.mem_map]

/-- Two templates whose sources differ in how they spell some names that their trees record, free ones with
the same keys, have one runtime source.  They depend on the same references, so that a resolution of
either comes to the same table. -/
theorem runtimeSource_respelled (h : parse e source = .ok t) (h' : parse e source' = .ok t')
    (hd : Node.declaredNames t'.nodes = Node.declaredNames t.nodes)
    (hr : Respelled (Node.declaredNames t.nodes) (key e) (Lowering.spots.ofNodes t.nodes)
      (Lowering.spots.ofNodes t'.nodes) 0 source 0 source') :
    t'.runtimeSource = t.runtimeSource ∧ t.references.Nodup ∧ t'.references.Nodup ∧
    (∀ r, r ∈ t'.references ↔ r ∈ t.references) ∧
    ∀ {α : Type} (references : α → List Text) (loader : Loader α) (v v' : α) (deps : Table α),
      references v = t.references → references v' = t'.references →
      ((Resolution.run references loader v').result = .ok deps ↔
        (Resolution.run references loader v).result = .ok deps) := by
  obtain ⟨ts, q, hts, hrun, hfinish, hsource⟩ := runtimeSource_eq_splice h
  obtain ⟨ts', q', hts', hrun', hfinish', hsource'⟩ := runtimeSource_eq_splice h'
  have hnamed : Parser.Named Parser.start.stack := fun o ho => nomatch ho
  have hspots := Lowering.spots.perm_parse hrun hfinish
  have hspots' := Lowering.spots.perm_parse hrun' hfinish'
  have hr' : Respelled (Node.declaredNames t.nodes) (key e) (Lowering.spots.ofRun Parser.start ts)
      (Lowering.spots.ofRun Parser.start ts') 0 source 0 source' :=
    hr.mono (fun x hx _ => hspots.mem_iff.1 hx) fun x hx _ => hspots'.mem_iff.1 hx
  obtain ⟨hsplice, hnames⟩ := hr'.run hts hts' hrun hrun' hnamed hnamed ⟨rfl, .nil⟩
  rw [← Harvest.invokedNames_parse hrun hfinish, ← Harvest.invokedNames_parse hrun' hfinish'] at hnames
  have hmem (r : Text) : r ∈ t'.references ↔ r ∈ t.references := by
    rw [mem_references_iff h, mem_references_iff h', Node.collected, Node.collected, hd,
      map_key_of_agrees hnames]
  refine ⟨?_, nodup_references h, nodup_references h', hmem, ?_⟩
  · rw [hsource, hsource', hd, hsplice]
  · intro α references loader v v' deps hv hv'
    rw [Resolution.result_run_eq_ok_iff, Resolution.result_run_eq_ok_iff]
    exact Resolution.IsClosure.congr_root fun s => by rw [hv, hv', hmem]

/-- A partial with a body, and one without; the names and the closing tag are spelled as given. -/
def spelledPair (name close other : Text) : Text :=
  (open2 ++ "#> ".toList) ++ (name ++ ((" x".toList ++ close2 ++ 'y' :: open2 ++ ['/']) ++
    (close ++ ((close2 ++ open2 ++ "> ".toList) ++ (other ++ close2)))))

def compactSource : Text :=
  spelledPair "ex:a".toList "ex:a".toList "\"b\"".toList

def compactNodes : List Node :=
  [.blockInvocation (.fixed ⟨5, "ex:a".toList⟩) ['x'] ⟨17, "ex:a".toList⟩ [.text ['y']],
    .invocation (.fixed ⟨27, "\"b\"".toList⟩) []]

def expandedSource : Text :=
  spelledPair "\"<http://e/a>\"".toList "[<http://e/a>]".toList ['b']

def expandedNodes : List Node :=
  [.blockInvocation (.fixed ⟨5, "\"<http://e/a>\"".toList⟩) ['x'] ⟨27, "[<http://e/a>]".toList⟩
    [.text ['y']], .invocation (.fixed ⟨47, ['b']⟩) []]

/-- A prefix, and what it stands for. -/
def exampleExpander : Expander :=
  .namespaces ⟨[("ex".toList, "http://e/".toList)], none⟩

/-- What the runtime reads has the alias of the identifier, and the plain name. -/
theorem lower_compact : lower (key exampleExpander) compactSource compactNodes =
    spelledPair (Alias.ofReference "http://e/a".toList) (Alias.ofReference "http://e/a".toList) ['b'] := by
  have hedits : Lowering.edits (key exampleExpander) compactNodes =
      [⟨⟨5, "ex:a".toList⟩, Alias.ofReference "http://e/a".toList⟩,
        ⟨⟨17, "ex:a".toList⟩, Alias.ofReference "http://e/a".toList⟩, ⟨⟨27, "\"b\"".toList⟩, ['b']⟩] := by
    decide +kernel
  rw [lower, hedits, Edit.applyAll, Edit.sorted_of_perm (List.Perm.refl _) (by simp)]
  decide +kernel

/-- A compact name, and its identifier in angle brackets and quotation marks, closed by one in brackets; and a
local name with quotation marks and without. -/
theorem runtimeSource_respelled_pair :
    ∃ t t', parse exampleExpander compactSource = .ok t ∧ parse exampleExpander expandedSource = .ok t' ∧
      t.nodes = compactNodes ∧ t'.nodes = expandedNodes ∧
      Respelled (Node.declaredNames t.nodes) (key exampleExpander) (Lowering.spots.ofNodes t.nodes)
        (Lowering.spots.ofNodes t'.nodes) 0 compactSource 0 expandedSource ∧
      t.runtimeSource = spelledPair (Alias.ofReference "http://e/a".toList)
        (Alias.ofReference "http://e/a".toList) ['b'] ∧
      t'.runtimeSource = t.runtimeSource ∧ ∀ r, r ∈ t'.references ↔ r ∈ t.references := by
  have parsed {source : Text} {nodes : List Node} (h : Stencil.parse source = .ok nodes) :
      ∃ t, parse exampleExpander source = .ok t ∧ t.nodes = nodes ∧
        t.runtimeSource = lower (key exampleExpander) source nodes := by
    rw [parse, h]
    exact ⟨_, rfl, rfl, rfl⟩
  obtain ⟨t, ht, hnodes, hlower⟩ := parsed (show Stencil.parse compactSource = .ok compactNodes by cbv)
  obtain ⟨t', ht', hnodes', -⟩ := parsed (show Stencil.parse expandedSource = .ok expandedNodes by cbv)
  have hd : Node.declaredNames t'.nodes = Node.declaredNames t.nodes := by
    rw [hnodes, hnodes']
    rfl
  have hr : Respelled (Node.declaredNames t.nodes) (key exampleExpander) (Lowering.spots.ofNodes t.nodes)
      (Lowering.spots.ofNodes t'.nodes) 0 compactSource 0 expandedSource := by
    have hkey : PartialName.SameKey [] (key exampleExpander) ⟨5, "ex:a".toList⟩
        ⟨5, "\"<http://e/a>\"".toList⟩ := ⟨by cbv, by cbv, by cbv⟩
    have hkey' : PartialName.SameKey [] (key exampleExpander) ⟨27, "\"b\"".toList⟩ ⟨47, ['b']⟩ :=
      ⟨by cbv, by cbv, by cbv⟩
    have hspots : Lowering.spots.ofNodes compactNodes =
        [(.fixed ⟨5, "ex:a".toList⟩, ⟨5, "ex:a".toList⟩),
          (.fixed ⟨5, "ex:a".toList⟩, ⟨17, "ex:a".toList⟩),
          (.fixed ⟨27, "\"b\"".toList⟩, ⟨27, "\"b\"".toList⟩)] := rfl
    have hspots' : Lowering.spots.ofNodes expandedNodes =
        [(.fixed ⟨5, "\"<http://e/a>\"".toList⟩, ⟨5, "\"<http://e/a>\"".toList⟩),
          (.fixed ⟨5, "\"<http://e/a>\"".toList⟩, ⟨27, "[<http://e/a>]".toList⟩),
          (.fixed ⟨47, ['b']⟩, ⟨47, ['b']⟩)] := rfl
    have hnone : Node.declaredNames compactNodes = [] := rfl
    rw [hnodes, hnodes', hnone, hspots, hspots']
    refine .next (.head _) rfl (.head _) rfl hkey ?_
    refine .next (.tail _ (.head _)) rfl (.tail _ (.head _)) rfl hkey ?_
    exact .next (.tail _ (.tail _ (.head _))) rfl (.tail _ (.tail _ (.head _))) rfl hkey' .same
  obtain ⟨hsource, -, -, hrefs, -⟩ := runtimeSource_respelled ht ht' hd hr
  exact ⟨t, t', ht, ht', hnodes, hnodes', hr, hlower.trans lower_compact, hsource, hrefs⟩

/-- A decorator block with a partial after its `else`; the name is spelled as given. -/
def skippedSpelling (name : Text) : Text :=
  (open2 ++ "#*d".toList ++ close2 ++ 'x' :: "{{else}}".toList ++ open2 ++ "> ".toList) ++
    (name ++ (close2 ++ open2 ++ "/d".toList ++ close2))

/-- After the `else` of a decorator block a name keeps its spelling, so that two spellings of one name give two
runtime sources. -/
theorem runtimeSource_skipped :
    ∃ t t', parse .identity (skippedSpelling "\"a\"".toList) = .ok t ∧
      parse .identity (skippedSpelling ['a']) = .ok t' ∧
      ((tokens (skippedSpelling "\"a\"".toList)).map fun ts => (Call.ofTokens [] ts).map Call.read) =
        .ok [.ok ⟨.fixed ⟨20, "\"a\"".toList⟩, false⟩] ∧
      ((tokens (skippedSpelling ['a'])).map fun ts => (Call.ofTokens [] ts).map Call.read) =
        .ok [.ok ⟨.fixed ⟨20, ['a']⟩, false⟩] ∧
      unquote "\"a\"".toList = unquote ['a'] ∧ Reference.isMeta (unquote ['a']) = false ∧
      Node.declaredNames t.nodes = [] ∧ Node.declaredNames t'.nodes = [] ∧
      t'.runtimeSource ≠ t.runtimeSource := by
  have parsed {source : Text} (h : Stencil.parse source = .ok [.decoratorBlock ['d'] [] [.text ['x']]]) :
      ∃ t, parse .identity source = .ok t ∧ Node.declaredNames t.nodes = [] ∧
        t.runtimeSource = source := by
    have hedits : Lowering.edits (key .identity) [.decoratorBlock ['d'] [] [.text ['x']]] = [] := rfl
    have hlower : lower (key .identity) source [.decoratorBlock ['d'] [] [.text ['x']]] = source := by
      simp [lower, hedits, Edit.applyAll, Edit.sorted, Edit.splice]
    rw [parse, h]
    exact ⟨_, rfl, rfl, hlower⟩
  obtain ⟨t, ht, hd, hsource⟩ := parsed
    (show Stencil.parse (skippedSpelling "\"a\"".toList) = .ok [.decoratorBlock ['d'] [] [.text ['x']]] by
      cbv)
  obtain ⟨t', ht', hd', hsource'⟩ := parsed
    (show Stencil.parse (skippedSpelling ['a']) = .ok [.decoratorBlock ['d'] [] [.text ['x']]] by cbv)
  refine ⟨t, t', ht, ht', by cbv, by cbv, rfl, rfl, hd, hd', ?_⟩
  rw [hsource, hsource']
  exact fun h => absurd (List.append_cancel_left h) (by decide)

end Template

end Stencil
