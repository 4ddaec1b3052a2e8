import Stencil.Proofs.Template.Expression
import Stencil.Proofs.Template.Places
import Stencil.Proofs.Template.Recorded
/-!
Computed names from the source to the runtime source.

Each tag with a computed name is recorded in the tree and respelled in the runtime source, unless it
stands after the `else` of a decorator block, where it is copied (`Template.parse_computed`).
-/

namespace Stencil

namespace Template

variable {x : Expander} {source : Text} {t : Template}

/-- The tag, which follows the tokens `before`, has the computed name `e` and the parameters `rest`: the
tree records both, and the runtime source has `e` with each lone dot spelled out.  After the `else` of a
decorator block nothing is recorded, and the name is copied. -/
structure ReadsComputed (x : Expander) (t : Template) (before : List Token) (tag : Tag) (e rest : Text) :
    Prop where
  inner_eq : tag.inner.text = e ++ rest
  read : PartialName.read tag.inner = .ok (.computed ⟨tag.inner.start, e⟩, Text.trim rest)
  recorded : KeptAfter before → (.computed ⟨tag.inner.start, e⟩, Text.trim rest) ∈ Node.calls t.nodes
  respelled : KeptAfter before → ∃ out, Lowering.Spelled none e out ∧
    Edit.Puts t.source (Lowering.edits (key x) t.nodes) ⟨tag.inner.start, e⟩ out
  copied : ¬ KeptAfter before → Edit.Copies t.source (Lowering.edits (key x) t.nodes) ⟨tag.inner.start, e⟩

/-- A tag has a computed name that ends where all parentheses are paired. -/
theorem readsComputed (h : parse x source = .ok t) {ts₁ ts₂ : List Token} {tag : Tag} {e rest : Text}
    (hts : tokens source = .ok (ts₁ ++ .tag tag :: ts₂))
    (hk : tag.kind = .invocation ∨ tag.kind = .openInvocation) (hp : tag.inner.text.head? = some '(')
    (hi : tag.inner.text = e ++ rest) (hb : PartialName.Balanced 0 e) :
    ReadsComputed x t ts₁ tag e rest := by
  obtain ⟨nodes, hparse, ht⟩ := Except.bind_eq_ok_iff.1 h
  obtain rfl := Except.ok.inj ht
  obtain ⟨_, hts', hparse⟩ := Except.bind_eq_ok_iff.1 hparse
  obtain rfl := Except.ok.inj (hts.symm.trans hts')
  obtain ⟨r, hrun, hfinish⟩ := Except.bind_eq_ok_iff.1 hparse
  obtain ⟨p, hp₁, hp₂⟩ := Except.bind_eq_ok_iff.1 ((Parser.run_append ..).symm.trans hrun)
  obtain ⟨q, hstep, hq⟩ := Parser.run_cons_eq_ok_iff.1 hp₂
  have hread := (PartialName.read_computed_iff hi hp).2 hb
  have hsorted := Lowering.sorted_edits (key x) hts hrun hfinish
  obtain ⟨before, after, htaken⟩ := Lowering.taken_of_run (Node.declaredNames nodes) (key x) hts hp₁ hstep
    hq Lowering.named_start
  obtain ⟨a, b, hw, hs⟩ := Lowering.exists_around htaken.next_eq (hk.imp_right .inl) hb.ne_nil hi
  refine ⟨hi, hread, fun hkept => ?_, fun hkept => ?_, fun hkept => ?_⟩
  · have hkeep := (keptAfter_iff hp₁).1 hkept
    have hrec := Parser.recorded_stepTag (Parser.step_tag_eq_ok_iff.1 hstep) hkeep hk hread
    exact (hrec.run hq).finish hfinish
  · have hkeep := (keptAfter_iff hp₁).1 hkept
    refine ⟨Lowering.runtimeExpression e, Lowering.spelled_spellContext none e, ?_⟩
    refine htaken.puts ?_ hw hs hsorted
    rw [Harvest.ofToken, if_pos hkeep]
    exact Lowering.ofTag_name _ hk hread
  · refine htaken.copies ?_ hw hs hsorted
    rw [Harvest.ofToken, if_neg (fun hkeep => hkept ((keptAfter_iff hp₁).2 hkeep))]

/-- A computed name ends where all its parentheses are paired.  So a tag has the name that closes with the
literals left out exactly if the parentheses in these literals come out even with the others; it does if
no literal has one. -/
theorem parse_computed (h : parse x source = .ok t) :
    t.source = source ∧ t.runtimeSource = Edit.applyAll source (Lowering.edits (key x) t.nodes) ∧
    ∃ ts, tokens source = .ok ts ∧ ∀ ts₁ tag ts₂, ts = ts₁ ++ .tag tag :: ts₂ →
      tag.kind = .invocation ∨ tag.kind = .openInvocation → tag.inner.text.head? = some '(' →
        (∃ e rest, PartialName.Balanced 0 e ∧ ReadsComputed x t ts₁ tag e rest) ∧
        ∀ e rest, tag.inner.text = e ++ rest → PartialName.Closes (fun _ => True) 0 e →
          (ReadsComputed x t ts₁ tag e rest ↔ PartialName.Balanced 0 e) ∧
          (PartialName.Closes PartialName.Unparenthesized 0 e → ReadsComputed x t ts₁ tag e rest) := by
  obtain ⟨nodes, hparse, ht⟩ := Except.bind_eq_ok_iff.1 h
  obtain ⟨ts, hts, hparse⟩ := Except.bind_eq_ok_iff.1 hparse
  obtain ⟨r, hrun, -⟩ := Except.bind_eq_ok_iff.1 hparse
  refine ⟨by rw [← Except.ok.inj ht], by rw [← Except.ok.inj ht]; rfl, ts, hts, ?_⟩
  rintro ts₁ tag ts₂ rfl hk hp
  refine ⟨?_, fun e rest hi _ => ⟨⟨fun hc => ?_, fun hb => ?_⟩, fun hplain => ?_⟩⟩
  · obtain ⟨p, -, hp₂⟩ := Except.bind_eq_ok_iff.1 ((Parser.run_append ..).symm.trans hrun)
    obtain ⟨q, hstep, -⟩ := Parser.run_cons_eq_ok_iff.1 hp₂
    obtain ⟨name, params, hread⟩ := Lowering.read_of_stepTag (Parser.step_tag_eq_ok_iff.1 hstep) hk
    obtain ⟨e, rest, hi, hb⟩ := PartialName.exists_balanced_of_read hread hp
    exact ⟨e, rest, hb, readsComputed h hts hk hp hi hb⟩
  · exact (PartialName.read_computed_iff hi hp).1 hc.read
  · exact readsComputed h hts hk hp hi hb
  · exact readsComputed h hts hk hp hi hplain.balanced

/-! ### A literal with both parentheses and one with a single parenthesis -/

def pairedName : Text :=
  "(f . \"(.)\")".toList

/-- A template that invokes a computed name with the current context. -/
def pairedTemplate : Template where
  source := open2 ++ "> ".toList ++ pairedName ++ " .".toList ++ close2
  nodes := [.invocation (.computed ⟨4, pairedName⟩) ['.']]
  references := []
  runtimeSource := open2 ++ "> (f this \"(.)\") .".toList ++ close2

def pairedTag : Tag where
  kind := .invocation
  inner := ⟨4, pairedName ++ " .".toList⟩
  whole := ⟨0, pairedTemplate.source⟩

theorem closes_pairedName : PartialName.Closes (fun _ => True) 0 pairedName := by
  have literal : PartialName.Closes (fun _ => True) 1 ('"' :: ("(.)".toList ++ '"' :: [')'])) :=
    .literal (.inl rfl) (by decide) trivial (.last (Nat.le_refl 1))
  exact .inner (literal.append_left (s := "f . ".toList) (by simp))

theorem parse_computed_paired : parse .identity pairedTemplate.source = .ok pairedTemplate ∧
    ReadsComputed .identity pairedTemplate [] pairedTag pairedName " .".toList := by
  have hparse : parse .identity pairedTemplate.source = .ok pairedTemplate := by cbv
  have htokens : tokens pairedTemplate.source = .ok [.tag pairedTag] := by cbv
  have hcut : PartialName.balanced 0 pairedName = some (pairedName, []) := by cbv
  obtain ⟨-, hbalanced⟩ := PartialName.balanced_eq_some_iff.1 hcut
  obtain ⟨-, -, ts, hts, htags⟩ := parse_computed hparse
  obtain rfl := Except.ok.inj (htokens.symm.trans hts)
  obtain ⟨-, hname⟩ := htags [] pairedTag [] rfl (.inl rfl) rfl
  exact ⟨hparse, (hname pairedName " .".toList rfl closes_pairedName).1.2 hbalanced⟩

/-- A computed name with a closing parenthesis in a literal. -/
def loneName : Text :=
  "(concat \")\" .)".toList

def loneSource : Text :=
  open2 ++ "> ".toList ++ loneName ++ close2

theorem closes_loneName : PartialName.Closes (fun _ => True) 0 loneName := by
  have dot : PartialName.Closes (fun _ => True) 1 (" .".toList ++ [')']) :=
    .append_left (by simp) (.last (Nat.le_refl 1))
  have literal : PartialName.Closes (fun _ => True) 1
      ('"' :: ([')'] ++ '"' :: (" .".toList ++ [')']))) :=
    .literal (.inl rfl) (by decide) trivial dot
  exact .inner (literal.append_left (s := "concat ".toList) (by simp))

/-- The name is read up to the parenthesis in its literal, the rest of it as parameters, and its dot is
not spelled out. -/
theorem parse_computed_lone :
    tokens loneSource = .ok [.tag ⟨.invocation, ⟨4, loneName⟩, ⟨0, loneSource⟩⟩] ∧
    PartialName.Closes (fun _ => True) 0 loneName ∧
    Lowering.Spelled none loneName "(concat \")\" this)".toList ∧
    parse .identity loneSource = .ok
      ⟨loneSource, [.invocation (.computed ⟨4, "(concat \")".toList⟩) "\" .)".toList], [], loneSource⟩ ∧
    loneSource ≠ open2 ++ "> ".toList ++ "(concat \")\" this)".toList ++ close2 := by
  refine ⟨by cbv, closes_loneName, Lowering.spelled_iff.2 (by cbv), by cbv, by decide⟩

end Template

end Stencil
