import Mathlib.Data.Set.Card
import Stencil.Proofs.Session.Record
import Stencil.Proofs.Session.Snapshot
/-!
Which compilations hand out the same compiled template.

What a scope has on record is what it has compiled with success since it was last cleared
(`find?_compiled_run`), and templates compiled later have greater numbers (`Scope.Numbered`).  So two
successes for one source give the same template just if the scope was not cleared between them, and the
record counts the sources (`compiled_run`).  Compilations that are joined and polled in order are so many
steps (`joinTasks_run`), and rendering is none, for it gives a text and no other scope.
-/

namespace Stencil

/-! ## Numbers -/

/-- The templates on record have numbers from `least` on, below those of templates still to come. -/
structure Scope.Numbered (least : Nat) (s : Scope) : Prop where
  made : least ≤ s.made
  compiled : ∀ source c, s.compiled.find? source = some c → least ≤ c.number ∧ c.number < s.made

theorem Scope.Numbered.of_nil {s : Scope} (h : s.compiled = []) : s.Numbered s.made :=
  ⟨Nat.le_refl _, fun _ _ hc => nomatch h ▸ hc⟩

theorem Scope.sorted_compiled_install {s : Scope} (h : s.compiled.Sorted) (objection : Objection)
    (root : Template) (deps : Table Instance) :
    (s.install objection root deps).2.compiled.Sorted := by
  have hi := installed_install objection s root deps
  generalize s.install objection root deps = p at hi ⊢
  cases hi with
  | failed _ => exact h
  | done _ _ => exact Table.sorted_insert h _ _

theorem Scope.Numbered.install {least : Nat} {s : Scope} (h : s.Numbered least) (objection : Objection)
    (root : Template) (deps : Table Instance) :
    (s.install objection root deps).2.Numbered least := by
  have hi := installed_install objection s root deps
  generalize s.install objection root deps = p at hi ⊢
  cases hi with
  | failed _ => exact ⟨h.made, h.compiled⟩
  | done _ _ =>
    refine ⟨Nat.le_succ_of_le h.made, fun source c hc => ?_⟩
    rw [Table.find?_insert] at hc
    split at hc
    · rw [← Option.some.inj hc]
      exact ⟨h.made, Nat.lt_succ_self _⟩
    · exact ⟨(h.compiled source c hc).1, Nat.lt_succ_of_lt (h.compiled source c hc).2⟩

namespace Session

variable {s : Session} {n : Nat} {a : Step} {steps : List Step} {sc sc' : Scope} {source : Text}
  {c : Compiled} {o : Option Compiled} {least : Nat}

theorem Next.numbered (h : s.Next n a sc sc') (hn : sc.Numbered least) : sc'.Numbered least := by
  cases h with
  | same => exact hn
  | cleared => exact ⟨hn.made, fun _ _ hc => nomatch hc⟩
  | installed objection _ _ => exact hn.install objection _ _

theorem Next.sorted_compiled (h : s.Next n a sc sc') (hs : sc.compiled.Sorted) :
    sc'.compiled.Sorted := by
  cases h with
  | same => exact hs
  | cleared => exact Table.sorted_nil
  | installed objection _ _ => exact Scope.sorted_compiled_install hs objection _ _

/-- Numbers are never given again. -/
theorem Next.made_le (h : s.Next n a sc sc') : sc.made ≤ sc'.made := by
  cases h with
  | same => exact Nat.le_refl _
  | cleared => exact Nat.le_refl _
  | @installed root deps objection _ _ =>
    have hi := Scope.installed_install objection sc root deps
    generalize sc.install objection root deps = p at hi ⊢
    cases hi with
    | failed _ => exact Nat.le_refl _
    | done _ _ => exact Nat.le_succ _

theorem made_le_run (steps : List Step) (hs : s.engine.scope? n = some sc)
    (hs' : (s.run steps).engine.scope? n = some sc') : sc.made ≤ sc'.made := by
  induction steps generalizing s sc with
  | nil => exact Option.some.inj (hs.symm.trans hs') ▸ Nat.le_refl _
  | cons a steps ih =>
    obtain ⟨sc₁, hs₁, hnext⟩ := exists_next a hs
    exact Nat.le_trans hnext.made_le (ih hs₁ hs')

theorem numbered_run (steps : List Step) (hs : s.engine.scope? n = some sc) (hn : sc.Numbered least)
    (hs' : (s.run steps).engine.scope? n = some sc') : sc'.Numbered least := by
  induction steps generalizing s sc with
  | nil => exact Option.some.inj (hs.symm.trans hs') ▸ hn
  | cons a steps ih =>
    obtain ⟨sc₁, hs₁, hnext⟩ := exists_next a hs
    exact ih hs₁ (hnext.numbered hn) hs'

/-! ## One step -/

theorem exists_returns {resolve : Scope → Template → Except TemplateError (Table Instance) × Engine}
    (ha : s.engine.Compiling a n source resolve) (hs : s.engine.scope? n = some sc) :
    ∃ o, s.Returns n a o := by
  cases hc : s.engine.compileBy n source resolve with
  | none => simp [Engine.compileBy, hs] at hc
  | some p => exact ⟨p.1, .intro ha hc⟩

namespace Returns

theorem exists_scope {o : Engine.Compilation} (h : s.Returns n a o) :
    ∃ sc, s.engine.scope? n = some sc := by
  obtain ⟨-, hc⟩ := h
  obtain ⟨sc, hs, -⟩ := Engine.compiles_of_compileBy hc
  exact ⟨sc, hs⟩

theorem clears_eq {o : Engine.Compilation} (h : s.Returns n a o) : a.clears n = false := by
  obtain ⟨ha, -⟩ := h
  cases ha <;> rfl

theorem exists_compiled? {o : Engine.Compilation} (h : s.Returns n a o) :
    ∃ source, a.compiled? = some source := by
  obtain ⟨ha, -⟩ := h
  exact ⟨_, ha.compiled?_eq⟩

/-- What a step that is answered leaves on record. -/
theorem records {o : Engine.Compilation} (h : s.Returns n a o) (hsource : a.compiled? = some source)
    (hs : s.engine.scope? n = some sc) (hs' : (s.step a).engine.scope? n = some sc') :
    Engine.Records sc source o sc'.compiled := by
  obtain ⟨ha, hc⟩ := h
  obtain rfl := Option.some.inj (hsource.symm.trans ha.compiled?_eq)
  rw [engine_step_of_compiling ha hc] at hs'
  exact Engine.records_of_compileBy ha hc hs hs'

/-- A compilation that succeeds gives a template, unless the source is empty. -/
theorem isSome (h : s.Returns n a (.ok o)) (hsource : a.compiled? = some source) (hne : source ≠ []) :
    ∃ c, o = some c := by
  obtain ⟨sc, hs⟩ := h.exists_scope
  obtain ⟨sc', hs', -⟩ := sameDrafts_step s a n sc hs
  have hrec := h.records hsource hs hs'
  generalize ho : (Except.ok o : Engine.Compilation) = x, sc'.compiled = t at hrec
  cases hrec with
  | stale hf =>
    rw [if_neg hne] at ho
    obtain ⟨c, hc, -⟩ := Engine.find?_tasks_of_stale hf hne
    exact ⟨c, (Except.ok.inj ho).trans hc⟩
  | failed err _ => cases ho
  | made c _ => exact ⟨c, Except.ok.inj ho⟩

/-- The empty source compiles to nothing. -/
theorem ne_nil (h : s.Returns n a (.ok (some c))) (hsource : a.compiled? = some source) :
    source ≠ [] := by
  rintro rfl
  obtain ⟨ha, hc⟩ := h
  obtain rfl := Option.some.inj (hsource.symm.trans ha.compiled?_eq)
  obtain ⟨sc, -, h⟩ := Option.map_eq_some_iff.1 hc
  cases (Prod.mk.inj h).1

end Returns

/-- What is on record after a step, and why. -/
inductive Leaves (s : Session) (n : Nat) (a : Step) (sc : Scope) : Table Compiled → Prop
  | cleared : a.clears n = true → Leaves s n a sc []
  | kept : a.clears n = false → (∀ o, ¬s.Returns n a o) → Leaves s n a sc sc.compiled
  | answered {source : Text} {o : Engine.Compilation} {t : Table Compiled} :
      a.compiled? = some source → s.Returns n a o → Engine.Records sc source o t → Leaves s n a sc t

theorem leaves_step (hs : s.engine.scope? n = some sc) (hs' : (s.step a).engine.scope? n = some sc') :
    s.Leaves n a sc sc'.compiled := by
  by_cases hr : ∃ o, s.Returns n a o
  · obtain ⟨o, hr⟩ := hr
    obtain ⟨source, hsource⟩ := hr.exists_compiled?
    exact .answered hsource hr (hr.records hsource hs hs')
  cases hc : a.clears n with
  | true =>
    rw [compiled_of_clears hc hs']
    exact .cleared hc
  | false =>
    -- a compilation without an answer here is one in another scope
    have kept (h : (s.step a).engine.scope? n = s.engine.scope? n) : s.Leaves n a sc sc'.compiled := by
      obtain rfl := Option.some.inj (hs.symm.trans (h.symm.trans hs'))
      exact .kept hc (not_exists.1 hr)
    have elsewhere {m : Nat} {source : Text}
        {resolve : Scope → Template → Except TemplateError (Table Instance) × Engine}
        (ha : s.engine.Compiling a m source resolve) : s.Leaves n a sc sc'.compiled := by
      by_cases hm : n = m
      · exact absurd (exists_returns ha (hm ▸ hs)) (hm ▸ hr)
      · exact kept (scope?_step_of_ne ha hm)
    cases a with
    | compile m source => exact elsewhere (.compile m source)
    | compileLocal m source => exact elsewhere (.compileLocal m source)
    | build _ _ _ _ | dependencies _ _ | clear _ | fetch _ | hold _ =>
      exact kept ((scope?_step rfl hc hs).trans hs.symm)
    | await _ | put _ _ | remove _ | purge | purgeAll =>
      exact kept ((scope?_step rfl hc hs).trans hs.symm)

/-- A step leaves on record what was there, unless it clears the scope, and its own success. -/
theorem find?_compiled_step (hs : s.engine.scope? n = some sc)
    (hs' : (s.step a).engine.scope? n = some sc') :
    sc'.compiled.find? source = some c ↔
      a.clears n = false ∧ sc.compiled.find? source = some c ∨
        a.compiled? = some source ∧ s.Returns n a (.ok (some c)) := by
  have hl := leaves_step hs hs'
  generalize sc'.compiled = t at hl ⊢
  cases hl with
  | cleared hc =>
    refine iff_of_false (nomatch ·) (not_or.2 ⟨fun h => ?_, fun h => ?_⟩)
    · exact nomatch hc.symm.trans h.1
    · exact nomatch hc.symm.trans h.2.clears_eq
  | kept hc hr => simp [hc, hr]
  | @answered source' o t hsource hr hrec =>
    have hown (h : a.compiled? = some source) : source = source' := Option.some.inj (h.symm.trans hsource)
    constructor
    · intro hc
      cases hrec with
      | stale _ => exact .inl ⟨hr.clears_eq, hc⟩
      | failed _ _ => exact .inl ⟨hr.clears_eq, hc⟩
      | made c' _ =>
        rw [Table.find?_insert] at hc
        split at hc
        · next he =>
          obtain rfl := Option.some.inj hc
          exact .inr ⟨he ▸ hsource, hr⟩
        · exact .inl ⟨hr.clears_eq, hc⟩
    · rintro (⟨-, hc⟩ | ⟨h, hr'⟩)
      · cases hrec with
        | stale _ => exact hc
        | failed _ _ => exact hc
        | made c' hf =>
          have hnone := (Engine.isFresh_eq_true_iff.1 hf).2
          rw [Table.find?_insert, if_neg]
          · exact hc
          · rintro rfl
            cases hnone.symm.trans hc
      · obtain rfl := hown h
        have ho := hr.unique hr'
        cases hrec with
        | stale hf =>
          have hc := Except.ok.inj ho
          split at hc
          · cases hc
          · exact hc
        | failed _ _ => cases ho
        | made c' _ =>
          obtain rfl := Option.some.inj (Except.ok.inj ho)
          rw [Table.find?_insert, if_pos rfl]

/-- A source on record is answered from the record. -/
theorem Returns.eq_of_find? (h : s.Returns n a (.ok o)) (hsource : a.compiled? = some source)
    (hs : s.engine.scope? n = some sc) (hc : sc.compiled.find? source = some c) (hne : source ≠ []) :
    o = some c := by
  obtain ⟨c', rfl⟩ := h.isSome hsource hne
  obtain ⟨sc', hs', -⟩ := sameDrafts_step s a n sc hs
  have hold := (find?_compiled_step hs hs').2 (.inl ⟨h.clears_eq, hc⟩)
  have hnew := (find?_compiled_step hs hs').2 (.inr ⟨hsource, h⟩)
  exact hnew.symm.trans hold

/-! ## Runs -/

/-- Some step of the run has compiled the source in the scope with success, and no step since has cleared
the scope. -/
def CompiledSince (s : Session) (n : Nat) (steps : List Step) (source : Text) (o : Option Compiled) :
    Prop :=
  ∃ before a after, steps = before ++ a :: after ∧ a.compiled? = some source ∧
    (s.run before).Returns n a (.ok o) ∧ ∀ b ∈ after, b.clears n = false

theorem compiledSince_nil : ¬s.CompiledSince n [] source o := by
  rintro ⟨before, a, after, h, -⟩
  simp at h

theorem compiledSince_concat : s.CompiledSince n (steps ++ [a]) source o ↔
    a.clears n = false ∧ s.CompiledSince n steps source o ∨
      a.compiled? = some source ∧ (s.run steps).Returns n a (.ok o) := by
  constructor
  · rintro ⟨before, b, after, he, hb, hr, hafter⟩
    rcases List.eq_nil_or_concat after with rfl | ⟨after, last, rfl⟩
    · obtain ⟨rfl, hlast⟩ := List.append_inj' he rfl
      obtain rfl := List.singleton_inj.1 hlast
      exact .inr ⟨hb, hr⟩
    · rw [List.concat_eq_append] at he hafter
      rw [← List.cons_append, ← List.append_assoc] at he
      obtain ⟨rfl, hlast⟩ := List.append_inj' he rfl
      obtain rfl := List.singleton_inj.1 hlast
      obtain ⟨hafter, hlast⟩ := List.forall_mem_append.1 hafter
      exact .inl ⟨hlast a List.mem_cons_self, before, b, after, rfl, hb, hr, hafter⟩
  · rintro (⟨ha, before, b, after, rfl, hb, hr, hafter⟩ | ⟨ha, hr⟩)
    · exact ⟨before, b, after ++ [a], by simp, hb, hr,
        List.forall_mem_append.2 ⟨hafter, List.forall_mem_singleton.2 ha⟩⟩
    · exact ⟨steps, a, [], rfl, ha, hr, fun _ hb => nomatch hb⟩

/-- What is on record is what has been compiled since the scope was last cleared. -/
theorem find?_compiled_run (hnew : ∀ sc, s.engine.scope? n = some sc → sc.compiled = [])
    (hs : (s.run steps).engine.scope? n = some sc) :
    sc.compiled.find? source = some c ↔ s.CompiledSince n steps source (some c) := by
  induction steps using List.reverseRecOn generalizing sc with
  | nil =>
    rw [hnew sc hs]
    exact iff_of_false (nomatch ·) compiledSince_nil
  | append_singleton steps a ih =>
    rw [run_append] at hs
    rw [compiledSince_concat]
    cases hold : (s.run steps).engine.scope? n with
    | some old => rw [find?_compiled_step hold hs, ih hold]
    | none =>
      -- the scope has just been built, and nothing was compiled in it before
      rcases next_step hs with ⟨old, hold', -⟩ | ⟨-, -, hd⟩
      · cases hold.symm.trans hold'
      rw [Scope.compiled_ofDraft hd]
      refine iff_of_false (nomatch ·) (not_or.2 ⟨?_, ?_⟩)
      · rintro ⟨-, before, b, after, rfl, -, hr, -⟩
        obtain ⟨former, hformer⟩ := hr.exists_scope
        obtain ⟨old, hold', -⟩ := sameDrafts_run _ (b :: after) n former hformer
        rw [← run_append] at hold'
        cases hold.symm.trans hold'
      · rintro ⟨-, hr⟩
        obtain ⟨old, hold'⟩ := hr.exists_scope
        cases hold.symm.trans hold'

/-- The record counts the sources that have been compiled since the scope was last cleared. -/
theorem length_compiled_run (hnew : ∀ sc, s.engine.scope? n = some sc → sc.compiled = [])
    (hs : (s.run steps).engine.scope? n = some sc) (hsort : sc.compiled.Sorted) :
    sc.compiled.length =
      Set.ncard {source | source ≠ [] ∧ ∃ o, s.CompiledSince n steps source o} := by
  have hset : {source | source ≠ [] ∧ ∃ o, s.CompiledSince n steps source o} =
      (sc.compiled.keys.toFinset : Set Text) := by
    ext source
    rw [List.coe_toFinset, Set.mem_ofPred_eq, Set.mem_ofPred_eq, Table.mem_keys_iff]
    simp only [find?_compiled_run hnew hs]
    constructor
    · rintro ⟨hne, o, before, a, after, he, ha, hr, hafter⟩
      obtain ⟨c, rfl⟩ := hr.isSome ha hne
      exact ⟨c, before, a, after, he, ha, hr, hafter⟩
    · rintro ⟨c, h⟩
      refine ⟨?_, some c, h⟩
      obtain ⟨before, a, after, -, ha, hr, -⟩ := h
      exact hr.ne_nil ha
  rw [hset, Set.ncard_coe_finset, List.toFinset_card_of_nodup (Table.nodup_keys hsort), Table.keys,
    List.length_map]

/-- What is on record stays there until the scope is cleared. -/
theorem find?_compiled_of_kept (hs : s.engine.scope? n = some sc)
    (hc : sc.compiled.find? source = some c) (hkept : ∀ x ∈ steps, x.clears n = false) :
    ∃ sc', (s.run steps).engine.scope? n = some sc' ∧ sc'.compiled.find? source = some c := by
  induction steps generalizing s sc with
  | nil => exact ⟨sc, hs, hc⟩
  | cons a steps ih =>
    obtain ⟨ha, hrest⟩ := List.forall_mem_cons.1 hkept
    obtain ⟨sc', hs', -⟩ := exists_next a hs
    exact ih hs' ((find?_compiled_step hs hs').2 (.inl ⟨ha, hc⟩)) hrest

/-- With no clearing in between the later success has the template of the earlier. -/
theorem Returns.eq_of_kept {between : List Step} {b : Step} {o' : Option Compiled}
    (ha : s.Returns n a (.ok o)) (hb : (s.run (a :: between)).Returns n b (.ok o'))
    (hsource : a.compiled? = some source) (hsource' : b.compiled? = some source) (hne : source ≠ [])
    (hkept : ∀ x ∈ between, x.clears n = false) : o' = o := by
  obtain ⟨c, rfl⟩ := ha.isSome hsource hne
  obtain ⟨sc, hs⟩ := ha.exists_scope
  obtain ⟨sc₁, hs₁, -⟩ := exists_next a hs
  have hc₁ := (find?_compiled_step hs hs₁).2 (.inr ⟨hsource, ha⟩)
  obtain ⟨sc₂, hs₂, hc₂⟩ := find?_compiled_of_kept hs₁ hc₁ hkept
  exact hb.eq_of_find? hsource' hs₂ hc₂ hne

/-- After a clearing the later success has a template of its own. -/
theorem Returns.ne_of_cleared {between : List Step} {b : Step} {c' : Compiled}
    (ha : s.Returns n a (.ok (some c))) (hb : (s.run (a :: between)).Returns n b (.ok (some c')))
    (hs : s.engine.scope? n = some sc) (hn : sc.Numbered least)
    (hcleared : ∃ x ∈ between, x.clears n = true) : c' ≠ c := by
  obtain ⟨x, hx, hclears⟩ := hcleared
  obtain ⟨l, l', rfl⟩ := List.append_of_mem hx
  obtain ⟨source, hsource⟩ := ha.exists_compiled?
  obtain ⟨source', hsource'⟩ := hb.exists_compiled?
  -- the number of the first template is used up when the scope is cleared,
  obtain ⟨sc₁, hs₁, hnext⟩ := exists_next a hs
  have hfirst := (hnext.numbered hn).compiled source c
    ((find?_compiled_step hs hs₁).2 (.inr ⟨hsource, ha⟩))
  obtain ⟨sc₂, hs₂, -⟩ := sameDrafts_run _ (l ++ [x]) n sc₁ hs₁
  have hused : c.number < sc₂.made := Nat.lt_of_lt_of_le hfirst.2 (made_le_run _ hs₁ hs₂)
  -- and what is compiled from then on has greater numbers
  have hempty : sc₂.Numbered sc₂.made := by
    rw [run_append] at hs₂
    exact .of_nil (compiled_of_clears hclears hs₂)
  have hrun : s.run (a :: (l ++ x :: l')) = ((s.step a).run (l ++ [x])).run l' := by
    rw [run_cons, ← run_append, List.append_assoc, List.singleton_append]
  rw [hrun] at hb
  obtain ⟨sc₃, hs₃, -⟩ := sameDrafts_run _ l' n sc₂ hs₂
  obtain ⟨sc₄, hs₄, hnext'⟩ := exists_next b hs₃
  have hlast := (hnext'.numbered (numbered_run l' hs₂ hempty hs₃)).compiled source' c'
    ((find?_compiled_step hs₃ hs₄).2 (.inr ⟨hsource', hb⟩))
  rintro rfl
  omega

/-! ## Runs from the start -/

variable {e₀ : Engine} {expander : Expander} {escaper : Escaper} {helpers : Table Helper}
  {objection : Objection} {service : Service} {shelf partials : Table Text}

/-- In any run two successes for one source in one scope, either way of compiling, give the same template
just if the scope was not cleared between them.  And after any run the record of the scope counts the
sources that have been compiled with success since it was last cleared; it is that of the tasks, and each
of these has its template. -/
theorem compiled_run
    (h₀ : Engine.start expander escaper helpers objection service shelf partials = .ok e₀)
    (steps : List Step) (n : Nat) :
    (∀ before a between b after source o o', steps = before ++ a :: (between ++ b :: after) →
      source ≠ [] → a.compiled? = some source → b.compiled? = some source →
      ((start e₀).run before).Returns n a (.ok o) →
      ((start e₀).run (before ++ a :: between)).Returns n b (.ok o') →
      ∃ c c', o = some c ∧ o' = some c' ∧ (c' = c ↔ ∀ x ∈ between, x.clears n = false)) ∧
    ∀ sc, ((start e₀).run steps).engine.scope? n = some sc →
      sc.compiled.length =
        Set.ncard {source | source ≠ [] ∧ ∃ o, (start e₀).CompiledSince n steps source o} ∧
      (start e₀).compileTasks n [] steps = sc.tasks ∧
      ∀ source t, sc.tasks.find? source = some t → ∃ c, t = .finished (.ok (some c)) := by
  have hnew (sc : Scope) (hs : (start e₀).engine.scope? n = some sc) : sc.compiled = [] := by
    obtain ⟨d, hd⟩ := ofDraft_of_start h₀ hs
    exact Scope.compiled_ofDraft hd
  constructor
  · intro before a between b after source o o' he hne hsource hsource' ha hb
    rw [run_append] at hb
    obtain ⟨c, rfl⟩ := ha.isSome hsource hne
    obtain ⟨c', rfl⟩ := hb.isSome hsource' hne
    refine ⟨c, c', rfl, rfl, fun hc => ?_, fun hkept => ?_⟩
    · obtain ⟨sc, hs⟩ := ha.exists_scope
      have hn : sc.Numbered 0 := by
        refine scope_run_of_ofDraft h₀ (P := Scope.Numbered 0) ?_ ?_ before hs
        · intro d sc hd
          refine ⟨Nat.zero_le _, fun source c hc => ?_⟩
          rw [Scope.compiled_ofDraft hd] at hc
          cases hc
        · intro s n a sc sc' hnext hn
          exact hnext.numbered hn
      intro x hx
      refine Bool.eq_false_iff.2 fun hclears => ?_
      exact ha.ne_of_cleared hb hs hn ⟨x, hx, hclears⟩ hc
    · exact Option.some.inj (ha.eq_of_kept hb hsource hsource' hne hkept)
  · intro sc hs
    have hsort : sc.compiled.Sorted := by
      refine scope_run_of_ofDraft h₀ (P := fun sc => sc.compiled.Sorted) ?_ ?_ steps hs
      · intro d sc hd
        rw [Scope.compiled_ofDraft hd]
        exact Table.sorted_nil
      · intro s n a sc sc' hnext hsort
        exact hnext.sorted_compiled hsort
    have htasks : (((start e₀).engine.scope? n).map Scope.tasks).getD [] = [] := by
      cases hstart : (start e₀).engine.scope? n with
      | none => rfl
      | some old => rw [Option.map_some, Option.getD_some, Scope.tasks, hnew old hstart, List.map_nil]
    refine ⟨length_compiled_run hnew hs hsort, ?_, fun source t ht => ?_⟩
    · have hrun := compileTasks_run steps hs
      rwa [htasks] at hrun
    · rw [Engine.find?_tasks] at ht
      obtain ⟨c, -, rfl⟩ := Option.map_eq_some_iff.1 ht
      exact ⟨c, rfl⟩

/-- Three compilations of a text, of which the first is forgotten. -/
def textSteps : List Step :=
  [.compile 0 ['x'], .clear 0, .compile 0 ['x'], .compileLocal 0 ['x']]

def textRoot : Template :=
  readAs ['x'] [.text ['x']] []

/-- The engine after the text has been compiled and forgotten. -/
def textCleared : Engine :=
  (installed (pageEngine [] []) textRoot []).setScope 0 (installed (pageEngine [] []) textRoot []).main.clear

theorem succeeds_text : Succeeds (pageEngine [] []) ['x'] textRoot [] :=
  succeeds_bare rfl (by cbv) rfl rfl rfl

theorem succeeds_textCleared : Succeeds textCleared ['x'] textRoot [] :=
  succeeds_bare rfl (by cbv) rfl rfl rfl

theorem engine_textCleared :
    ((start (pageEngine [] [])).run [.compile 0 ['x'], .clear 0]).engine = textCleared := by
  have hfirst : ((start (pageEngine [] [])).step (.compile 0 ['x'])).engine =
      installed (pageEngine [] []) textRoot [] := succeeds_text.engine_step rfl
  change (((start (pageEngine [] [])).step (.compile 0 ['x'])).step (.clear 0)).engine = _
  rw [engine_step_clear, hfirst]
  rfl

/-- The second compilation gives a template of its own, and the third gives that again. -/
theorem compiled_run_text : ∃ c c' c'',
    (start (pageEngine [] [])).Returns 0 (.compile 0 ['x']) (.ok (some c)) ∧
    ((start (pageEngine [] [])).run (textSteps.take 2)).Returns 0 (.compile 0 ['x']) (.ok (some c')) ∧
    ((start (pageEngine [] [])).run (textSteps.take 3)).Returns 0 (.compileLocal 0 ['x'])
      (.ok (some c'')) ∧
    c' ≠ c ∧ c'' = c' := by
  have hall := (compiled_run start_pageEngine textSteps 0).1
  have hfirst := succeeds_text.returns (s := start (pageEngine [] [])) rfl
  have hsecond := succeeds_textCleared.returns engine_textCleared
  have hthird : ((start (pageEngine [] [])).run (textSteps.take 3)).engine =
      installed textCleared textRoot [] := by
    rw [← succeeds_textCleared.engine_step engine_textCleared]
    rfl
  obtain ⟨c'', hlast⟩ : ∃ c'', ((start (pageEngine [] [])).run (textSteps.take 3)).Returns 0
      (.compileLocal 0 ['x']) (.ok c'') := by
    have hstale : (installed textCleared textRoot []).compileBy 0 ['x']
        (installed textCleared textRoot []).resolveLocal = _ := Engine.compileBy_of_stale rfl rfl
    rw [← hthird] at hstale
    exact ⟨_, .intro (.compileLocal 0 ['x']) hstale⟩
  obtain ⟨c, c', hc, hc', hne⟩ := hall [] _ [.clear 0] _ [.compileLocal 0 ['x']] ['x'] _ _ rfl
    (List.cons_ne_nil _ _) rfl rfl hfirst hsecond
  obtain ⟨d, d', hd, hd', heq⟩ := hall [.compile 0 ['x'], .clear 0] _ [] _ [] ['x'] _ _ rfl
    (List.cons_ne_nil _ _) rfl rfl hsecond hlast
  refine ⟨c, c', d', hc ▸ hfirst, hc' ▸ hsecond, hd' ▸ hlast, fun he => ?_, ?_⟩
  · cases (hne.1 he) _ List.mem_cons_self
  · rw [heq.2 fun _ hx => nomatch hx]
    exact Option.some.inj (hd.symm.trans hc')

end Session

end Stencil
