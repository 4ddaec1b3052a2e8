import Stencil.Proofs.Resolution.DepthFirst
import Stencil.Proofs.Session.Registry
/-!
What a step leaves alone, and what it makes of a scope.

`Engine.Frame` lists the changes that steps are made of, so that a relation which all of them keep holds
between the engines before and after a step (`Frame.step`) and a run (`Frame.run`).  A scope after a step
is new, or the one before, perhaps without its compiled templates or with one installation more
(`next_step`).
-/

namespace Stencil

/-! ## Frames -/

/-- A relation between engines that all changes keep, purges apart. -/
structure Engine.Frame (R : Engine → Engine → Prop) : Prop where
  refl : ∀ e, R e e
  trans : ∀ {e e' e''}, R e e' → R e' e'' → R e e''
  setScope : ∀ e n sc, R e (e.setScope n sc)
  built : ∀ (e : Engine) sc, R e { e with others := sc :: e.others }
  request : ∀ e r, R e (e.request r).2
  await : ∀ e t, R e (e.await t).2
  put : ∀ e r markup, R e (e.put r markup)
  remove : ∀ e r, R e (e.remove r)

namespace Engine.Frame

variable {R : Engine → Engine → Prop}

theorem fetch (h : Frame R) (e : Engine) (r : Text) : R e (e.fetch r).2 :=
  h.trans (h.request e r) (h.await _ _)

theorem fetchAll (h : Frame R) (e : Engine) (rs : List Text) : R e (e.fetchAll rs) := by
  induction rs generalizing e with
  | nil => exact h.refl e
  | cons r rs ih => exact h.trans (h.fetch e r) (ih _)

theorem resolve (h : Frame R) (e : Engine) (sc : Scope) (root : Template) :
    R e (e.resolve sc root).2 := by
  rw [snd_resolve]
  exact h.fetchAll e _

theorem compileBy (h : Frame R) {e e' : Engine} {n : Nat} {source : Text} {o : Compilation}
    {resolve : Scope → Template → Except TemplateError (Table Instance) × Engine}
    (hr : ∀ sc root, R e (resolve sc root).2) (hc : e.compileBy n source resolve = some (o, e')) :
    R e e' := by
  obtain ⟨sc, -, hc⟩ := compiles_of_compileBy hc
  cases hc with
  | stale _ => exact h.refl e
  | unreadable _ _ => exact h.refl e
  | unresolved _ _ _ => exact hr _ _
  | installed _ _ _ => exact h.trans (hr _ _) (h.setScope _ _ _)

theorem dependencies (h : Frame R) {e e' : Engine} {n : Nat} {source : Text}
    {o : Except TemplateError (Table Instance)} (hd : e.dependencies n source = some (o, e')) :
    R e e' := by
  obtain ⟨sc, -, hd⟩ := Option.map_eq_some_iff.1 hd
  split at hd
  · exact (Prod.mk.inj hd).2 ▸ h.refl e
  · next root _ =>
    have hr := h.resolve e sc root
    rwa [hd] at hr

theorem step (h : Frame R) (s : Session) (a : Step)
    (hp : a.isPurge = false ∨ ∀ e : Engine, R e e.purge) :
    R s.engine (s.step a).engine := by
  have hp (ha : a.isPurge = true) (e : Engine) : R e e.purge :=
    hp.elim (fun hf => nomatch ha.symm.trans hf) fun hpurge => hpurge e
  have hm := s.moves_step a
  generalize (s.step a).engine = e' at hm ⊢
  cases hm with
  | idle => exact h.refl _
  | build _ hb =>
    obtain ⟨sc, -, he⟩ := Except.map_eq_ok_iff.1 hb
    exact (Prod.mk.inj he).2 ▸ h.built _ sc
  | compile hc => exact h.compileBy (h.resolve _) hc
  | compileLocal hc => exact h.compileBy (fun _ _ => h.refl _) hc
  | dependencies hd => exact h.dependencies hd
  | clear _ => exact h.setScope _ _ _
  | fetch r => exact h.fetch _ r
  | hold r => exact h.request _ r
  | await _ t => exact h.await _ t
  | put r markup => exact h.put _ r markup
  | remove r => exact h.remove _ r
  | purge => exact hp rfl _
  | purgeAll => exact h.trans (hp rfl _) (h.setScope _ _ _)

theorem run (h : Frame R) (s : Session) (steps : List Step)
    (hp : (∀ a ∈ steps, a.isPurge = false) ∨ ∀ e : Engine, R e e.purge) :
    R s.engine (s.run steps).engine := by
  induction steps generalizing s with
  | nil => exact h.refl _
  | cons a steps ih =>
    exact h.trans (h.step s a (hp.imp_left fun hall => hall a List.mem_cons_self))
      (ih (s.step a) (hp.imp_left fun hall b hb => hall b (List.mem_cons_of_mem _ hb)))

end Engine.Frame

namespace Engine

/-- An engine is configured once. -/
theorem frame_config : Frame fun e e' => e'.expander = e.expander ∧ e'.objection = e.objection where
  refl _ := ⟨rfl, rfl⟩
  trans h h' := ⟨h'.1.trans h.1, h'.2.trans h.2⟩
  setScope _ n _ := by cases n <;> exact ⟨rfl, rfl⟩
  built _ _ := ⟨rfl, rfl⟩
  request _ _ := ⟨rfl, rfl⟩
  await e t := by
    unfold await
    split <;> exact ⟨rfl, rfl⟩
  put _ _ _ := ⟨rfl, rfl⟩
  remove _ _ := ⟨rfl, rfl⟩

/-- What is settled stays so. -/
theorem frame_outcome (t : Task) (o : Outcome) :
    Frame fun e e' => e.fetches.outcome? t = some o → e'.fetches.outcome? t = some o where
  refl _ := id
  trans h h' := h' ∘ h
  setScope e n sc h := by rwa [(sameSources_setScope e n sc).2]
  built _ _ h := h
  request e r h := (Fetches.outcome?_request e.fetches r t).trans h
  await e u h := by
    rw [outcome?_await]
    split
    · next ht => rw [await_of_settled (ht ▸ h)]
    · exact h
  put _ _ _ h := h
  remove _ _ h := h

theorem frame_epoch : Frame fun e e' => e'.fetches.epoch = e.fetches.epoch where
  refl _ := rfl
  trans h h' := h'.trans h
  setScope e n sc := by rw [(sameSources_setScope e n sc).2]
  built _ _ := rfl
  request e r := Fetches.epoch_request e.fetches r
  await := epoch_await
  put _ _ _ := rfl
  remove _ _ := rfl

/-- A request is given the same task, whatever is done before it. -/
theorem frame_task : Frame fun e e' => e'.fetches.task = e.fetches.task where
  refl _ := rfl
  trans h h' := h'.trans h
  setScope e n sc := by rw [(sameSources_setScope e n sc).2]
  built _ _ := rfl
  request e r := Fetches.task_request e.fetches r
  await := task_await
  put _ _ _ := rfl
  remove _ _ := rfl

/-- Fetches in a row settle the tasks of this moment with what they would have come to at the outset. -/
theorem outcome?_fetchAll (e : Engine) {rs : List Text} {r : Text} (hr : r ∈ rs) :
    (e.fetchAll rs).fetches.outcome? (e.fetches.task r) = some (e.peek r) := by
  induction rs generalizing e with
  | nil => exact absurd hr List.not_mem_nil
  | cons q rs ih =>
    change ((e.fetch q).2.fetchAll rs).fetches.outcome? _ = _
    rcases List.mem_cons.1 hr with rfl | hr
    · refine (frame_outcome _ _).fetchAll _ rs ?_
      rw [outcome?_fetch, if_pos rfl]
    · rw [← peek_fetch e q r, ← task_fetch e q]
      exact ih _ hr

theorem scope?_length (e : Engine) : e.scope? (e.others.length + 1) = none := by
  simp [scope?]

theorem scope?_built (e : Engine) (sc : Scope) (n : Nat) :
    scope? { e with others := sc :: e.others } n =
      if n = e.others.length + 1 then some sc else e.scope? n := by
  cases n with
  | zero => rfl
  | succ n =>
    simp only [scope?, List.reverse_cons, List.getElem?_append, List.length_reverse]
    split
    · rw [if_neg (by omega)]
    · by_cases hn : n = e.others.length
      · simp [hn]
      · rw [List.getElem?_eq_none (by simp; omega), if_neg (by omega),
          List.getElem?_eq_none (by simp; omega)]

end Engine

/-! ## Compilations -/

/-- The step compiles a source in the scope of a number, and resolves it in this way. -/
inductive Engine.Compiling (e : Engine) : Step → Nat → Text →
    (Scope → Template → Except TemplateError (Table Instance) × Engine) → Prop
  | compile (n : Nat) (source : Text) : Compiling e (.compile n source) n source e.resolve
  | compileLocal (n : Nat) (source : Text) : Compiling e (.compileLocal n source) n source e.resolveLocal

namespace Engine.Compiling

variable {e : Engine} {a : Step} {n : Nat} {source : Text}
  {resolve : Scope → Template → Except TemplateError (Table Instance) × Engine}

/-- A step compiles in one scope, and in one way. -/
theorem unique (h : e.Compiling a n source resolve) {source' : Text}
    {resolve' : Scope → Template → Except TemplateError (Table Instance) × Engine}
    (h' : e.Compiling a n source' resolve') : source = source' ∧ resolve = resolve' := by
  cases h <;> cases h' <;> exact ⟨rfl, rfl⟩

theorem compiled?_eq (h : e.Compiling a n source resolve) : a.compiled? = some source := by
  cases h <;> rfl

theorem scope?_resolve (h : e.Compiling a n source resolve) (sc : Scope) (root : Template) (m : Nat) :
    (resolve sc root).2.scope? m = e.scope? m := by
  cases h with
  | compile => rw [snd_resolve, scope?_fetchAll]
  | compileLocal => rfl

theorem sorted (h : e.Compiling a n source resolve) {sc : Scope} {root : Template}
    {deps : Table Instance}
    (hd : (resolve sc root).1 = .ok deps) : deps.Sorted := by
  cases h with
  | compile => exact sorted_of_resolve hd
  | compileLocal => exact (Resolution.mem_within hd).1

end Engine.Compiling

theorem Engine.scope?_dependencies {e e' : Engine} {m : Nat} {source : Text}
    {o : Except TemplateError (Table Instance)} (hd : e.dependencies m source = some (o, e')) (n : Nat) :
    e'.scope? n = e.scope? n := by
  obtain ⟨sc, -, hd⟩ := Option.map_eq_some_iff.1 hd
  split at hd
  · rw [← (Prod.mk.inj hd).2]
  · next root _ =>
    have hr := Engine.Compiling.scope?_resolve (.compile (e := e) m source) sc root n
    rwa [hd] at hr

namespace Session

/-- The step compiles a source that is new to the scope of number `n`: it parses to this root, and all that
the root depends on is found. -/
inductive Finds (s : Session) (n : Nat) (a : Step) (root : Template) (deps : Table Instance) : Prop
  | intro {source : Text} {resolve : Scope → Template → Except TemplateError (Table Instance) × Engine}
      {sc : Scope} : s.engine.Compiling a n source resolve → s.engine.scope? n = some sc →
      Engine.isFresh sc source = true → s.engine.parse source = .ok root →
      (resolve sc root).1 = .ok deps → Finds s n a root deps

/-- The step compiles a source in the scope of number `n`, and this is the answer. -/
inductive Returns (s : Session) (n : Nat) (a : Step) (o : Engine.Compilation) : Prop
  | intro {source : Text} {resolve : Scope → Template → Except TemplateError (Table Instance) × Engine}
      {e : Engine} : s.engine.Compiling a n source resolve →
      s.engine.compileBy n source resolve = some (o, e) →
      Returns s n a o

/-- What a step can make of the scope of number `n`. -/
inductive Next (s : Session) (n : Nat) (a : Step) (sc : Scope) : Scope → Prop
  | same : Next s n a sc sc
  | cleared : Next s n a sc sc.clear
  | installed {root : Template} {deps : Table Instance} (objection : Objection) :
      s.Finds n a root deps → s.Returns n a ((sc.install objection root deps).1.map some) →
      Next s n a sc (sc.install objection root deps).2

/-- The step builds this scope. -/
inductive Builds (s : Session) : Step → Scope → Prop
  | intro {base : Base} {partials : List (Text × Given)} {helpers : Table Helper} {owner : Option Owner}
      {d : Draft} {sc : Scope} : s.engine.draft? base partials helpers owner = some d →
      Scope.ofDraft s.engine.objection d = .ok sc → Builds s (.build base partials helpers owner) sc

variable {s : Session} {n : Nat} {a : Step} {root : Template} {deps : Table Instance} {sc sc' : Scope}

/-- A compilation has one answer. -/
theorem Returns.unique {o o' : Engine.Compilation} (h : s.Returns n a o) (h' : s.Returns n a o') : o = o' := by
  obtain ⟨ha, hc⟩ := h
  obtain ⟨ha', hc'⟩ := h'
  obtain ⟨rfl, rfl⟩ := ha.unique ha'
  exact (Prod.mk.inj (Option.some.inj (hc.symm.trans hc'))).1

theorem next_of_compiling {m : Nat} {source : Text} {o : Engine.Compilation} {e' : Engine}
    {resolve : Scope → Template → Except TemplateError (Table Instance) × Engine}
    (ha : s.engine.Compiling a m source resolve)
    (hc : s.engine.compileBy m source resolve = some (o, e'))
    (h : e'.scope? n = some sc') : ∃ sc, s.engine.scope? n = some sc ∧ s.Next n a sc sc' := by
  obtain ⟨sc, hs, hcomp⟩ := Engine.compiles_of_compileBy hc
  cases hcomp with
  | stale _ => exact ⟨sc', h, .same⟩
  | unreadable _ _ => exact ⟨sc', h, .same⟩
  | unresolved _ _ _ => exact ⟨sc', ha.scope?_resolve _ _ n ▸ h, .same⟩
  | installed hf hp hd =>
    rw [Engine.scope?_setScope, ha.scope?_resolve] at h
    split at h
    · next hn =>
      subst hn
      rw [hs] at h
      obtain rfl := Option.some.inj h
      exact ⟨sc, hs, .installed _ (.intro ha hs hf hp hd) (.intro ha hc)⟩
    · exact ⟨sc', h, .same⟩

/-- A scope after a step is one from before, or has just been built. -/
theorem next_step (h : (s.step a).engine.scope? n = some sc') :
    (∃ sc, s.engine.scope? n = some sc ∧ s.Next n a sc sc') ∨
      s.engine.scope? n = none ∧ s.Builds a sc' := by
  have hm := s.moves_step a
  generalize (s.step a).engine = e' at hm h
  have same (he : e'.scope? n = s.engine.scope? n) :
      ∃ sc, s.engine.scope? n = some sc ∧ s.Next n a sc sc' := ⟨sc', he ▸ h, .same⟩
  cases hm with
  | build hd hb =>
    obtain ⟨new, hnew, he⟩ := Except.map_eq_ok_iff.1 hb
    rw [← (Prod.mk.inj he).2, Engine.scope?_built] at h
    split at h
    · next hn =>
      obtain rfl := Option.some.inj h
      exact .inr ⟨hn ▸ Engine.scope?_length s.engine, .intro hd hnew⟩
    · exact .inl ⟨sc', h, .same⟩
  | compile hc => exact .inl (next_of_compiling (.compile _ _) hc h)
  | compileLocal hc => exact .inl (next_of_compiling (.compileLocal _ _) hc h)
  | dependencies hd => exact .inl (same (Engine.scope?_dependencies hd n))
  | @clear m old hs =>
    rw [Engine.scope?_setScope] at h
    split at h
    · next hn =>
      subst hn
      rw [hs] at h
      exact .inl ⟨old, hs, Option.some.inj h ▸ .cleared⟩
    · exact .inl ⟨sc', h, .same⟩
  | purgeAll =>
    rw [Engine.scope?_setScope] at h
    split at h
    · next hn =>
      subst hn
      exact .inl ⟨_, rfl, Option.some.inj h ▸ .cleared⟩
    · exact .inl ⟨sc', h, .same⟩
  | fetch r => exact .inl (same (Engine.scope?_fetch _ r n))
  | await _ t => exact .inl (same (Engine.scope?_await _ t n))
  | idle | hold _ | put _ _ | remove _ | purge => exact .inl (same rfl)

theorem exists_next (a : Step) (hs : s.engine.scope? n = some sc) :
    ∃ sc', (s.step a).engine.scope? n = some sc' ∧ s.Next n a sc sc' := by
  obtain ⟨sc', hs', -⟩ := sameDrafts_step s a n sc hs
  rcases next_step hs' with ⟨old, hold, hnext⟩ | ⟨hnone, -⟩
  · obtain rfl := Option.some.inj (hs.symm.trans hold)
    exact ⟨sc', hs', hnext⟩
  · exact nomatch hs.symm.trans hnone

theorem engine_step_of_compiling {source : Text} {o : Engine.Compilation} {e' : Engine}
    {resolve : Scope → Template → Except TemplateError (Table Instance) × Engine}
    (ha : s.engine.Compiling a n source resolve)
    (hc : s.engine.compileBy n source resolve = some (o, e')) :
    (s.step a).engine = e' := by
  cases ha with
  | compile =>
    obtain ⟨sc, hs, -⟩ := Engine.compiles_of_compileBy hc
    have hc : s.engine.compile n source = some (o, e') := hc
    simp only [step, hs, hc]
    rfl
  | compileLocal =>
    have hc : s.engine.compileLocal n source = some (o, e') := hc
    simp only [step, hc]

/-! ### The engine after a step -/

theorem engine_step_build (s : Session) (base : Base) (partials : List (Text × Given))
    (helpers : Table Helper) (owner : Option Owner) :
    (s.step (.build base partials helpers owner)).engine =
      (((s.engine.draft? base partials helpers owner).bind fun d => (s.engine.build d).toOption).map
        Prod.snd).getD s.engine := by
  simp only [step]
  split
  · next hd => rw [hd]; rfl
  · next d hd =>
    rw [hd]
    split
    · next hb => simp [hb, Except.toOption]
    · next hb => simp [hb, Except.toOption]

theorem engine_step_compile (s : Session) (n : Nat) (source : Text) :
    (s.step (.compile n source)).engine =
      ((s.engine.compile n source).map Prod.snd).getD s.engine := by
  cases hs : s.engine.scope? n with
  | none => simp [step, hs, Engine.compile, Engine.compileBy]
  | some sc =>
    cases hc : s.engine.compile n source with
    | none => simp [step, hc]
    | some p => simp [step, hs, hc, resolved]

theorem engine_step_compileLocal (s : Session) (n : Nat) (source : Text) :
    (s.step (.compileLocal n source)).engine =
      ((s.engine.compileLocal n source).map Prod.snd).getD s.engine := by
  cases hc : s.engine.compileLocal n source <;> simp [step, hc]

theorem engine_step_dependencies (s : Session) (n : Nat) (source : Text) :
    (s.step (.dependencies n source)).engine =
      ((s.engine.dependencies n source).map Prod.snd).getD s.engine := by
  cases hs : s.engine.scope? n with
  | none => simp [step, hs, Engine.dependencies]
  | some sc =>
    cases hd : s.engine.dependencies n source with
    | none => simp [step, hd]
    | some p => simp [step, hs, hd, resolved]

theorem engine_step_clear (s : Session) (n : Nat) :
    (s.step (.clear n)).engine =
      ((s.engine.scope? n).map fun sc => s.engine.setScope n sc.clear).getD s.engine := by
  cases hs : s.engine.scope? n <;> simp [step, hs]

namespace Finds

theorem compiled?_eq (h : s.Finds n a root deps) : a.compiled? = some root.source := by
  obtain ⟨ha, -, -, hp, -⟩ := h
  rw [ha.compiled?_eq, Engine.source_of_parse hp]

theorem isParsed (h : s.Finds n a root deps) : root.IsParsed s.engine.expander := by
  obtain ⟨-, -, -, hp, -⟩ := h
  exact Engine.isParsed_of_parse hp

theorem sorted (h : s.Finds n a root deps) : deps.Sorted := by
  obtain ⟨ha, -, -, -, hd⟩ := h
  exact ha.sorted hd

theorem met_eq (h : s.Finds n a root deps) : s.met a = deps.keys := by
  obtain ⟨ha, hs, hf, hp, hd⟩ := h
  cases ha with
  | compile => exact Engine.met_eq hs hf hp hd
  | compileLocal => exact Engine.met_eq hs hf hp hd

/-- What is found is a partial of the scope, or is remote and was fetched. -/
theorem answered (h : s.Finds n a root deps) (hs : s.engine.scope? n = some sc) {k : Text} {i : Instance}
    (hi : deps.find? k = some i) : sc.partials.find? k = some i ∨
      sc.partials.find? k = none ∧ Reference.isRemote k = true ∧ s.engine.peek k = .ok i := by
  obtain ⟨ha, hs', -, -, hd⟩ := h
  obtain rfl := Option.some.inj (hs.symm.trans hs')
  cases ha with
  | compile =>
    obtain ⟨hok, rfl⟩ := Resolution.result_eq_ok_iff.1 hd
    have hanswer := ((Resolution.find?_settled_run hok k i).1 hi).2
    simp only [Engine.loader] at hanswer
    split at hanswer
    · next p hp => exact .inl (Except.ok.inj hanswer ▸ hp)
    · next hp =>
      split at hanswer
      · next hr => exact .inr ⟨hp, hr, hanswer⟩
      · cases hanswer
  | compileLocal =>
    obtain ⟨hsort, hall⟩ := Resolution.mem_within hd
    exact .inl (hall k i ((Table.mem_iff_find? hsort).2 hi))

/-- A compilation that finds its dependencies installs them, and is answered accordingly. -/
theorem engine_step (h : s.Finds n a root deps) {o : Engine.Compilation} (hr : s.Returns n a o) :
    ∃ resolve sc objection, s.engine.Compiling a n root.source resolve ∧ s.engine.scope? n = some sc ∧
      (resolve sc root).1 = .ok deps ∧ o = (sc.install objection root deps).1.map some ∧
      (s.step a).engine = (resolve sc root).2.setScope n (sc.install objection root deps).2 := by
  obtain ⟨ha, hs, hf, hp, hd⟩ := h
  obtain ⟨ha', hc⟩ := hr
  obtain ⟨rfl, rfl⟩ := ha.unique ha'
  obtain ⟨sc', hs', hcomp⟩ := Engine.compiles_of_compileBy hc
  obtain rfl := Option.some.inj (hs.symm.trans hs')
  rw [engine_step_of_compiling ha hc, Engine.source_of_parse hp]
  cases hcomp with
  | stale hf' => exact nomatch hf.symm.trans hf'
  | unreadable _ hp' => exact nomatch hp.symm.trans hp'
  | unresolved _ hp' hd' =>
    obtain rfl := Except.ok.inj (hp.symm.trans hp')
    exact nomatch hd.symm.trans hd'
  | installed _ hp' hd' =>
    obtain rfl := Except.ok.inj (hp.symm.trans hp')
    obtain rfl := Except.ok.inj (hd.symm.trans hd')
    exact ⟨_, _, _, ha, hs, hd, rfl, rfl⟩

theorem installed (h : s.Finds n a root deps) {c : Compiled} (hr : s.Returns n a (.ok (some c))) :
    ∃ sc objection, s.engine.scope? n = some sc ∧ (sc.install objection root deps).1 = .ok c ∧
      (s.step a).engine.scope? n = some (sc.install objection root deps).2 := by
  obtain ⟨resolve, sc, objection, ha, hs, -, ho, he⟩ := h.engine_step hr
  obtain ⟨c', hc', hcc⟩ := Except.map_eq_ok_iff.1 ho.symm
  obtain rfl := Option.some.inj hcc
  refine ⟨sc, objection, hs, hc', ?_⟩
  rw [he, Engine.scope?_setScope, if_pos rfl, ha.scope?_resolve, hs]
  rfl

/-- What was fetched is settled. -/
theorem settled (h : s.Finds n a root deps) {o : Engine.Compilation} (hr : s.Returns n a o) {k : Text}
    {i : Instance} (hs : s.engine.scope? n = some sc) (hown : sc.partials.find? k = none)
    (hi : deps.find? k = some i) :
    (s.step a).engine.fetches.outcome? (s.engine.fetches.task k) = some (.ok i) := by
  have hfetched : Reference.isRemote k = true ∧ s.engine.peek k = .ok i := by
    rcases h.answered hs hi with ho | ⟨-, hf⟩
    · exact nomatch hown.symm.trans ho
    · exact hf
  obtain ⟨resolve, sc', objection, ha, hs', hd, -, he⟩ := h.engine_step hr
  obtain rfl := Option.some.inj (hs.symm.trans hs')
  rw [he]
  refine (Engine.frame_outcome _ _).setScope _ _ _ ?_
  cases ha with
  | compile =>
    rw [Engine.snd_resolve, ← hfetched.2]
    obtain ⟨hok, rfl⟩ := Resolution.result_eq_ok_iff.1 hd
    have hreach := ((Resolution.find?_settled_run hok k i).1 hi).1
    have hload := Resolution.mem_loads_of_reachable hok hreach
    refine Engine.outcome?_fetchAll _ (List.mem_filter.2 ⟨hload, ?_⟩)
    rw [Table.contains, hown, hfetched.1]
    rfl
  | compileLocal =>
    obtain ⟨hsort, hall⟩ := Resolution.mem_within hd
    exact nomatch hown.symm.trans (hall k i ((Table.mem_iff_find? hsort).2 hi))

end Finds

/-- The registry of a scope is in order, for building and compiling have put it so. -/
theorem Next.sorted_registry (h : s.Next n a sc sc') (hs : sc.registry.Sorted) : sc'.registry.Sorted := by
  cases h with
  | same => exact hs
  | cleared => exact hs
  | installed objection _ _ => exact Scope.sorted_install objection hs _ _

theorem Next.draft_eq (h : s.Next n a sc sc') : sc'.draft = sc.draft := by
  cases h with
  | same => rfl
  | cleared => rfl
  | installed objection _ _ => exact Scope.draft_install objection sc _ _

end Session

end Stencil
