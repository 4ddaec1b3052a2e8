import Stencil.Proofs.Identifier
import Stencil.Proofs.Session.Snapshot
/-!
Scopes made again from the sources of their partials.

A scope gives its partials under their keys, and a scope that is made from them registers each under the key
of its key (`find?_recreate`).  So the copy is made if no two keys have the same key (`exists_recreate_iff`).
It is like the original if keys are their own keys, which depends on the namespaces of the engine and on what
the names of the partials have in angle brackets (`recreated_run`).
-/

namespace Stencil

/-! ## Registering -/

/-- The partial is what the expander reads. -/
inductive Partial.ReadBy (x : Expander) : Partial → Prop
  | markup (source : Text) : ReadBy x (.markup source)
  | parsed {t : Template} : t.IsParsed x → ReadBy x (.parsed t)

theorem Partial.ReadBy.isParsed {x : Expander} {p : Partial} {t : Template} (h : p.ReadBy x)
    (ht : p.template x = .ok t) : t.IsParsed x := by
  cases h with
  | markup source => exact Partial.isParsed_of_markup ht
  | parsed hp => exact Except.ok.inj ht ▸ hp

namespace Partial

/-- Sources as the partials that they are given as. -/
def ofSources (sources : Table Text) : List (Text × Partial) :=
  sources.map fun p => (p.1, .markup p.2)

variable {sources : Table Text} {p : Text × Partial}

theorem mem_ofSources_iff :
    p ∈ ofSources sources ↔ ∃ k source, (k, source) ∈ sources ∧ (k, .markup source) = p := by
  simp [ofSources]

theorem mem_ofSources_sources_iff {sc : Scope} (hsort : sc.partials.Sorted) :
    p ∈ ofSources sc.sources ↔
      ∃ k i, sc.partials.find? k = some i ∧ (k, .markup i.template.source) = p := by
  simp [ofSources, Scope.sources, ← Table.mem_iff_find? hsort]

theorem isParsed_of_mem_ofSources {x : Expander} {t : Template} (hp : p ∈ ofSources sources)
    (ht : p.2.template x = .ok t) : ∃ y, t.IsParsed y := by
  obtain ⟨k, source, -, rfl⟩ := mem_ofSources_iff.1 hp
  exact ⟨x, isParsed_of_markup ht⟩

end Partial

/-- Whether a source can be read is no matter of the expander. -/
theorem Template.parse_of_parse {x : Expander} {source : Text} {t : Template} (h : parse x source = .ok t)
    (y : Expander) : ∃ u, parse y source = .ok u := by
  obtain ⟨nodes, hn, -⟩ := Except.bind_eq_ok_iff.1 h
  exact ⟨_, Except.bind_eq_ok_iff.2 ⟨nodes, hn, rfl⟩⟩

namespace Draft

/-- Registering a named partial makes this entry. -/
inductive Registers (x : Expander) (p : Text × Partial) : Text → Instance → Prop
  | intro {t : Template} : p.2.template x = .ok t → Registers x p (Template.key x p.1) ⟨.given, t⟩

variable {x : Expander} {d d' : Draft} {given more : List (Text × Partial)} {k : Text} {i : Instance}

theorem register_eq_ok_iff {p : Text × Partial} : d.register x p.1 p.2 = .ok d' ↔
    d.partials.find? (Template.key x p.1) = none ∧ ∃ t, p.2.template x = .ok t ∧
      { d with partials := d.partials.insert (Template.key x p.1) ⟨.given, t⟩ } = d' := by
  unfold register
  cases hc : d.partials.find? (Template.key x p.1) with
  | none => simp [Table.contains, hc, Except.map_eq_ok_iff]
  | some i => simp [Table.contains, hc]

theorem registerAll_cons_eq_ok_iff {p : Text × Partial} :
    d.registerAll x (p :: given) = .ok d' ↔
      ∃ d₁, d.register x p.1 p.2 = .ok d₁ ∧ d₁.registerAll x given = .ok d' := by
  rw [registerAll]
  cases d.register x p.1 p.2 with
  | error e => simp
  | ok d₁ => simp

/-- The entries of a draft are those it had and those of the partials registered. -/
theorem find?_registerAll (h : d.registerAll x given = .ok d') :
    d'.partials.find? k = some i ↔ d.partials.find? k = some i ∨ ∃ p ∈ given, Registers x p k i := by
  induction given generalizing d with
  | nil =>
    obtain rfl := Except.ok.inj h
    simp
  | cons p given ih =>
    obtain ⟨d₁, h₁, h⟩ := registerAll_cons_eq_ok_iff.1 h
    obtain ⟨hnone, t, ht, rfl⟩ := register_eq_ok_iff.1 h₁
    have hp : (d.partials.insert (Template.key x p.1) ⟨.given, t⟩).find? k = some i ↔
        d.partials.find? k = some i ∨ Registers x p k i := by
      rw [Table.find?_insert]
      constructor
      · intro hk
        split at hk
        · next he =>
          subst he
          exact .inr (Option.some.inj hk ▸ .intro ht)
        · exact .inl hk
      · rintro (hk | @⟨u, hu⟩)
        · rw [if_neg, hk]
          rintro rfl
          exact nomatch hnone.symm.trans hk
        · rw [if_pos rfl, Except.ok.inj (ht.symm.trans hu)]
    rw [ih h, hp]
    simp [or_assoc]

/-- Partials can be registered if they can be read and their keys are new and distinct. -/
theorem exists_registerAll_iff : (∃ d', d.registerAll x given = .ok d') ↔
    (given.map fun p => Template.key x p.1).Nodup ∧
      ∀ p ∈ given, d.partials.find? (Template.key x p.1) = none ∧ ∃ t, p.2.template x = .ok t := by
  induction given generalizing d with
  | nil => simp [registerAll]
  | cons p given ih =>
    simp only [registerAll_cons_eq_ok_iff, List.map_cons, List.nodup_cons, List.forall_mem_cons]
    constructor
    · rintro ⟨d', d₁, h₁, h⟩
      obtain ⟨hnone, t, ht, rfl⟩ := register_eq_ok_iff.1 h₁
      obtain ⟨hnodup, hgiven⟩ := ih.1 ⟨d', h⟩
      have hne (q : Text × Partial) (hq : q ∈ given) : Template.key x q.1 ≠ Template.key x p.1 := by
        intro he
        have hnew := (hgiven q hq).1
        rw [Table.find?_insert, if_pos he] at hnew
        cases hnew
      refine ⟨⟨fun hm => ?_, hnodup⟩, ⟨hnone, t, ht⟩, fun q hq => ⟨?_, (hgiven q hq).2⟩⟩
      · obtain ⟨q, hq, he⟩ := List.mem_map.1 hm
        exact hne q hq he
      · rw [← (hgiven q hq).1, Table.find?_insert, if_neg (hne q hq)]
    · rintro ⟨⟨hp, hnodup⟩, ⟨hnone, t, ht⟩, hgiven⟩
      have hnew (q : Text × Partial) (hq : q ∈ given) :
          (d.partials.insert (Template.key x p.1) ⟨.given, t⟩).find? (Template.key x q.1) = none := by
        rw [Table.find?_insert, if_neg, (hgiven q hq).1]
        intro he
        exact hp (List.mem_map.2 ⟨q, hq, he⟩)
      obtain ⟨d', h⟩ := (ih (d := ⟨_, d.helpers, d.owner⟩)).2
        ⟨hnodup, fun q hq => ⟨hnew q hq, (hgiven q hq).2⟩⟩
      exact ⟨d', _, register_eq_ok_iff.2 ⟨hnone, t, ht, rfl⟩, h⟩

/-- The draft has nothing but partials from a list, under their keys. -/
structure MadeOf (x : Expander) (given : List (Text × Partial)) (d : Draft) : Prop where
  sound : d.Sound
  registered : ∀ k i, d.partials.find? k = some i → ∃ p ∈ given, Registers x p k i

namespace MadeOf

theorem of_partials (h : d.MadeOf x given) (he : d'.partials = d.partials) : d'.MadeOf x given :=
  ⟨h.sound.of_partials he, he ▸ h.registered⟩

theorem empty : Draft.empty.MadeOf x given :=
  ⟨.empty, fun _ _ h => nomatch h⟩

theorem origin_eq (h : d.MadeOf x given) (hk : d.partials.find? k = some i) : i.origin = .given := by
  obtain ⟨p, -, hreg⟩ := h.registered k i hk
  cases hreg
  rfl

theorem registerAll (h : d.MadeOf x given)
    (hp : ∀ p ∈ more, ∀ t, p.2.template x = .ok t → ∃ y, t.IsParsed y) (hsub : more ⊆ given)
    (hr : d.registerAll x more = .ok d') : d'.MadeOf x given := by
  refine ⟨h.sound.registerAll hp hr, fun k i hk => ?_⟩
  rcases (find?_registerAll hr).1 hk with hk | ⟨p, hm, hreg⟩
  · exact h.registered k i hk
  · exact ⟨p, hsub hm, hreg⟩

end MadeOf

end Draft

/-! ## Building -/

theorem Registry.exists_addAll_iff {objection : Objection} {g : Registry} {t : Table Template} :
    (∃ g', g.addAll objection t = (g', .ok ())) ↔ ∀ p ∈ t, objection p.2.runtimeSource = none := by
  induction t generalizing g with
  | nil => simp [addAll]
  | cons p t ih =>
    unfold addAll addPartial add
    cases ho : objection p.2.runtimeSource with
    | some reason => simp [ho]
    | none => simp [ho, ih]

/-- A scope can be built of a draft if the runtime takes its partials. -/
theorem Scope.exists_ofDraft_iff {objection : Objection} {d : Draft} :
    (∃ sc, ofDraft objection d = .ok sc) ↔
      ∀ p ∈ d.partials, objection p.2.template.runtimeSource = none := by
  have hadd := @Registry.exists_addAll_iff objection []
    (d.partials.map fun p => (p.1, p.2.template))
  rw [List.forall_mem_map] at hadd
  rw [← hadd]
  unfold ofDraft
  split
  · next g e he => simp [he]
  · next g he => simp [he]

/-! ## What a client gives -/

/-- The partials that a step gives. -/
def Step.given : Step → List (Text × Partial)
  | build _ partials _ _ => partials.filterMap fun p => p.2.partial?.map (p.1, ·)
  | _ => []

/-- The partials given to the engine at the start and in the steps of a run. -/
def givenIn (partials : Table Text) (steps : List Step) : List (Text × Partial) :=
  Partial.ofSources partials ++ steps.flatMap Step.given

theorem Engine.madeOf_draft? {e : Engine} {base : Base} {partials : List (Text × Given)}
    {helpers : Table Helper} {owner : Option Owner} {d : Draft} {given : List (Text × Partial)}
    (hd : e.draft? base partials helpers owner = some d)
    (hscopes : ∀ n sc, e.scope? n = some sc → sc.draft.MadeOf e.expander given)
    (hsub : (Step.build base partials helpers owner).given ⊆ given) : d.MadeOf e.expander given := by
  obtain ⟨d₀, more, d₁, h₀, hmore, h₁, he⟩ := exists_of_draft? hd
  have hbase : d₀.MadeOf e.expander given := by
    cases base with
    | nothing => exact Option.some.inj h₀ ▸ .empty
    | engine => exact Option.some.inj h₀ ▸ Draft.MadeOf.empty.of_partials rfl
    | scope n =>
      obtain ⟨sc, hs, rfl⟩ := Option.map_eq_some_iff.1 h₀
      exact hscopes n sc hs
  have hparsed : ∀ p ∈ more, ∀ t, p.2.template e.expander = .ok t → ∃ y, t.IsParsed y := by
    intro p hp t ht
    obtain ⟨q, -, hq, -⟩ := hmore p hp
    exact Given.isParsed hq ht
  refine (hbase.registerAll hparsed (fun p hp => ?_) h₁).of_partials he
  obtain ⟨q, hq, hg, hname⟩ := hmore p hp
  apply hsub
  refine List.mem_filterMap.2 ⟨q, hq, ?_⟩
  rw [hg, hname]
  rfl

namespace Session

variable {e₀ : Engine} {expander : Expander} {escaper : Escaper} {helpers : Table Helper}
  {objection : Objection} {service : Service} {shelf partials : Table Text} {n : Nat} {sc : Scope}

/-- The partials of a scope were given, and are registered under their keys. -/
theorem madeOf_run
    (h₀ : Engine.start expander escaper helpers objection service shelf partials = .ok e₀)
    (steps : List Step) (hs : ((start e₀).run steps).engine.scope? n = some sc) :
    sc.draft.MadeOf expander (givenIn partials steps) := by
  refine scope_run (P := fun sc => sc.draft.MadeOf expander (givenIn partials steps)) ?_ ?_ ?_ hs
  · intro m main hm
    obtain ⟨d, main', hd, hmain, rfl⟩ := Engine.of_start h₀
    have hmade : d.MadeOf expander (givenIn partials steps) := by
      have hempty : (Draft.empty.withHelpers helpers).MadeOf expander (givenIn partials steps) :=
        Draft.MadeOf.empty.of_partials rfl
      exact hempty.registerAll (fun p hp t ht => Partial.isParsed_of_mem_ofSources hp ht)
        (List.subset_append_left _ _) hd
    cases m with
    | zero => exact Option.some.inj hm ▸ Scope.draft_ofDraft hmain ▸ hmade
    | succ m => exact nomatch hm
  · rintro before a after new rfl hscopes ⟨hd, hnew⟩
    have hx := (config_run h₀ before).1
    rw [Scope.draft_ofDraft hnew, ← hx]
    refine Engine.madeOf_draft? hd ?_ ?_
    · rwa [hx]
    · intro p hp
      refine List.mem_append_right _ (List.mem_flatMap.2 ⟨_, ?_, hp⟩)
      exact List.mem_append_right _ List.mem_cons_self
  · intro s m a old new hnext hold
    exact hnext.draft_eq ▸ hold

/-- The runtime objects to no partial of a scope. -/
theorem objection_partials_run
    (h₀ : Engine.start expander escaper helpers objection service shelf partials = .ok e₀)
    (steps : List Step) (hs : ((start e₀).run steps).engine.scope? n = some sc) {p : Text × Instance}
    (hp : p ∈ sc.partials) : objection p.2.template.runtimeSource = none := by
  refine scope_run_of_ofDraft h₀
    (P := fun sc => ∀ p ∈ sc.partials, objection p.2.template.runtimeSource = none) ?_ ?_ steps hs p hp
  · intro d born hd
    have he : born.partials = d.partials := congrArg Draft.partials (Scope.draft_ofDraft hd)
    rw [he]
    exact Scope.exists_ofDraft_iff.1 ⟨born, hd⟩
  · intro s m a old new hnext hold
    have he : new.partials = old.partials := congrArg Draft.partials hnext.draft_eq
    rwa [he]

end Session

/-! ## Making a scope again -/

/-- What the expander reads of the source of a template. -/
inductive Instance.Reread (x : Expander) (i : Instance) : Instance → Prop
  | intro {t : Template} : Template.parse x i.template.source = .ok t → Reread x i ⟨.given, t⟩

/-- What the expander has read of a source that was given, it reads again. -/
theorem Instance.reread_iff {x : Expander} {i j : Instance} (hi : i.origin = .given)
    (ht : i.template.IsParsed x) : i.Reread x j ↔ j = i := by
  obtain ⟨origin, t⟩ := i
  subst hi
  constructor
  · rintro ⟨hu⟩
    exact congrArg _ (Except.ok.inj (hu.symm.trans ht))
  · rintro rfl
    exact .intro ht

namespace Engine

variable {e e' : Engine} {sc : Scope} {sources : Table Text} {n : Nat}

/-- The scope of named markup is the one of a draft that the partials are registered in. -/
theorem of_createScope (h : e.createScope sources = .ok (n, e')) :
    ∃ d new, e.draft.registerAll e.expander (Partial.ofSources sources) = .ok d ∧
      Scope.ofDraft e.objection d = .ok new ∧ e'.scope? n = some new := by
  obtain ⟨d, hd, h⟩ := Except.bind_eq_ok_iff.1 h
  obtain ⟨new, hnew, he⟩ := Except.map_eq_ok_iff.1 h
  refine ⟨d, new, hd, hnew, ?_⟩
  rw [← (Prod.mk.inj he).1, ← (Prod.mk.inj he).2, scope?_built, if_pos rfl]

theorem exists_createScope_iff : (∃ p, e.createScope sources = .ok p) ↔
    ∃ d new, e.draft.registerAll e.expander (Partial.ofSources sources) = .ok d ∧
      Scope.ofDraft e.objection d = .ok new := by
  constructor
  · rintro ⟨p, h⟩
    obtain ⟨d, new, hd, hnew, -⟩ := of_createScope h
    exact ⟨d, new, hd, hnew⟩
  · rintro ⟨d, new, hd, hnew⟩
    exact ⟨_, Except.bind_eq_ok_iff.2 ⟨d, hd, Except.map_eq_ok_iff.2 ⟨new, hnew, rfl⟩⟩⟩

theorem sound_of_sources {d : Draft}
    (h : e.draft.registerAll e.expander (Partial.ofSources sources) = .ok d) : d.Sound :=
  (Draft.Sound.empty.withHelpers e.helpers).registerAll
    (fun _ hp _ ht => Partial.isParsed_of_mem_ofSources hp ht) h

/-- The sources of a scope make a draft of its partials under the keys of their keys, each as it is read
anew. -/
theorem find?_of_sources (hsort : sc.partials.Sorted) {d : Draft}
    (h : e.draft.registerAll e.expander (Partial.ofSources sc.sources) = .ok d)
    (k : Text) (j : Instance) : d.partials.find? k = some j ↔
      ∃ k' i, Template.key e.expander k' = k ∧ sc.partials.find? k' = some i ∧ i.Reread e.expander j := by
  have hnone : e.draft.partials.find? k = none := rfl
  rw [Draft.find?_registerAll h, hnone]
  constructor
  · rintro (hk | ⟨p, hp, hreg⟩)
    · exact nomatch hk
    · obtain ⟨k', i, hi, rfl⟩ := (Partial.mem_ofSources_sources_iff hsort).1 hp
      obtain ⟨ht⟩ := hreg
      exact ⟨k', i, rfl, hi, .intro (Except.mapError_eq_ok_iff.1 ht)⟩
  · rintro ⟨k', i, rfl, hi, ⟨ht⟩⟩
    exact .inr ⟨_, (Partial.mem_ofSources_sources_iff hsort).2 ⟨k', i, hi, rfl⟩,
      .intro (Except.mapError_eq_ok_iff.2 ht)⟩

/-- Every source can be read, so nothing but the keys can be in the way of the draft. -/
theorem exists_draft_of_sources_iff (hsound : sc.draft.Sound) :
    (∃ d, e.draft.registerAll e.expander (Partial.ofSources sc.sources) = .ok d) ↔
      ∀ k ∈ sc.partials.keys, ∀ k' ∈ sc.partials.keys,
        Template.key e.expander k = Template.key e.expander k' → k = k' := by
  have hsort : sc.partials.Sorted := hsound.sorted
  have hkeys : (Partial.ofSources sc.sources).map (fun p => Template.key e.expander p.1) =
      sc.partials.keys.map (Template.key e.expander) := by
    simp [Partial.ofSources, Scope.sources, Table.keys, Function.comp_def]
  rw [Draft.exists_registerAll_iff, hkeys, List.nodup_map_iff_inj_on (Table.nodup_keys hsort)]
  refine and_iff_left fun p hp => ⟨rfl, ?_⟩
  obtain ⟨k, i, hi, rfl⟩ := (Partial.mem_ofSources_sources_iff hsort).1 hp
  obtain ⟨x, hx⟩ := hsound.parsed k i hi
  obtain ⟨t, ht⟩ := Template.parse_of_parse hx e.expander
  exact ⟨t, Except.mapError_eq_ok_iff.2 ht⟩

/-- A scope can be made again if no two of its keys have one key, and the runtime takes the partials as they
are read anew. -/
theorem exists_recreate_iff (hsound : sc.draft.Sound) : (∃ p, e.createScope sc.sources = .ok p) ↔
    (∀ k ∈ sc.partials.keys, ∀ k' ∈ sc.partials.keys,
      Template.key e.expander k = Template.key e.expander k' → k = k') ∧
    ∀ k i j, sc.partials.find? k = some i → i.Reread e.expander j →
      e.objection j.template.runtimeSource = none := by
  have hfind {d : Draft} (hd : e.draft.registerAll e.expander (Partial.ofSources sc.sources) = .ok d) :=
    find?_of_sources hsound.sorted hd
  rw [exists_createScope_iff, ← exists_draft_of_sources_iff hsound]
  constructor
  · rintro ⟨d, copy, hd, hcopy⟩
    refine ⟨⟨d, hd⟩, fun k i j hk hj => ?_⟩
    have hnew := (hfind hd (Template.key e.expander k) j).2 ⟨k, i, rfl, hk, hj⟩
    exact Scope.exists_ofDraft_iff.1 ⟨copy, hcopy⟩ _ (Table.mem_of_find? hnew)
  · rintro ⟨⟨d, hd⟩, hobj⟩
    have hpartials : ∀ p ∈ d.partials, e.objection p.2.template.runtimeSource = none := by
      intro ⟨k, j⟩ hj
      have hnew := (Table.mem_iff_find? (sound_of_sources hd).sorted).1 hj
      obtain ⟨k', i, -, hi, hread⟩ := (hfind hd k j).1 hnew
      exact hobj k' i j hi hread
    obtain ⟨copy, hcopy⟩ := Scope.exists_ofDraft_iff.2 hpartials
    exact ⟨d, copy, hd, hcopy⟩

theorem find?_recreate (hsort : sc.partials.Sorted) (h : e.createScope sc.sources = .ok (n, e')) :
    ∃ copy, e'.scope? n = some copy ∧ copy.partials.Sorted ∧ ∀ k j, copy.partials.find? k = some j ↔
      ∃ k' i, Template.key e.expander k' = k ∧ sc.partials.find? k' = some i ∧ i.Reread e.expander j := by
  obtain ⟨d, copy, hd, hcopy, hs⟩ := of_createScope h
  have hparts : copy.partials = d.partials := congrArg Draft.partials (Scope.draft_ofDraft hcopy)
  refine ⟨copy, hs, ?_⟩
  rw [hparts]
  exact ⟨(sound_of_sources hd).sorted, find?_of_sources hsort hd⟩

/-- If all keys are their own keys and all templates are read again as they are, so is the scope. -/
theorem partials_recreate (hsound : sc.draft.Sound)
    (hobj : ∀ p ∈ sc.partials, e.objection p.2.template.runtimeSource = none)
    (hkey : ∀ k i, sc.partials.find? k = some i → Template.key e.expander k = k)
    (hread : ∀ k i j, sc.partials.find? k = some i → (i.Reread e.expander j ↔ j = i)) :
    ∃ m e' copy, e.createScope sc.sources = .ok (m, e') ∧ e'.scope? m = some copy ∧
      copy.partials = sc.partials := by
  have hexists : ∃ p, e.createScope sc.sources = .ok p := by
    rw [exists_recreate_iff hsound]
    constructor
    · intro k hk k' hk' he
      obtain ⟨i, hi⟩ := Table.mem_keys_iff.1 hk
      obtain ⟨i', hi'⟩ := Table.mem_keys_iff.1 hk'
      rwa [hkey k i hi, hkey k' i' hi'] at he
    · intro k i j hk hj
      obtain rfl := (hread k i j hk).1 hj
      exact hobj _ (Table.mem_of_find? hk)
  obtain ⟨⟨m, e'⟩, h⟩ := hexists
  obtain ⟨copy, hcopy, hsorted, hfind⟩ := find?_recreate hsound.sorted h
  refine ⟨m, e', copy, h, hcopy, ?_⟩
  apply Table.ext_of_sorted hsorted hsound.sorted
  intro k
  ext j
  rw [hfind]
  constructor
  · rintro ⟨k', i, rfl, hk, hj⟩
    obtain rfl := (hread k' i j hk).1 hj
    rwa [hkey k' _ hk]
  · intro hk
    exact ⟨k, j, hkey k j hk, hk, (hread k j j hk).2 rfl⟩

end Engine

namespace Session

/-- What making a scope again from the sources of its partials comes to; `given` are the partials that
clients have given. -/
structure Recreates (ns : Namespaces) (e : Engine) (sc : Scope) (given : List (Text × Partial)) : Prop where
  /-- The copy is made if no two keys have one key; the runtime can object only to a template that was read
  with another expander. -/
  made_iff : (∃ p, e.createScope sc.sources = .ok p) ↔
    (∀ k ∈ sc.partials.keys, ∀ k' ∈ sc.partials.keys,
      Template.key (.namespaces ns) k = Template.key (.namespaces ns) k' → k = k') ∧
    ∀ k i j, sc.partials.find? k = some i → i.Reread (.namespaces ns) j →
      ¬ i.template.IsParsed (.namespaces ns) → e.objection j.template.runtimeSource = none
  /-- The copy has the partials under the keys of their keys. -/
  moved : ∀ m e', e.createScope sc.sources = .ok (m, e') →
    ∃ copy, e'.scope? m = some copy ∧ ∀ k j, copy.partials.find? k = some j ↔
      ∃ k' i, Template.key (.namespaces ns) k' = k ∧ sc.partials.find? k' = some i ∧
        i.Reread (.namespaces ns) j
  /-- The copy is made and has the same partials if all keys are their own keys, and no template was read with
  another expander. -/
  same : (∀ k i, sc.partials.find? k = some i →
      Template.key (.namespaces ns) k = k ∧ i.template.IsParsed (.namespaces ns)) →
    ∃ m e' copy, e.createScope sc.sources = .ok (m, e') ∧ e'.scope? m = some copy ∧
      copy.partials = sc.partials
  /-- That is so if the namespaces are full identifiers and no name that was given has anything in angle
  brackets that is not full. -/
  settled : (∀ base ∈ ns.bases, ns.IsAbsolute base) →
    (∀ p ∈ given, ns.BracketsFull p.1 ∧ p.2.ReadBy (.namespaces ns)) →
    ∀ k i, sc.partials.find? k = some i →
      Template.key (.namespaces ns) k = k ∧ i.template.IsParsed (.namespaces ns)

variable {ns : Namespaces} {e₀ : Engine} {escaper : Escaper} {helpers : Table Helper}
  {objection : Objection} {service : Service} {shelf partials : Table Text} {n : Nat} {sc : Scope}

/-- What any run makes of a scope, the engine makes again as far as expansion is the identity on its keys. -/
theorem recreated_run
    (h₀ : Engine.start (.namespaces ns) escaper helpers objection service shelf partials = .ok e₀)
    (steps : List Step) (hs : ((start e₀).run steps).engine.scope? n = some sc) :
    Recreates ns ((start e₀).run steps).engine sc (givenIn partials steps) := by
  have hmade := madeOf_run h₀ steps hs
  have hobj {p : Text × Instance} (hp : p ∈ sc.partials) := objection_partials_run h₀ steps hs hp
  have hsort : sc.partials.Sorted := hmade.sound.sorted
  obtain ⟨hx, ho⟩ := config_run h₀ steps
  generalize ((start e₀).run steps).engine = e at hx ho ⊢
  -- a template that was read with the expander of the engine is read again as it is
  have hsame {k : Text} {i j : Instance} (hk : sc.partials.find? k = some i)
      (hp : i.template.IsParsed (.namespaces ns)) : i.Reread (.namespaces ns) j ↔ j = i :=
    Instance.reread_iff (hmade.origin_eq hk) hp
  constructor
  · rw [Engine.exists_recreate_iff hmade.sound, hx, ho]
    refine and_congr_right fun _ => ⟨fun h k i j hk hj _ => h k i j hk hj, fun h k i j hk hj => ?_⟩
    by_cases hp : i.template.IsParsed (.namespaces ns)
    · obtain rfl := (hsame hk hp).1 hj
      exact hobj (Table.mem_of_find? hk)
    · exact h k i j hk hj hp
  · intro m e' h
    obtain ⟨copy, hcopy, -, hfind⟩ := Engine.find?_recreate hsort h
    exact ⟨copy, hcopy, hx ▸ hfind⟩
  · intro hkey
    refine Engine.partials_recreate hmade.sound ?_ ?_ ?_
    · intro p hp
      rw [ho]
      exact hobj hp
    · intro k i hk
      rw [hx]
      exact (hkey k i hk).1
    · intro k i j hk
      rw [hx]
      exact hsame hk (hkey k i hk).2
  · intro hns hgiven k i hk
    obtain ⟨p, hp, ⟨ht⟩⟩ := hmade.registered k i hk
    exact ⟨Template.key_key hns (hgiven p hp).1, (hgiven p hp).2.isParsed ht⟩

/-- An engine with one prefix and no partials. -/
def prefixNamespaces : Namespaces :=
  ⟨[("ex".toList, "http://example.org/".toList)], none⟩

def prefixEngine : Engine where
  expander := .namespaces prefixNamespaces
  escaper := .default
  helpers := []
  objection := fun _ => none
  content := ⟨.memory, [], []⟩
  fetches := .empty
  main := ⟨[], [], none, [], [], 0⟩
  others := []

theorem start_prefixEngine : Engine.start (.namespaces prefixNamespaces) .default [] (fun _ => none)
    .memory [] [] = .ok prefixEngine := rfl

/-- A scope is built of partials with these names. -/
def namedSteps (names : List Text) : List Step :=
  [.build .engine (names.map fun name => (name, .markup ['x'])) [] none]

/-- A compact, a bracketed and a local name. -/
def fullNames : List Text :=
  ["ex:a".toList, "<http://example.org/b>".toList, "c".toList]

theorem recreated_run_named :
    ∃ sc, ((start prefixEngine).run (namedSteps fullNames)).engine.scope? 1 = some sc ∧
      sc.partials.keys = ["c".toList, "http://example.org/a".toList, "http://example.org/b".toList] ∧
      Recreates prefixNamespaces ((start prefixEngine).run (namedSteps fullNames)).engine sc
        (givenIn [] (namedSteps fullNames)) ∧
      ∃ m e' copy,
        ((start prefixEngine).run (namedSteps fullNames)).engine.createScope sc.sources = .ok (m, e') ∧
        e'.scope? m = some copy ∧ copy.partials = sc.partials := by
  have hbuilt : (((start prefixEngine).run (namedSteps fullNames)).engine.scope? 1).map
      (fun sc => sc.partials.keys) =
      some ["c".toList, "http://example.org/a".toList, "http://example.org/b".toList] := by
    decide +kernel
  obtain ⟨sc, hs, hkeys⟩ := Option.map_eq_some_iff.1 hbuilt
  have h := recreated_run start_prefixEngine (namedSteps fullNames) hs
  have hbase : ∀ base ∈ prefixNamespaces.bases, prefixNamespaces.IsAbsolute base := by
    intro base hb
    obtain rfl := List.mem_singleton.1 hb
    exact ⟨⟨'h', rfl, by decide, by decide⟩, ⟨'/', rfl, by decide⟩, .inl (by decide)⟩
  have hnames : ∀ name ∈ fullNames, prefixNamespaces.BracketsFull name := by
    intro name hn inner hi
    simp only [fullNames, List.mem_cons, List.not_mem_nil, or_false] at hn
    obtain rfl | rfl | rfl := hn
    · exact nomatch hi
    · obtain rfl := Option.some.inj hi
      decide
    · exact nomatch hi
  have hgiven : ∀ p ∈ givenIn [] (namedSteps fullNames),
      prefixNamespaces.BracketsFull p.1 ∧ p.2.ReadBy (.namespaces prefixNamespaces) := by
    intro p hp
    have hp : p ∈ fullNames.map fun name => (name, Partial.markup ['x']) := hp
    obtain ⟨name, hn, rfl⟩ := List.mem_map.1 hp
    exact ⟨hnames name hn, .markup ['x']⟩
  exact ⟨sc, hs, hkeys, h, h.same (h.settled hbase hgiven)⟩

/-- The sources of the scope that was built, and of its copy. -/
def copied (s : Session) : Option (Table Text × Except TemplateError (Table Text)) :=
  (s.engine.scope? 1).map fun sc => (sc.sources,
    (s.engine.createScope sc.sources).map fun p => ((p.2.scope? p.1).map Scope.sources).getD [])

/-- What is in angle brackets is a key as it is, and expands when the scope is made again: the partial gets
another name then, or the copy is not made because the name is taken. -/
theorem not_recreated :
    copied ((start prefixEngine).run (namedSteps ["<ex:a>".toList])) =
      some ([("ex:a".toList, ['x'])], .ok [("http://example.org/a".toList, ['x'])]) ∧
    copied ((start prefixEngine).run (namedSteps ["<ex:a>".toList, "ex:a".toList])) =
      some ([("ex:a".toList, ['x']), ("http://example.org/a".toList, ['x'])],
        .error (.duplicatePartial "http://example.org/a".toList)) := by
  constructor
  · decide +kernel
  · decide +kernel

end Session

end Stencil
