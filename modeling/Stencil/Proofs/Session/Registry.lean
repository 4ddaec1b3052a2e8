import Mathlib
import Stencil.Proofs.Resolution.Closure
import Stencil.Proofs.Session.Sound
/-!
What a compilation registers.

`compile_registers`: after a compilation that succeeds, whatever the root and its dependencies invoke is
registered under the name by which the runtime calls it, and the partials of the scope are what they were
when it was built.
-/

namespace Stencil

/-- What the tree of a template invokes by a name that it does not bind is registered under the key of
the name: the partial of the scope, or else the dependency. -/
structure Scope.Answers (s : Scope) (deps : Table Instance) (t : Template) : Prop where
  parsed : ∃ x, t.IsParsed x
  registered : ∀ x, t.IsParsed x → ∀ p ∈ Node.invokedNames t.nodes, ∀ name, p.fixed? = some name →
    Reference.isMeta name = false → name ∉ Node.declaredNames t.nodes →
    ∃ i, (s.partials.find? (Template.key x name)).or (deps.find? (Template.key x name)) = some i ∧
      s.registry.find? (Alias.ofReference (Template.key x name)) =
        some ⟨i.template.runtimeSource, false⟩

namespace Engine

variable {e e' : Engine} {objection : Objection} {s : Scope} {root : Template} {deps : Table Instance}

theorem sorted_of_resolve (h : (e.resolve s root).1 = .ok deps) : deps.Sorted := by
  obtain ⟨-, rfl⟩ := Resolution.result_eq_ok_iff.1 h
  exact Roster.sorted_settled Resolution.sorted_run

/-- A resolution that succeeds has what its root and its templates refer to. -/
theorem find?_of_resolve (h : (e.resolve s root).1 = .ok deps) {i : Instance} {k : Text}
    (hi : i = ⟨.given, root⟩ ∨ ∃ r, (r, i) ∈ deps) (hk : k ∈ i.references) :
    ∃ j, deps.find? k = some j := by
  have hsort := sorted_of_resolve h
  obtain ⟨hok, rfl⟩ := Resolution.result_eq_ok_iff.1 h
  have hreach : Resolution.Reachable Instance.references (e.loader s).answer ⟨.given, root⟩ k := by
    rcases hi with rfl | ⟨r, hr⟩
    · exact .direct hk
    · obtain ⟨hr, ha⟩ := (Resolution.find?_settled_run hok r i).1 ((Table.mem_iff_find? hsort).1 hr)
      exact .through hr ha hk
  obtain ⟨j, hj⟩ := Resolution.failure_eq_none_iff.1 hok k hreach
  exact ⟨j, (Resolution.find?_settled_run hok k j).2 ⟨hreach, hj⟩⟩

/-- The dependencies that a resolution finds are parsed templates. -/
theorem Sound.parsed_of_resolve (h : e.Sound objection) (hs : s.Sound objection)
    (hd : (e.resolve s root).1 = .ok deps) {k : Text} {i : Instance} (hi : (k, i) ∈ deps) :
    ∃ x, i.template.IsParsed x := by
  have hsort := sorted_of_resolve hd
  obtain ⟨hok, rfl⟩ := Resolution.result_eq_ok_iff.1 hd
  have ha := ((Resolution.find?_settled_run hok k i).1 ((Table.mem_iff_find? hsort).1 hi)).2
  simp only [loader] at ha
  split at ha
  · next p hp =>
    rw [← Except.ok.inj ha]
    exact hs.draft.parsed k p hp
  · split at ha
    · exact (h.request k).parsed_of_await ha
    · cases ha

/-- After a compilation that succeeds the scope answers its root and its dependencies. -/
theorem answers_of_install {c : Compiled} (hs : s.Sound objection)
    (hd : (e.resolve s root).1 = .ok deps)
    (hi : (s.install objection root deps).1 = .ok c)
    (ha : Alias.Apart (s.partials.keys ++ deps.keys) [root.source]) {i : Instance}
    (hm : i = ⟨.given, root⟩ ∨ ∃ k, (k, i) ∈ deps) (hp : ∃ x, i.template.IsParsed x) :
    (s.install objection root deps).2.Answers deps i.template := by
  have hdraft : (s.install objection root deps).2.partials = s.partials :=
    congrArg Draft.partials (Scope.draft_install objection s root deps)
  refine ⟨hp, fun x hx p hinv name hname hmeta hdecl => ?_⟩
  have href : Template.key x name ∈ i.references := by
    rw [Instance.references, hx.references_eq]
    exact Template.key_mem_dependencyKeys x hinv hname hmeta hdecl
  obtain ⟨j, hj⟩ := find?_of_resolve hd hm href
  rw [hdraft]
  cases hown : s.partials.find? (Template.key x name) with
  | some q =>
    refine ⟨q, rfl, ?_⟩
    exact (hs.kept.install ha).find? (hdraft ▸ hown)
  | none =>
    refine ⟨j, hj, ?_⟩
    refine Scope.find?_install (Prod.ext hi rfl) (Table.nodup_keys (sorted_of_resolve hd))
      (ha.mono (List.subset_append_right _ _) (List.Subset.refl _)) hj ?_
    rw [Table.contains, hown]
    rfl

theorem Sound.answers_of_compile (h : e.Sound objection) {n : Nat} {source : Text}
    {c : Option Compiled} (hs : e.scope? n = some s) (hf : isFresh s source = true)
    (hc : e.compile n source = some (.ok c, e'))
    (ha : Alias.Apart (e.partialKeys ++ e.met n source e.resolve) [source]) :
    ∃ root deps s', e.parse source = .ok root ∧ (e.resolve s root).1 = .ok deps ∧
      e'.scope? n = some s' ∧ s'.draft = s.draft ∧ s'.Answers deps root ∧
      ∀ k i, (k, i) ∈ deps → s'.Answers deps i.template := by
  obtain ⟨s₁, hs₁, hc⟩ := compiles_of_compileBy hc
  obtain rfl := Option.some.inj (hs.symm.trans hs₁)
  generalize ho : (Except.ok c : Compilation) = o at hc
  cases hc with
  | stale hf' => exact nomatch hf.symm.trans hf'
  | unreadable _ _ => exact nomatch ho
  | unresolved _ _ _ => exact nomatch ho
  | @installed root deps _ hp hd =>
    obtain ⟨c', hi, -⟩ := Except.map_eq_ok_iff.1 ho.symm
    have hobj := (h.resolve s root).objection_eq
    rw [hobj] at hi
    rw [met_eq hs hf hp hd, ← source_of_parse hp] at ha
    have hapart : Alias.Apart (s.partials.keys ++ deps.keys) [root.source] :=
      ha.mono (List.append_subset.2 ⟨List.subset_append_of_subset_left _ (keys_subset_partialKeys hs),
        List.subset_append_right _ _⟩) (List.Subset.refl _)
    have hall : ∀ i : Instance, (i = ⟨.given, root⟩ ∨ ∃ k, (k, i) ∈ deps) →
        (∃ x, i.template.IsParsed x) → (s.install objection root deps).2.Answers deps i.template :=
      fun i => answers_of_install (h.scopes n s hs) hd hi hapart
    refine ⟨root, deps, (s.install objection root deps).2, hp, hd, ?_, Scope.draft_install _ _ _ _,
      hall ⟨.given, root⟩ (.inl rfl) ⟨_, isParsed_of_parse hp⟩, fun k i hm => ?_⟩
    · rw [hobj, scope?_setScope, if_pos rfl]
      rw [snd_resolve, scope?_fetchAll, hs]
      rfl
    · exact hall i (.inr ⟨k, hm⟩) (h.parsed_of_resolve (h.scopes n s hs) hd hm)

end Engine

namespace Session

variable {e₀ : Engine} {expander : Expander} {escaper : Escaper} {helpers : Table Helper}
  {objection : Objection} {service : Service} {shelf partials : Table Text} {steps : List Step}

/-- In a run whose names do not collide, every scope keeps what building it registered, from whatever
moment on; and when the run ends with the compilation of a source that is new to its scope, and it
succeeds, the scope answers the root and all templates that it depends on. -/
theorem compile_registers
    (h₀ : Engine.start expander escaper helpers objection service shelf partials = .ok e₀)
    (ha : Alias.Apart ((start e₀).metAll steps) (steps.filterMap Step.compiled?)) :
    (∀ before after n sc, steps = before ++ after →
      ((start e₀).run before).engine.scope? n = some sc →
      ∃ sc', ((start e₀).run steps).engine.scope? n = some sc' ∧ sc'.draft = sc.draft ∧
        sc'.KeepsPartials objection) ∧
    ∀ before n source sc c e', steps = before ++ [.compile n source] →
      ((start e₀).run before).engine.scope? n = some sc → source ≠ [] →
      sc.compiled.find? source = none →
      ((start e₀).run before).engine.compile n source = some (.ok c, e') →
      ∃ root deps sc', ((start e₀).run before).engine.parse source = .ok root ∧
        (((start e₀).run before).engine.resolve sc root).1 = .ok deps ∧
        e'.scope? n = some sc' ∧ sc'.draft = sc.draft ∧
        sc'.Answers deps root ∧ ∀ k i, (k, i) ∈ deps → sc'.Answers deps i.template := by
  have hstart : (start e₀).engine.Sound objection :=
    .start h₀ (ha.mono (partialKeys_subset_metAll (start e₀) steps) (List.nil_subset _))
  constructor
  · rintro before after n sc rfl hs
    obtain ⟨sc', hs', hd⟩ := sameDrafts_run ((start e₀).run before) after n sc hs
    rw [← run_append] at hs'
    exact ⟨sc', hs', hd, ((sound_run hstart _ ha).scopes n sc' hs').kept⟩
  rintro before n source sc c e' rfl hs hne hnew hc
  rw [List.filterMap_append] at ha
  have hbefore : ((start e₀).run before).engine.Sound objection :=
    sound_run hstart before
      (ha.mono (metAll_append_left _ _ _) (List.subset_append_left _ _))
  -- the names of this compilation do not collide
  have hlast := ha.mono (metAll_append_right (start e₀) before [.compile n source])
    (List.subset_append_right _ _)
  refine hbefore.answers_of_compile hs ?_ hc (hlast.mono (List.subset_append_left _ _)
    (List.Subset.refl _))
  rw [Engine.isFresh, Table.contains, hnew]
  cases source with
  | nil => exact absurd rfl hne
  | cons _ _ => rfl

/-! ### A compilation that fetches -/

/-- The partial of the scope. -/
def ownPartial : Instance :=
  ⟨.given, ⟨['y'], [.text ['y']], [], ['y']⟩⟩

/-- What fetching `a:` comes to. -/
def fetchedPartial : Instance :=
  ⟨.fetched ⟨['a', ':'], 0, 0⟩,
    ⟨"{{>p}}".toList, [.invocation (.fixed ⟨3, ['p']⟩) []], [['p']], "{{>p}}".toList⟩⟩

def smallRoot : Template :=
  ⟨"{{>a:}}".toList, [.invocation (.fixed ⟨3, ['a', ':']⟩) []], [['a', ':']],
    open2 ++ '>' :: Alias.ofReference ['a', ':'] ++ close2⟩

/-- An engine with one partial, and markup that invokes it. -/
def smallEngine : Engine where
  expander := .identity
  escaper := .default
  helpers := []
  objection := fun _ => none
  content := ⟨.memory, [(['a', ':'], "{{>p}}".toList)], []⟩
  fetches := .empty
  main := ⟨[(['p'], ownPartial)], [], none, [(['p'], ⟨['y'], false⟩)], [], 0⟩
  others := []

theorem start_smallEngine : Engine.start .identity .default [] (fun _ => none) .memory
    [(['a', ':'], "{{>p}}".toList)] [(['p'], ['y'])] = .ok smallEngine := by cbv

theorem parse_smallRoot : smallEngine.parse "{{>a:}}".toList = .ok smallRoot := by cbv

theorem peek_small : smallEngine.peek ['a', ':'] = .ok fetchedPartial := by cbv

/-- What resolving the root has settled in the end. -/
def smallRoster : Roster Instance :=
  ⟨[(['a', ':'], .settled fetchedPartial), (['p'], .settled ownPartial)]⟩

theorem resolve_smallRoot : smallEngine.resolve smallEngine.main smallRoot =
    (.ok smallRoster.settled, (smallEngine.fetch ['a', ':']).2) := by
  have ha : (smallEngine.loader smallEngine.main).answer ['a', ':'] = .ok fetchedPartial := peek_small
  have hlast : Resolution.Ends Instance.references (smallEngine.loader smallEngine.main).answer
      smallRoster [⟨[['p'], ['a', ':']], ownPartial⟩] ⟨smallRoster, [], none⟩ := .still rfl
  have hnext : Resolution.Ends Instance.references (smallEngine.loader smallEngine.main).answer
      ⟨[(['a', ':'], .settled fetchedPartial)]⟩ [⟨[['a', ':']], fetchedPartial⟩]
      ⟨smallRoster, [['p']], none⟩ := .further (by decide) rfl hlast
  have hfirst : Resolution.settleLevel (smallEngine.loader smallEngine.main).answer
      ⟨[(['a', ':'], .awaited)]⟩ [⟨['a', ':'], []⟩] =
        (⟨[(['a', ':'], .settled fetchedPartial)]⟩, .ok [⟨[['a', ':']], fetchedPartial⟩]) := by
    rw [Resolution.settleLevel, ha]
    rfl
  have hall : Resolution.Ends Instance.references (smallEngine.loader smallEngine.main).answer
      .empty [⟨[], ⟨.given, smallRoot⟩⟩] ⟨smallRoster, [['a', ':'], ['p']], none⟩ :=
    .further (by decide) hfirst hnext
  have hrun : smallEngine.resolution smallEngine.main smallRoot =
      ⟨smallRoster, [['a', ':'], ['p']], none⟩ := ((Resolution.ends_iff _).1 hall).symm
  change ((smallEngine.resolution _ _).result, smallEngine.loaded _ (smallEngine.resolution _ _).loads) = _
  rw [hrun]
  rfl

/-- The engine after the root has been compiled. -/
def smallAfter : Engine :=
  (smallEngine.fetch ['a', ':']).2.setScope 0
    (smallEngine.main.install (fun _ => none) smallRoot smallRoster.settled).2

theorem compile_smallRoot : smallEngine.compile 0 "{{>a:}}".toList =
    some (.ok (some ⟨Alias.ofRoot "{{>a:}}".toList, 0⟩), smallAfter) := by
  change some (smallEngine.compileNew 0 smallEngine.main _ (smallEngine.resolve smallEngine.main)) = _
  rw [Engine.compileNew, parse_smallRoot]
  simp only
  rw [resolve_smallRoot]
  rfl

theorem step_smallEngine :
    ((start smallEngine).step (.compile 0 "{{>a:}}".toList)).engine = smallAfter := by
  simp only [step, start, compile_smallRoot]
  rfl

theorem metAll_smallEngine :
    (start smallEngine).metAll [.compile 0 "{{>a:}}".toList] = [['p'], ['a', ':'], ['p'], ['p']] := by
  have hm : smallEngine.met 0 "{{>a:}}".toList smallEngine.resolve = [['a', ':'], ['p']] := by
    rw [Engine.met_eq rfl rfl parse_smallRoot (congrArg Prod.fst resolve_smallRoot)]
    rfl
  change [['p']] ++ smallEngine.met 0 _ smallEngine.resolve ++
    (Session.step (start smallEngine) _).engine.partialKeys = _
  rw [hm, step_smallEngine]
  rfl

theorem apart_smallEngine : Alias.Apart [['p'], ['a', ':'], ['p'], ['p']] ["{{>a:}}".toList] := by
  constructor
  · decide +kernel
  · decide +kernel

theorem compile_registers_fetched : ∃ sc, smallAfter.scope? 0 = some sc ∧
    sc.KeepsPartials (fun _ => none) ∧ sc.Answers smallRoster.settled smallRoot ∧
    sc.Answers smallRoster.settled fetchedPartial.template := by
  have ha : Alias.Apart ((start smallEngine).metAll [.compile 0 "{{>a:}}".toList])
      (List.filterMap Step.compiled? [.compile 0 "{{>a:}}".toList]) :=
    metAll_smallEngine ▸ apart_smallEngine
  obtain ⟨hk, hc⟩ := compile_registers start_smallEngine ha
  obtain ⟨root, deps, sc, hp, hd, hs, -, hr, hall⟩ :=
    hc [] 0 _ smallEngine.main _ smallAfter rfl rfl (List.cons_ne_nil _ _) rfl compile_smallRoot
  obtain rfl := Except.ok.inj (hp.symm.trans parse_smallRoot)
  obtain rfl := Except.ok.inj (hd.symm.trans (congrArg Prod.fst resolve_smallRoot))
  have he : ((start smallEngine).run [.compile 0 "{{>a:}}".toList]).engine = smallAfter :=
    step_smallEngine
  obtain ⟨sc', hs', -, hkept⟩ := hk [] _ 0 smallEngine.main rfl rfl
  rw [he, hs] at hs'
  obtain rfl := Option.some.inj hs'
  exact ⟨sc, hs, hkept, hr, hall ['a', ':'] fetchedPartial List.mem_cons_self⟩

end Session

end Stencil
