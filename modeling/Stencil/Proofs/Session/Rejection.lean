import Stencil.Proofs.Session.Snapshot
/-!
What a compilation leaves behind when it fails.

A failed compilation keeps nothing on record, and touches neither the partials of its scope nor any other
scope.  With the partials alone it leaves the engine as it was.  What it does not take back are
registrations: dependencies are registered one after the other in the order of their keys, and if the
runtime objects to one of them, or to the root after all of them, those before it stay (`compile_error`).
-/

namespace Stencil

namespace Registry

variable {objection : Objection} {g g' : Registry}

/-- A registration that ends at a failure has registered all templates before the one that the runtime
objects to. -/
theorem addAll_error {t : Table Template} {err : TemplateError}
    (h : g.addAll objection t = (g', .error err)) :
    ∃ before r v after reason, t = before ++ (r, v) :: after ∧
      g.addAll objection before = (g', .ok ()) ∧ objection v.runtimeSource = some reason ∧
      err = .compile r reason := by
  induction t generalizing g with
  | nil => exact nomatch (Prod.mk.inj h).2
  | cons p t ih =>
    obtain ⟨r, v⟩ := p
    unfold addAll at h
    split at h
    · next e he =>
      obtain ⟨rfl, he'⟩ := Prod.mk.inj h
      obtain rfl := Except.error.inj he'
      unfold addPartial add at he
      split at he
      · next reason ho => exact ⟨[], r, v, t, reason, rfl, rfl, ho, (Except.error.inj he).symm⟩
      · exact nomatch he
    · next g₁ hp =>
      obtain ⟨before, s, u, after, reason, rfl, hb, ho, he⟩ := ih h
      refine ⟨(r, v) :: before, s, u, after, reason, rfl, ?_, ho, he⟩
      rw [addAll, hp]
      exact hb

/-- After templates are registered, all or some of them, an entry is what it was or that of one of them. -/
theorem find?_addAll_or (objection : Objection) (g : Registry) (t : Table Template) (m : Text) :
    (g.addAll objection t).1.find? m = g.find? m ∨
      ∃ k v, (k, v) ∈ t ∧ m = Alias.ofReference k ∧
        (g.addAll objection t).1.find? m = some ⟨v.runtimeSource, false⟩ := by
  induction t generalizing g with
  | nil => exact .inl rfl
  | cons p t ih =>
    unfold addAll
    split
    · exact .inl rfl
    · next g₁ ha =>
      rcases ih g₁ with he | ⟨k, v, hk, hm, he⟩
      · rw [he, find?_add ha]
        split
        · next hm => exact .inr ⟨p.1, p.2, List.mem_cons_self, hm, rfl⟩
        · exact .inl rfl
      · exact .inr ⟨k, v, List.mem_cons_of_mem _ hk, hm, he⟩

end Registry

namespace Scope

variable {sc : Scope} {deps : Table Instance}

theorem mem_foreign {k : Text} {t : Template} (h : (k, t) ∈ sc.foreign deps) :
    ∃ i, (k, i) ∈ deps ∧ i.template = t ∧ sc.partials.contains k = false := by
  obtain ⟨⟨k', i⟩, hi, he⟩ := List.mem_map.1 h
  obtain ⟨rfl, rfl⟩ := Prod.mk.inj he
  obtain ⟨hi, hk⟩ := List.mem_filter.1 hi
  exact ⟨i, hi, rfl, Bool.not_eq_true' _ ▸ hk⟩

/-- Nothing is foreign among the partials of a scope. -/
theorem foreign_eq_nil (h : ∀ k i, (k, i) ∈ deps → sc.partials.find? k = some i) :
    sc.foreign deps = [] := by
  rw [List.eq_nil_iff_forall_not_mem]
  rintro ⟨k, t⟩ hm
  obtain ⟨i, hi, -, hk⟩ := mem_foreign hm
  rw [Table.contains, h k i hi] at hk
  simp at hk

end Scope

namespace Engine

variable {e e' : Engine} {n : Nat} {sc : Scope} {source : Text} {err : TemplateError}

/-- Ways in which a compilation that is not a look-up fails, each with the registry that it leaves. -/
inductive Rejects (e : Engine) (sc : Scope) (source : Text) : TemplateError → Registry → Prop
  | unreadable {err : TemplateError} : e.parse source = .error err →
      Rejects e sc source err sc.registry
  | unresolved {root : Template} {err : TemplateError} : e.parse source = .ok root →
      (e.resolve sc root).1 = .error err → Rejects e sc source err sc.registry
  /-- The runtime objects to a dependency; those before it are registered. -/
  | dependency {root t : Template} {deps : Table Instance} {before after : Table Template}
      {r reason : Text} {g : Registry} : e.parse source = .ok root →
      (e.resolve sc root).1 = .ok deps → sc.foreign deps = before ++ (r, t) :: after →
      sc.registry.addAll e.objection before = (g, .ok ()) →
      e.objection t.runtimeSource = some reason →
      Rejects e sc source (.compile r reason) g
  /-- The runtime objects to the root; all dependencies are registered. -/
  | root {root : Template} {deps : Table Instance} {reason : Text} {g : Registry} :
      e.parse source = .ok root → (e.resolve sc root).1 = .ok deps →
      sc.registry.addAll e.objection (sc.foreign deps) = (g, .ok ()) →
      e.objection root.runtimeSource = some reason →
      Rejects e sc source (.compile (Alias.ofRoot root.source) reason) g

/-- An installation that fails changes nothing but the registry of its scope. -/
theorem rejects_of_install {root : Template} {deps : Table Instance} (hp : e.parse source = .ok root)
    (hd : (e.resolve sc root).1 = .ok deps) (h : (sc.install e.objection root deps).1 = .error err) :
    ∃ g, (sc.install e.objection root deps).2 = { sc with registry := g } ∧
      Rejects e sc source err g := by
  unfold Scope.install at h ⊢
  split at h
  · next g err' ha =>
    obtain rfl := Except.error.inj h
    obtain ⟨before, r, t, after, reason, hf, hb, ho, rfl⟩ := Registry.addAll_error ha
    exact ⟨g, rfl, .dependency hp hd hf hb ho⟩
  · next g ha =>
    simp only at h ⊢
    split at h
    · next err' hr =>
      obtain rfl := Except.error.inj h
      unfold Registry.add at hr
      split at hr
      · next reason ho =>
        obtain rfl := Except.error.inj hr
        exact ⟨g, rfl, .root hp hd ha ho⟩
      · exact nomatch hr
    · exact nomatch h

/-- An entry of the registry that is left is what it was, or that of a dependency that is not a partial of
the scope. -/
theorem Rejects.find?_or {g : Registry} (h : Rejects e sc source err g) (m : Text) :
    g.find? m = sc.registry.find? m ∨ ∃ root deps k i, e.parse source = .ok root ∧
      (e.resolve sc root).1 = .ok deps ∧ (k, i) ∈ deps ∧ sc.partials.contains k = false ∧
      m = Alias.ofReference k ∧ g.find? m = some ⟨i.template.runtimeSource, false⟩ := by
  have added {root : Template} {deps : Table Instance} {t : Table Template} {g : Registry}
      (hp : e.parse source = .ok root) (hd : (e.resolve sc root).1 = .ok deps)
      (hsub : t ⊆ sc.foreign deps) (ha : sc.registry.addAll e.objection t = (g, .ok ())) :
      g.find? m = sc.registry.find? m ∨ ∃ root deps k i, e.parse source = .ok root ∧
        (e.resolve sc root).1 = .ok deps ∧ (k, i) ∈ deps ∧ sc.partials.contains k = false ∧
        m = Alias.ofReference k ∧ g.find? m = some ⟨i.template.runtimeSource, false⟩ := by
    have ho := Registry.find?_addAll_or e.objection sc.registry t m
    rw [ha] at ho
    refine ho.imp_right ?_
    rintro ⟨k, v, hk, hm, he⟩
    obtain ⟨i, hi, rfl, hown⟩ := Scope.mem_foreign (hsub hk)
    exact ⟨root, deps, k, i, hp, hd, hi, hown, hm, he⟩
  cases h with
  | unreadable _ => exact .inl rfl
  | unresolved _ _ => exact .inl rfl
  | dependency hp hd hf hb _ => exact added hp hd (hf ▸ List.subset_append_left _ _) hb
  | root hp hd ha _ => exact added hp hd (List.Subset.refl _) ha

/-- With the partials alone, a compilation that fails leaves the engine as it was. -/
theorem eq_of_compileLocal_error (h : e.compileLocal n source = some (.error err, e')) : e' = e := by
  have h : e.compileBy n source e.resolveLocal = some (.error err, e') := h
  obtain ⟨sc, hs, hc⟩ := compiles_of_compileBy h
  generalize ho : (Except.error err : Compilation) = o at hc
  cases hc with
  | stale _ => rfl
  | unreadable _ _ => rfl
  | unresolved _ _ _ => rfl
  | @installed root deps _ _ hd =>
    obtain ⟨-, hall⟩ := Resolution.mem_within hd
    have hfail : (sc.install e.objection root deps).1 = .error err := Except.map_eq_error_iff.1 ho.symm
    have hsame : (sc.install e.objection root deps).2 = sc := by
      have hi := Scope.installed_install e.objection sc root deps
      generalize sc.install e.objection root deps = p at hi hfail
      cases hi with
      | failed err' => rw [Scope.foreign_eq_nil hall]; rfl
      | done g _ => cases hfail
    change e.setScope n (sc.install e.objection root deps).2 = e
    rw [hsame, setScope_self hs]

/-- A compilation that fails changes nothing of any scope but the registry of its own. -/
theorem rejects_of_compile (hs : e.scope? n = some sc)
    (h : e.compile n source = some (.error err, e')) :
    (∀ m, m ≠ n → e'.scope? m = e.scope? m) ∧
      ∃ g, e'.scope? n = some { sc with registry := g } ∧ Rejects e sc source err g := by
  obtain ⟨sc', hs', hc⟩ := compiles_of_compileBy h
  obtain rfl := Option.some.inj (hs.symm.trans hs')
  have hresolve (root : Template) (m : Nat) : (e.resolve sc root).2.scope? m = e.scope? m :=
    Compiling.scope?_resolve (.compile n source) sc root m
  generalize ho : (Except.error err : Compilation) = o at hc
  cases hc with
  | stale _ => exact nomatch ho
  | unreadable _ hp =>
    obtain rfl := Except.error.inj ho
    exact ⟨fun _ _ => rfl, _, hs, .unreadable hp⟩
  | unresolved _ hp hd =>
    obtain rfl := Except.error.inj ho
    exact ⟨fun m _ => hresolve _ m, _, (hresolve _ n).trans hs, .unresolved hp hd⟩
  | @installed root deps _ hp hd =>
    have hobj : (e.resolve sc root).2.objection = e.objection := (frame_config.resolve e sc root).2
    rw [hobj] at ho ⊢
    obtain ⟨g, hg, hrej⟩ := rejects_of_install hp hd (Except.map_eq_error_iff.1 ho.symm)
    refine ⟨fun m hm => ?_, g, ?_, hrej⟩
    · rw [scope?_setScope, if_neg hm, hresolve]
    · rw [scope?_setScope, if_pos rfl, hresolve, hs, hg]
      rfl

/-- After a compilation with the partials alone that fails, the engine is what it was.  After any other
that fails, its scope has the same templates on record, the same partials and everything else but the
registry, and other scopes are what they were.  In the registry stay the dependencies that were registered
before the runtime objected to a template; under other names it is what it was. -/
theorem compile_error (e : Engine) (n : Nat) (sc : Scope) (hs : e.scope? n = some sc) (source : Text) :
    (∀ err e', e.compileLocal n source = some (.error err, e') → e' = e) ∧
    ∀ err e', e.compile n source = some (.error err, e') →
      (∀ m, m ≠ n → e'.scope? m = e.scope? m) ∧
      ∃ g, e'.scope? n = some { sc with registry := g } ∧ Rejects e sc source err g ∧
        ∀ m, g.find? m = sc.registry.find? m ∨ ∃ root deps k i, e.parse source = .ok root ∧
          (e.resolve sc root).1 = .ok deps ∧ (k, i) ∈ deps ∧ sc.partials.contains k = false ∧
          m = Alias.ofReference k ∧ g.find? m = some ⟨i.template.runtimeSource, false⟩ := by
  refine ⟨fun err e' h => eq_of_compileLocal_error h, fun err e' h => ?_⟩
  obtain ⟨hother, g, hg, hrej⟩ := rejects_of_compile hs h
  exact ⟨hother, g, hg, hrej, hrej.find?_or⟩

end Engine

namespace Session

/-- A page that the runtime objects to, after it has inserted `a:`. -/
def refusedSource : Text := "{{>a:}}{{}}".toList

def refusedRoot : Template :=
  readAs refusedSource [.invocation (.fixed ⟨3, ['a', ':']⟩) [], .expression [] true] [['a', ':']]

/-- A runtime objects to an empty tag. -/
def emptyTag : Objection :=
  fun source => (Text.cut (open2 ++ close2) source).map fun _ => "empty tag".toList

/-- The engine of the page, with the objections of the runtime. -/
def objectingEngine : Engine :=
  { pageEngine [] [] with objection := emptyTag }

theorem start_objectingEngine : Engine.start .identity .default [] emptyTag .memory
    [(['a', ':'], ['y'])] [] = .ok objectingEngine := rfl

/-- What the refused page leaves. -/
def refusedRegistry : Registry := [(pageName, ⟨['y'], false⟩)]

theorem compile_refused : ∃ reason e', objectingEngine.compile 0 refusedSource =
      some (.error (.compile (Alias.ofRoot refusedSource) reason), e') ∧
    e'.scope? 0 = some { objectingEngine.main with registry := refusedRegistry } := by
  have hp : objectingEngine.parse refusedSource = .ok refusedRoot :=
    congrArg (Except.mapError _) (parse_readAs (by cbv) rfl)
  have hpeek : objectingEngine.peek ['a', ':'] = .ok (page (.fetched ⟨['a', ':'], 0, 0⟩) ['y']) :=
    peek_page rfl rfl rfl rfl rfl rfl (by cbv) (by cbv)
  have ha : (objectingEngine.loader objectingEngine.main).answer ['a', ':'] =
      .ok (page (.fetched ⟨['a', ':'], 0, 0⟩) ['y']) := loader_of_peek rfl rfl hpeek
  have hr : objectingEngine.resolve objectingEngine.main refusedRoot =
      (.ok firstPage, objectingEngine.loaded objectingEngine.main [['a', ':']]) :=
    resolve_of_resolution (resolution_page ha)
  obtain ⟨reason, hi⟩ : ∃ reason, objectingEngine.main.install emptyTag refusedRoot firstPage =
      (.error (.compile (Alias.ofRoot refusedSource) reason),
        { objectingEngine.main with registry := refusedRegistry }) := ⟨_, by cbv⟩
  have ho : (objectingEngine.loaded objectingEngine.main [['a', ':']]).objection = emptyTag := by
    rw [Engine.loaded_eq]
    exact (Engine.frame_config.fetchAll objectingEngine _).2
  have hf : objectingEngine.main.compiled.find? refusedSource = none := rfl
  refine ⟨reason, (objectingEngine.loaded objectingEngine.main [['a', ':']]).setScope 0
    { objectingEngine.main with registry := refusedRegistry }, ?_, ?_⟩
  · simp only [Engine.compile, Engine.compileBy, Engine.scope?, Option.map_some, hf, Engine.compileNew, hp,
      hr, ho, hi]
    rfl
  · rw [Engine.scope?_setScope, if_pos rfl, Engine.loaded_eq, Engine.scope?_fetchAll]
    rfl

theorem compile_error_refused :
    (∃ err e', objectingEngine.compile 0 refusedSource = some (.error err, e') ∧
      Engine.Rejects objectingEngine objectingEngine.main refusedSource err refusedRegistry) ∧
    ∃ err, objectingEngine.compileLocal 0 refusedSource = some (.error err, objectingEngine) := by
  obtain ⟨hlocal, hremote⟩ :=
    Engine.compile_error objectingEngine 0 objectingEngine.main rfl refusedSource
  obtain ⟨reason, e', hc, hs⟩ := compile_refused
  obtain ⟨-, g, hg, hrej, -⟩ := hremote _ _ hc
  obtain rfl : refusedRegistry = g := congrArg Scope.registry (Option.some.inj (hs.symm.trans hg))
  obtain ⟨err, e'', hl⟩ :
      ∃ err e'', objectingEngine.compileLocal 0 refusedSource = some (.error err, e'') :=
    ⟨_, _, by cbv⟩
  exact ⟨⟨_, e', hc, hrej⟩, err, by rw [hl, hlocal err e'' hl]⟩

/-- A compilation that fails is not undone: the page that it has fetched can be called from then on. -/
theorem compile_refused_registers : ∃ e₀ err e' sc sc',
    Engine.start .identity .default [] emptyTag .memory [(['a', ':'], ['y'])] [] = .ok e₀ ∧
    e₀.compile 0 refusedSource = some (.error err, e') ∧
    e₀.scope? 0 = some sc ∧ e'.scope? 0 = some sc' ∧
    sc.registry.find? pageName = none ∧ sc'.registry.find? pageName = some ⟨['y'], false⟩ := by
  obtain ⟨reason, e', hc, hs⟩ := compile_refused
  exact ⟨_, _, e', _, _, start_objectingEngine, hc, rfl, hs, rfl, rfl⟩

end Session

end Stencil
