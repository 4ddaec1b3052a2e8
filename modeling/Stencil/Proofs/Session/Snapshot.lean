import Mathlib.Data.List.Induction
import Stencil.Proofs.Render.Callees
import Stencil.Proofs.Render.Insertion
import Stencil.Proofs.Session.Frame
/-!
What becomes of a compiled template, through any sequence of steps.

A scope and the templates that it has compiled share one registry.  As long as names do not collide, the
entry of a root is for good, and the entry of a dependency lasts until a later compilation in the scope
finds another template for the reference, which takes a purge.  So a template whose sources name what they
insert is rendered alike as long as its dependencies are found again, by every local runtime (`render_run`).
After a purge it need not be (`render_changed`).
-/

namespace Stencil

namespace Alias

/-- Besides, no two of the sources have one root name. -/
structure Distinct (references sources : List Text) : Prop extends Apart references sources where
  roots : ∀ a ∈ sources, ∀ b ∈ sources, ofRoot a = ofRoot b → a = b

/-- A name that none of the remote references goes by except for some, and none of the sources except for
one. -/
structure Reserved (references sources : List Text) (some : List Text) (one m : Text) : Prop where
  references : ∀ k ∈ references, Reference.isRemote k = true → ofReference k = m → k ∈ some
  sources : ∀ b ∈ sources, ofRoot b = m → b = one

variable {references references' sources sources' own : List Text} {root : Text}

theorem Distinct.mono (h : Distinct references' sources') (hr : references ⊆ references')
    (hs : sources ⊆ sources') : Distinct references sources :=
  ⟨h.toApart.mono hr hs, fun a ha b hb => h.roots a (hs ha) b (hs hb)⟩

theorem Reserved.mono {m : Text} (h : Reserved references' sources' own root m)
    (hr : references ⊆ references') (hs : sources ⊆ sources') : Reserved references sources own root m :=
  ⟨fun k hk => h.references k (hr hk), fun b hb => h.sources b (hs hb)⟩

theorem Distinct.reserved_root (h : Distinct references sources) (hr : root ∈ sources) :
    Reserved references sources own root (ofRoot root) :=
  ⟨fun k hk _ he => absurd he (h.rootless k hk root hr), fun b hb he => h.roots b hb root hr he⟩

theorem Distinct.reserved_reference (h : Distinct references sources) {k : Text} (hk : k ∈ references)
    (ho : k ∈ own) : Reserved references sources own root (ofReference k) :=
  ⟨fun k' hk' _ he => h.injective k' hk' k hk he ▸ ho,
    fun b hb he => absurd he.symm (h.rootless k hk b hb)⟩

end Alias

namespace Session

variable {s : Session} {n : Nat} {a : Step} {steps : List Step} {root : Template} {deps : Table Instance}
  {sc : Scope} {c : Compiled}

/-! ## Entries of a registry -/

/-- An entry lasts as long as compilations in the scope register nothing else under its name. -/
theorem find?_run {m : Text} (hs : s.engine.scope? n = some sc)
    (h : ∀ first a rest sc₁ root deps c, steps = first ++ a :: rest →
      (s.run first).engine.scope? n = some sc₁ → (s.run first).Finds n a root deps →
      sc₁.Installs root deps m c → sc.registry.find? m = some c) :
    ∃ sc', (s.run steps).engine.scope? n = some sc' ∧ sc'.registry.find? m = sc.registry.find? m := by
  induction steps generalizing s sc with
  | nil => exact ⟨sc, hs, rfl⟩
  | cons a steps ih =>
    obtain ⟨sc₁, hs₁, hnext⟩ := exists_next a hs
    have hm : sc₁.registry.find? m = sc.registry.find? m := by
      cases hnext with
      | same => rfl
      | cleared => rfl
      | installed objection hf _ =>
        exact Scope.find?_install_of_same objection fun c hi => h [] a steps sc _ _ c rfl hs hf hi
    obtain ⟨sc', hs', hm'⟩ := ih hs₁ fun first b rest sc₂ root deps c he hs₂ hf hi => by
      rw [hm]
      exact h (a :: first) b rest sc₂ root deps c (he ▸ rfl) hs₂ hf hi
    exact ⟨sc', hs', hm'.trans hm⟩

/-- The compilations in the scope that find the reference find templates with the runtime source of
`t`. -/
def Refinds (s : Session) (n : Nat) (steps : List Step) (k : Text) (t : Template) : Prop :=
  ∀ first a rest root deps i, steps = first ++ a :: rest → (s.run first).Finds n a root deps →
    deps.find? k = some i → i.template.runtimeSource = t.runtimeSource

/-- A compilation registers a root under its name, and what it finds elsewhere under the names of remote
references. -/
theorem Finds.of_installs {references sources own : List Text} {one m : Text} {d : Callable}
    (h : s.Finds n a root deps) (hs : s.engine.scope? n = some sc) (hi : sc.Installs root deps m d)
    (hr : deps.keys ⊆ references) (hsource : root.source ∈ sources)
    (hm : Alias.Reserved references sources own one m) :
    m = Alias.ofRoot one ∧ root.source = one ∧ d = ⟨root.runtimeSource, true⟩ ∨
      ∃ k ∈ own, ∃ i, m = Alias.ofReference k ∧ deps.find? k = some i ∧
        d = ⟨i.template.runtimeSource, false⟩ := by
  cases hi with
  | @dependency k i hi hown =>
    have hfind := (Table.mem_iff_find? h.sorted).1 hi
    refine .inr ⟨k, ?_, i, rfl, hfind, rfl⟩
    rcases h.answered hs hfind with hp | ⟨-, hremote, -⟩
    · rw [Table.contains, hp] at hown
      cases hown
    · exact hm.references k (hr (Table.mem_keys_of_find? hfind)) hremote rfl
  | root =>
    have hone := hm.sources root.source hsource rfl
    exact .inl ⟨hone ▸ rfl, hone, rfl⟩

/-- After a compilation that succeeds its root and all that it has found are registered. -/
theorem Finds.registered {objection : Objection} (h : s.Finds n a root deps)
    (hr : s.Returns n a (.ok (some c))) (hsound : (s.step a).engine.Sound objection)
    (ha : Alias.Apart deps.keys [root.source]) (hs : (s.step a).engine.scope? n = some sc) :
    c.name = Alias.ofRoot root.source ∧ sc.registry.find? c.name = some ⟨root.runtimeSource, true⟩ ∧
      ∀ k i, deps.find? k = some i →
        sc.registry.find? (Alias.ofReference k) = some ⟨i.template.runtimeSource, false⟩ := by
  obtain ⟨old, objection', hold, hi, hs'⟩ := h.installed hr
  obtain rfl := Option.some.inj (hs'.symm.trans hs)
  obtain ⟨hname, hroot⟩ := Scope.find?_install_root (Prod.ext hi rfl)
  refine ⟨hname, hroot, fun k i hk => ?_⟩
  rcases h.answered hold hk with hown | ⟨hown, -, -⟩
  · have hkept := (hsound.scopes n _ hs).kept
    have hpartials : (old.install objection' root deps).2.partials = old.partials :=
      congrArg Draft.partials (Scope.draft_install objection' old root deps)
    exact hkept.find? (hpartials ▸ hown)
  · refine Scope.find?_install (Prod.ext hi rfl) (Table.nodup_keys h.sorted) ha hk ?_
    rw [Table.contains, hown]
    rfl

/-! ### References that are found again -/

theorem partials_run (hs : s.engine.scope? n = some sc) {sc' : Scope}
    (hs' : (s.run steps).engine.scope? n = some sc') : sc'.partials = sc.partials := by
  obtain ⟨sc₁, hs₁, hd⟩ := sameDrafts_run s steps n sc hs
  obtain rfl := Option.some.inj (hs₁.symm.trans hs')
  exact congrArg Draft.partials hd

theorem Finds.isPurge_eq (h : s.Finds n a root deps) : a.isPurge = false := by
  obtain ⟨ha, -, -, -, -⟩ := h
  cases ha <;> rfl

theorem Finds.exists_scope (h : s.Finds n a root deps) : ∃ sc, s.engine.scope? n = some sc := by
  obtain ⟨-, hs, -, -, -⟩ := h
  exact ⟨_, hs⟩

/-- Until the next purge a reference that has been found is found again, and a partial of the scope is for
good. -/
theorem Finds.refinds (h : s.Finds n a root deps) {o : Engine.Compilation} (hr : s.Returns n a o)
    {more : List Step} (hs : s.engine.scope? n = some sc) {k : Text} {i : Instance}
    (hi : deps.find? k = some i)
    (hp : sc.partials.contains k = true ∨ ∀ b ∈ more, b.isPurge = false) :
    (s.step a).Refinds n more k i.template := by
  rintro first b rest root' deps' i' rfl hf hi'
  obtain ⟨sc', hs'⟩ : ∃ sc', (s.run (a :: first)).engine.scope? n = some sc' := hf.exists_scope
  have hpartials : sc'.partials = sc.partials := partials_run hs hs'
  have hagain := hf.answered hs' hi'
  rw [hpartials] at hagain
  rcases h.answered hs hi with hown | ⟨hown, -, -⟩
  · rcases hagain with hown' | ⟨hown', -, -⟩
    · rw [Option.some.inj (hown'.symm.trans hown)]
    · cases hown.symm.trans hown'
  · have hp : ∀ b ∈ first, b.isPurge = false := by
      rcases hp with hp | hp
      · rw [Table.contains, hown] at hp
        cases hp
      · exact fun b hb => hp b (List.mem_append_left _ hb)
    -- the task of the first time is still the task of the reference, and is settled
    have htask := Engine.frame_task.run s (a :: first)
      (.inl (List.forall_mem_cons.2 ⟨h.isPurge_eq, hp⟩))
    have hset := (Engine.frame_outcome _ _).run (s.step a) first (.inl hp) (h.settled hr hs hown hi)
    have hlater : ((s.step a).run first).engine.peek k = .ok i := by
      rw [run_cons] at htask
      rw [Engine.peek_eq, htask, hset]
      rfl
    rcases hagain with hown' | ⟨-, -, hpeek⟩
    · cases hown.symm.trans hown'
    · rw [Except.ok.inj (hpeek.symm.trans hlater)]

/-! ### Entries that last -/

theorem Finds.keys_subset_metAll {first rest : List Step} (h : (s.run first).Finds n a root deps)
    (he : steps = first ++ a :: rest) : deps.keys ⊆ s.metAll steps := by
  intro k hk
  rw [← h.met_eq] at hk
  exact he ▸ metAll_append_right s first (a :: rest)
    (List.mem_append_left _ (List.mem_append_right _ hk))

theorem Finds.source_mem {first rest : List Step} {t : Session} (h : t.Finds n a root deps)
    (he : steps = first ++ a :: rest) : root.source ∈ steps.filterMap Step.compiled? :=
  List.mem_filterMap.2 ⟨a, he ▸ List.mem_append_right _ List.mem_cons_self, h.compiled?_eq⟩

theorem Finds.apart {more : List Step} (h : s.Finds n a root deps)
    (ha : Alias.Distinct (s.metAll (a :: more)) ((a :: more).filterMap Step.compiled?)) :
    Alias.Apart deps.keys [root.source] := by
  have hf : (s.run []).Finds n a root deps := h
  have he : a :: more = [] ++ a :: more := rfl
  exact ha.toApart.mono (hf.keys_subset_metAll he)
    (List.cons_subset.2 ⟨hf.source_mem he, List.nil_subset _⟩)

/-- Whatever is registered later under a name that is reserved for a root and its dependencies is what was
registered with them, as long as the dependencies are found again. -/
theorem Finds.find?_run {objection : Objection} {more : List Step} (h : s.Finds n a root deps)
    (hr : s.Returns n a (.ok (some c))) (hsound : (s.step a).engine.Sound objection)
    (ha : Alias.Distinct (s.metAll (a :: more)) ((a :: more).filterMap Step.compiled?))
    (hs : (s.step a).engine.scope? n = some sc) {m : Text}
    (hm : Alias.Reserved (s.metAll (a :: more)) ((a :: more).filterMap Step.compiled?) deps.keys
      root.source m)
    (hagain : ∀ k i, deps.find? k = some i → Alias.ofReference k = m →
      (s.step a).Refinds n more k i.template) :
    ∃ sc', ((s.step a).run more).engine.scope? n = some sc' ∧
      sc'.registry.find? m = sc.registry.find? m := by
  obtain ⟨hname, hroot, hdeps⟩ := h.registered hr hsound (h.apart ha) hs
  refine Session.find?_run hs fun first b rest sc₁ root' deps' d he hs₁ hf hi => ?_
  have he' : a :: more = (a :: first) ++ b :: rest := by rw [he]; rfl
  have hf' : (s.run (a :: first)).Finds n b root' deps' := hf
  rcases hf.of_installs hs₁ hi (hf'.keys_subset_metAll he') (hf'.source_mem he') hm with
    ⟨rfl, hsource, rfl⟩ | ⟨k, hk, i, rfl, hfind, rfl⟩
  · -- the source is the same, and so is what it parses to
    obtain ⟨hx, -⟩ := Engine.frame_config.run s (a :: first) (.inr fun _ => ⟨rfl, rfl⟩)
    have hroot' := hf.isParsed
    rw [Template.IsParsed, hsource, show ((s.step a).run first).engine.expander = _ from hx] at hroot'
    obtain rfl := Except.ok.inj (h.isParsed.symm.trans hroot')
    exact hname ▸ hroot
  · obtain ⟨j, hj⟩ := Table.mem_keys_iff.1 hk
    rw [hagain k j hj rfl first b rest root' deps' i he hf hfind]
    exact hdeps k j hj

/-! ## Runs from the start -/

variable {e₀ : Engine} {expander : Expander} {escaper : Escaper} {helpers : Table Helper}
  {objection : Objection} {service : Service} {shelf partials : Table Text}

theorem ofDraft_of_start
    (h₀ : Engine.start expander escaper helpers objection service shelf partials = .ok e₀)
    (hs : e₀.scope? n = some sc) : ∃ d, Scope.ofDraft objection d = .ok sc := by
  obtain ⟨d, main, -, hm, rfl⟩ := Engine.of_start h₀
  cases n with
  | zero => exact ⟨d, Option.some.inj hs ▸ hm⟩
  | succ n => exact nomatch hs

theorem sound_after_start
    (h₀ : Engine.start expander escaper helpers objection service shelf partials = .ok e₀)
    (before : List Step) (a : Step) (more : List Step)
    (ha : Alias.Apart ((start e₀).metAll (before ++ a :: more))
      ((before ++ a :: more).filterMap Step.compiled?)) :
    (((start e₀).run before).step a).engine.Sound objection := by
  have hstart : (start e₀).engine.Sound objection :=
    .start h₀ (ha.mono (partialKeys_subset_metAll (start e₀) _) (List.nil_subset _))
  rw [show before ++ a :: more = (before ++ [a]) ++ more by simp, List.filterMap_append] at ha
  have hs := sound_run hstart (before ++ [a])
    (ha.mono (metAll_append_left _ _ _) (List.subset_append_left _ _))
  rwa [run_append] at hs

theorem config_run
    (h₀ : Engine.start expander escaper helpers objection service shelf partials = .ok e₀)
    (steps : List Step) :
    ((start e₀).run steps).engine.expander = expander ∧
      ((start e₀).run steps).engine.objection = objection := by
  obtain ⟨hx, ho⟩ := Engine.frame_config.run (start e₀) steps (.inr fun _ => ⟨rfl, rfl⟩)
  obtain ⟨d, main, -, -, rfl⟩ := Engine.of_start h₀
  exact ⟨hx, ho⟩

/-- What every scope has at the start, when it is built among scopes that have it, and after a step if it had
it before, every scope has throughout a run. -/
theorem scope_run {P : Scope → Prop} (hstart : ∀ n sc, e₀.scope? n = some sc → P sc)
    (hbuilt : ∀ before a after sc, steps = before ++ a :: after →
      (∀ n old, ((start e₀).run before).engine.scope? n = some old → P old) →
      ((start e₀).run before).Builds a sc → P sc)
    (hnext : ∀ (s : Session) n a sc sc', s.Next n a sc sc' → P sc → P sc')
    (hs : ((start e₀).run steps).engine.scope? n = some sc) : P sc := by
  induction steps using List.reverseRecOn generalizing n sc with
  | nil => exact hstart n sc hs
  | append_singleton steps a ih =>
    have earlier {m : Nat} {old : Scope} (hold : ((start e₀).run steps).engine.scope? m = some old) :
        P old := by
      refine ih (fun before b after sc he hall hb => ?_) hold
      exact hbuilt before b (after ++ [a]) sc (by rw [he]; simp) hall hb
    rw [run_append] at hs
    rcases next_step hs with ⟨old, hold, hn⟩ | ⟨-, hb⟩
    · exact hnext _ n a old sc hn (earlier hold)
    · exact hbuilt steps a [] sc rfl (fun _ _ => earlier) hb

/-- What every scope has when it is built, with the objections of the engine. -/
theorem scope_run_of_ofDraft
    (h₀ : Engine.start expander escaper helpers objection service shelf partials = .ok e₀)
    {P : Scope → Prop} (hbuilt : ∀ d sc, Scope.ofDraft objection d = .ok sc → P sc)
    (hnext : ∀ (s : Session) n a sc sc', s.Next n a sc sc' → P sc → P sc') (steps : List Step)
    (hs : ((start e₀).run steps).engine.scope? n = some sc) : P sc := by
  refine scope_run (fun n sc hsc => ?_) (fun before a after sc _ _ hb => ?_) hnext hs
  · obtain ⟨d, hd⟩ := ofDraft_of_start h₀ hsc
    exact hbuilt d sc hd
  · obtain ⟨-, hd⟩ := hb
    rw [(config_run h₀ before).2] at hd
    exact hbuilt _ sc hd

theorem sorted_registry_run
    (h₀ : Engine.start expander escaper helpers objection service shelf partials = .ok e₀)
    (steps : List Step) (hs : ((start e₀).run steps).engine.scope? n = some sc) :
    sc.registry.Sorted :=
  scope_run_of_ofDraft h₀ (fun _ _ hd => Scope.sorted_ofDraft hd) (fun _ _ _ _ _ hn => hn.sorted_registry)
    steps hs

/-- A compiled template on record was made by a compilation of the run that found all its dependencies. -/
theorem finds_of_compiled
    (h₀ : Engine.start expander escaper helpers objection service shelf partials = .ok e₀)
    (steps : List Step) (hs : ((start e₀).run steps).engine.scope? n = some sc) {source : Text}
    (hc : sc.compiled.find? source = some c) :
    ∃ first a rest root deps, steps = first ++ a :: rest ∧ ((start e₀).run first).Finds n a root deps ∧
      ((start e₀).run first).Returns n a (.ok (some c)) := by
  induction steps using List.reverseRecOn generalizing n sc with
  | nil =>
    obtain ⟨d, hd⟩ := ofDraft_of_start h₀ hs
    rw [Scope.compiled_ofDraft hd] at hc
    exact nomatch hc
  | append_singleton steps a ih =>
    rw [run_append] at hs
    have earlier {old : Scope} (hold : ((start e₀).run steps).engine.scope? n = some old)
        (hc : old.compiled.find? source = some c) :
          ∃ first b rest root deps, steps ++ [a] = first ++ b :: rest ∧
          ((start e₀).run first).Finds n b root deps ∧
          ((start e₀).run first).Returns n b (.ok (some c)) := by
      obtain ⟨first, b, rest, root, deps, rfl, hf, hr⟩ := ih hold hc
      exact ⟨first, b, rest ++ [a], root, deps, by simp, hf, hr⟩
    rcases next_step hs with ⟨old, hold, hnext⟩ | ⟨-, -, hd⟩
    · cases hnext with
      | same => exact earlier hold hc
      | cleared => exact nomatch hc
      | @installed root deps objection hf hr =>
        rcases Scope.find?_compiled_install hc with hc | hi
        · exact earlier hold hc
        · rw [hi] at hr
          exact ⟨steps, a, [], root, deps, rfl, hf, hr⟩
    · rw [Scope.compiled_ofDraft hd] at hc
      exact nomatch hc

/-- A compilation that is answered with a template has found its dependencies, or the template was on
record. -/
theorem Returns.finds_or_find? (h : s.Returns n a (.ok (some c))) :
    (∃ root deps, s.Finds n a root deps) ∨
      ∃ sc source, s.engine.scope? n = some sc ∧ sc.compiled.find? source = some c := by
  obtain @⟨source, resolve, e', ha, hc⟩ := h
  obtain ⟨sc, hs, hcomp⟩ := Engine.compiles_of_compileBy hc
  generalize ho : (Except.ok (some c) : Engine.Compilation) = o at hcomp
  cases hcomp with
  | stale hf =>
    refine .inr ⟨sc, source, hs, ?_⟩
    rw [Engine.compileBy_of_stale hs hf] at hc
    have hc := Except.ok.inj (Prod.mk.inj (Option.some.inj hc)).1
    split at hc
    · exact nomatch hc
    · exact hc
  | unreadable _ _ => cases ho
  | unresolved _ _ _ => cases ho
  | installed hf hp hd => exact .inl ⟨_, _, .intro ha hs hf hp hd⟩

/-- What lasts of a compiled template through the steps after its compilation.  The scope is `old` right
after the compilation and `last` at the end; the references and the sources are those of the whole run. -/
structure Lasts (s : Session) (n : Nat) (more : List Step) (references sources : List Text)
    (root : Template) (deps : Table Instance) (c : Compiled) (old last : Scope) : Prop where
  /-- The compilation has registered the root, -/
  registered : old.registry.find? c.name = some ⟨root.runtimeSource, true⟩
  /-- and has it registered with each dependency. -/
  provided (k : Text) (i : Instance) : deps.find? k = some i →
    old.registry.find? (Alias.ofReference k) = some ⟨i.template.runtimeSource, false⟩
  /-- The entry of the root is for good. -/
  entry : last.registry.find? c.name = old.registry.find? c.name
  /-- The entry of a dependency lasts as long as the dependency is found again, -/
  dependency (k : Text) (i : Instance) : deps.find? k = some i → s.Refinds n more k i.template →
    last.registry.find? (Alias.ofReference k) = old.registry.find? (Alias.ofReference k)
  /-- which a partial of the scope always is, and any dependency without a purge. -/
  refound (k : Text) (i : Instance) : deps.find? k = some i →
    old.partials.contains k = true ∨ (∀ b ∈ more, b.isPurge = false) → s.Refinds n more k i.template
  /-- If all dependencies are found again a local runtime renders the template alike, provided that the
  sources it comes across name what they insert by fixed names, none of which belongs to another reference or
  root, and that no helper looks at the registry. -/
  render (rt : Runtime) : rt.Local → (∀ p ∈ old.helpers, Helper.Blind p.2) →
    (∀ k i, deps.find? k = some i → s.Refinds n more k i.template) →
    rt.IsFixed old.registry c.name →
    (∀ m, rt.Reaches old.registry c.name m →
      Alias.Reserved references sources deps.keys root.source m) →
    ∀ data, last.render rt (some c) data = old.render rt (some c) data

/-- The references and the sources may be those of a longer run. -/
theorem Finds.lasts {references sources : List Text} {more : List Step} {old last : Scope}
    (h : s.Finds n a root deps) (hr : s.Returns n a (.ok (some c)))
    (hsound : (s.step a).engine.Sound objection) (ha : Alias.Distinct references sources)
    (hmet : s.metAll (a :: more) ⊆ references)
    (hcompiled : (a :: more).filterMap Step.compiled? ⊆ sources)
    (hold : (s.step a).engine.scope? n = some old) (hsorted : old.registry.Sorted)
    (hlast : ((s.step a).run more).engine.scope? n = some last) (hsorted' : last.registry.Sorted) :
    (s.step a).Lasts n more references sources root deps c old last := by
  have hrest := ha.mono hmet hcompiled
  obtain ⟨hname, hroot, hdeps⟩ := h.registered hr hsound (h.apart hrest) hold
  have keep (m : Text) (hm : Alias.Reserved references sources deps.keys root.source m)
      (hagain : ∀ k i, deps.find? k = some i → Alias.ofReference k = m →
        (s.step a).Refinds n more k i.template) :
      last.registry.find? m = old.registry.find? m := by
    obtain ⟨sc, hsc, hfind⟩ := h.find?_run hr hsound hrest hold (hm.mono hmet hcompiled) hagain
    obtain rfl := Option.some.inj (hsc.symm.trans hlast)
    exact hfind
  have hf : (s.run []).Finds n a root deps := h
  have he : a :: more = [] ++ a :: more := rfl
  have hkeys : deps.keys ⊆ references := List.Subset.trans (hf.keys_subset_metAll he) hmet
  have hsource : root.source ∈ sources := hcompiled (hf.source_mem he)
  constructor
  case registered => exact hroot
  case provided => exact hdeps
  case entry =>
    refine keep _ (hname ▸ ha.reserved_root hsource) fun k i hk he => ?_
    exact absurd (he.trans hname) (ha.rootless k (hkeys (Table.mem_keys_of_find? hk)) _ hsource)
  case dependency =>
    intro k i hk hagain
    have hmem := Table.mem_keys_of_find? hk
    refine keep _ (ha.reserved_reference (hkeys hmem) hmem) fun k' i' hk' he => ?_
    obtain rfl := ha.injective k' (hkeys (Table.mem_keys_of_find? hk')) k (hkeys hmem) he
    obtain rfl := Option.some.inj (hk.symm.trans hk')
    exact hagain
  case refound =>
    intro k i hk hp
    obtain ⟨former, hformer⟩ := h.exists_scope
    have hpartials : old.partials = former.partials :=
      partials_run hformer (show (s.run [a]).engine.scope? n = some old from hold)
    exact h.refinds hr hformer hk (hpartials ▸ hp)
  case render =>
    intro rt hrt hblind hagain hfixed hreach data
    obtain ⟨sc, hsc, hdraft⟩ := sameDrafts_run _ more n old hold
    obtain rfl := Option.some.inj (hsc.symm.trans hlast)
    exact Scope.render_congr hrt hsorted hsorted' (congrArg Draft.helpers hdraft) hblind hfixed
      (fun m hm => keep m (hreach m hm) fun k i hk _ => hagain k i hk) data

/-- In a run whose names do not collide, what a template needs that is compiled anew lasts until the end.
And every compiled template that the run hands out was compiled anew at some step. -/
theorem render_run
    (h₀ : Engine.start expander escaper helpers objection service shelf partials = .ok e₀)
    (ha : Alias.Distinct ((start e₀).metAll steps) (steps.filterMap Step.compiled?)) :
    (∀ before a more n root deps c, steps = before ++ a :: more →
      ((start e₀).run before).Finds n a root deps →
      ((start e₀).run before).Returns n a (.ok (some c)) →
      ∃ old last, ((start e₀).run (before ++ [a])).engine.scope? n = some old ∧
        ((start e₀).run steps).engine.scope? n = some last ∧
        ((start e₀).run (before ++ [a])).Lasts n more ((start e₀).metAll steps)
          (steps.filterMap Step.compiled?) root deps c old last) ∧
    ∀ before a more n c, steps = before ++ a :: more →
      ((start e₀).run before).Returns n a (.ok (some c)) →
      ∃ first b rest root deps, before ++ [a] = first ++ b :: rest ∧
        ((start e₀).run first).Finds n b root deps ∧
        ((start e₀).run first).Returns n b (.ok (some c)) := by
  constructor
  · rintro before a more n root deps c rfl hf hr
    have hone : (start e₀).run (before ++ [a]) = ((start e₀).run before).step a := run_append _ _ _
    have hall : (start e₀).run (before ++ a :: more) = (((start e₀).run before).step a).run more :=
      run_append _ _ _
    obtain ⟨former, hformer⟩ := hf.exists_scope
    obtain ⟨old, hold, -⟩ := sameDrafts_step _ a n former hformer
    obtain ⟨last, hlast, -⟩ := sameDrafts_run _ more n old hold
    have hsorted := sorted_registry_run h₀ (before ++ [a]) (hone ▸ hold)
    have hsorted' := sorted_registry_run h₀ (before ++ a :: more) (hall ▸ hlast)
    -- the names that the rest of the run meets
    have hmet := metAll_append_right (start e₀) before (a :: more)
    have hcompiled : (a :: more).filterMap Step.compiled? ⊆
        (before ++ a :: more).filterMap Step.compiled? := by
      rw [List.filterMap_append]
      exact List.subset_append_right _ _
    have hsound := sound_after_start h₀ before a more ha.toApart
    rw [hone, hall]
    exact ⟨old, last, hold, hlast, hf.lasts hr hsound ha hmet hcompiled hold hsorted hlast hsorted'⟩
  · rintro before a more n c rfl hr
    rcases hr.finds_or_find? with ⟨root, deps, hf⟩ | ⟨sc, source, hs, hc⟩
    · exact ⟨before, a, [], root, deps, rfl, hf, hr⟩
    · obtain ⟨first, b, rest, root, deps, rfl, hf, hr⟩ := finds_of_compiled h₀ before hs hc
      exact ⟨first, b, rest ++ [a], root, deps, by simp, hf, hr⟩

/-! ### Compilations of pages -/

/-- The template of a source, as it is read without prefixes. -/
def readAs (source : Text) (nodes : List Node) (references : List Text) : Template :=
  ⟨source, nodes, references, lower (Template.key .identity) source nodes⟩

theorem parse_readAs {source : Text} {nodes : List Node} {references : List Text}
    (hn : Stencil.parse source = .ok nodes) (hr : Template.dependencyKeys .identity nodes = references) :
    Template.parse .identity source = .ok (readAs source nodes references) := by
  rw [Template.parse, hn, ← hr]
  rfl

/-- A page of text alone. -/
def page (origin : Origin) (text : Text) : Instance :=
  ⟨origin, readAs text [.text text] []⟩

/-- The engine after the main scope has installed a root and its dependencies. -/
def installed (e : Engine) (root : Template) (deps : Table Instance) : Engine :=
  (e.loaded e.main deps.keys).setScope 0 (e.main.install e.objection root deps).2

/-- The main scope compiles a source that is new to it, finds these dependencies and installs them. -/
structure Succeeds (e : Engine) (source : Text) (root : Template) (deps : Table Instance) : Prop where
  fresh : Engine.isFresh e.main source = true
  parsed : e.parse source = .ok root
  resolved : e.resolve e.main root = (.ok deps, e.loaded e.main deps.keys)
  accepted : (e.main.install e.objection root deps).1 = .ok ⟨Alias.ofRoot source, e.main.made⟩

section

variable {e : Engine} {r source text : Text} {nodes : List Node} {origin : Origin}

/-- What an identifier comes to that has not been fetched and has plain text for its markup. -/
theorem peek_page {t : Task} (ht : e.fetches.task r = t) (hi : t.identifier = r)
    (hn : e.fetches.outcome? t = none) (hx : e.expander = .identity) (hs : e.escaper = .default)
    (hm : e.content.markup r = .ok text) (he : Escaper.default.escape text = .ok text)
    (hp : Stencil.parse text = .ok [.text text]) :
    e.peek r = .ok (page (.fetched t) text) := by
  rw [Engine.peek_eq, ht, hn, Option.getD_none]
  unfold Engine.evaluate
  simp only [hi, hm, hx, hs, he, parse_readAs hp rfl]
  rfl

theorem resolve_of_resolution {sc : Scope} {w : Roster Instance} {loads : List Text}
    (h : e.resolution sc root = ⟨w, loads, none⟩) :
    e.resolve sc root = (.ok w.settled, e.loaded sc loads) := by
  change ((e.resolution _ _).result, e.loaded _ (e.resolution _ _).loads) = _
  rw [h]
  rfl

/-- A walk that comes across nothing. -/
theorem resolution_nil (sc : Scope) : e.resolution sc (readAs source nodes []) = ⟨⟨[]⟩, [], none⟩ :=
  ((Resolution.ends_iff (e.loader sc)).1 (.still rfl)).symm

/-- A walk that comes across one page. -/
theorem resolution_page {sc : Scope} (ha : (e.loader sc).answer r = .ok (page origin text)) :
    e.resolution sc (readAs source nodes [r]) = ⟨⟨[(r, .settled (page origin text))]⟩, [r], none⟩ := by
  have hfirst : Resolution.settleLevel (e.loader sc).answer ⟨[(r, .awaited)]⟩ [⟨r, []⟩] =
      (⟨[(r, .settled (page origin text))]⟩, .ok [⟨[r], page origin text⟩]) := by
    rw [Resolution.settleLevel, ha]
    simp [Resolution.settleLevel, Roster.settle, Table.insert, Except.map]
  have hlast : Resolution.Ends Instance.references (e.loader sc).answer
      ⟨[(r, .settled (page origin text))]⟩ [⟨[r], page origin text⟩]
      ⟨⟨[(r, .settled (page origin text))]⟩, [], none⟩ := .still rfl
  have hall : Resolution.Ends Instance.references (e.loader sc).answer
      .empty [⟨[], ⟨.given, readAs source nodes [r]⟩⟩]
      ⟨⟨[(r, .settled (page origin text))]⟩, [r], none⟩ :=
    .further (by exact List.cons_ne_nil _ _) hfirst hlast
  exact ((Resolution.ends_iff _).1 hall).symm

theorem loader_of_peek {sc : Scope} {i : Instance} (hown : sc.partials.find? r = none)
    (hr : Reference.isRemote r = true) (hp : e.peek r = .ok i) : (e.loader sc).answer r = .ok i := by
  simp only [Engine.loader, hown, hr, if_true]
  exact hp

namespace Succeeds

variable (h : Succeeds e source root deps)

include h

theorem compile_eq : e.compile 0 source =
    some (.ok (some ⟨Alias.ofRoot source, e.main.made⟩), installed e root deps) := by
  have hf := h.fresh
  rw [Engine.isFresh, Bool.and_eq_true, Bool.not_eq_true', Bool.not_eq_true', Table.contains,
    Option.isSome_eq_false_iff, Option.isNone_iff_eq_none] at hf
  have ho : (e.loaded e.main deps.keys).objection = e.objection := by
    rw [Engine.loaded_eq]
    exact (Engine.frame_config.fetchAll e _).2
  simp only [Engine.compile, Engine.compileBy, Engine.scope?, Option.map_some, hf.1, hf.2,
    Engine.compileNew, h.parsed, h.resolved, ho, h.accepted]
  rfl

theorem engine_step (hs : s.engine = e) :
    (s.step (.compile 0 source)).engine = installed e root deps := by
  subst hs
  exact engine_step_of_compiling (.compile 0 source) h.compile_eq

theorem finds (hs : s.engine = e) : s.Finds 0 (.compile 0 source) root deps := by
  subst hs
  exact .intro (.compile 0 source) rfl h.fresh h.parsed (congrArg Prod.fst h.resolved)

theorem returns (hs : s.engine = e) :
    s.Returns 0 (.compile 0 source) (.ok (some ⟨Alias.ofRoot source, e.main.made⟩)) := by
  subst hs
  exact .intro (.compile 0 source) h.compile_eq

omit h in
/-- The names that a run meets which compiles one source, does something else and compiles another. -/
theorem metAll_between {e' : Engine} {source' : Text} {root' : Template} {deps' : Table Instance}
    {x : Step} (h : Succeeds e source root deps) (hx : x.compiled? = none)
    (he : (((start e).step (.compile 0 source)).step x).engine = e') (h' : Succeeds e' source' root' deps') :
    (start e).metAll [.compile 0 source, x, .compile 0 source'] =
      e.partialKeys ++ deps.keys ++ ((installed e root deps).partialKeys ++ (e'.partialKeys ++ deps'.keys ++
        (installed e' root' deps').partialKeys)) := by
  have hfirst : (start e).met (.compile 0 source) = deps.keys := (h.finds rfl).met_eq
  have hnone : ((start e).step (.compile 0 source)).met x = [] := by
    cases x with
    | compile _ _ => cases hx
    | compileLocal _ _ => cases hx
    | build _ _ _ _ | dependencies _ _ | clear _ | fetch _ | hold _ => rfl
    | await _ | put _ _ | remove _ | purge | purgeAll => rfl
  have hlast := (h'.finds he).met_eq
  simp only [metAll]
  rw [hfirst, hnone, hlast, h.engine_step rfl, h'.engine_step he, he, List.append_nil]
  rfl

end Succeeds

end

/-- An engine with markup for `a:` and these partials. -/
def pageEngine (own : Table Instance) (registry : Registry) : Engine where
  expander := .identity
  escaper := .default
  helpers := []
  objection := fun _ => none
  content := ⟨.memory, [(['a', ':'], ['y'])], []⟩
  fetches := .empty
  main := ⟨own, [], none, registry, [], 0⟩
  others := []

theorem start_pageEngine : Engine.start .identity .default [] (fun _ => none) .memory
    [(['a', ':'], ['y'])] [] = .ok (pageEngine [] []) := rfl

/-- The page, the first time and the second time that it is fetched. -/
def firstPage : Table Instance := [(['a', ':'], page (.fetched ⟨['a', ':'], 0, 0⟩) ['y'])]

def secondPage : Table Instance := [(['a', ':'], page (.fetched ⟨['a', ':'], 1, 0⟩) ['z'])]

def pageRoot : Template :=
  readAs "{{>a:}}".toList [.invocation (.fixed ⟨3, ['a', ':']⟩) []] [['a', ':']]

theorem parse_pageRoot : Template.parse .identity "{{>a:}}".toList = .ok pageRoot :=
  parse_readAs (by cbv) rfl

def largeRoot : Template :=
  readAs "x{{>a:}}".toList [.text ['x'], .invocation (.fixed ⟨4, ['a', ':']⟩) []] [['a', ':']]

theorem parse_largeRoot : Template.parse .identity "x{{>a:}}".toList = .ok largeRoot :=
  parse_readAs (by cbv) rfl

/-- The engine after the page has been compiled, and its markup changed. -/
def pageAfter : Engine :=
  (installed (pageEngine [] []) pageRoot firstPage).put ['a', ':'] ['z']

/-- A source that needs the page is compiled into a scope that does not have it for a partial. -/
theorem succeeds_of_peek {e : Engine} {source text : Text} {nodes : List Node} {origin : Origin}
    (ht : Template.parse .identity source = .ok (readAs source nodes [['a', ':']]))
    (hp : e.peek ['a', ':'] = .ok (page origin text)) (hx : e.expander = .identity)
    (hown : e.main.partials.find? ['a', ':'] = none) (hf : Engine.isFresh e.main source = true)
    (ha : (e.main.install e.objection (readAs source nodes [['a', ':']])
      [(['a', ':'], page origin text)]).1 = .ok ⟨Alias.ofRoot source, e.main.made⟩) :
    Succeeds e source (readAs source nodes [['a', ':']]) [(['a', ':'], page origin text)] where
  fresh := hf
  parsed := by
    rw [Engine.parse, hx, ht]
    rfl
  resolved := resolve_of_resolution (resolution_page (loader_of_peek hown rfl hp))
  accepted := ha

/-- The page has not been fetched before. -/
theorem succeeds_of_pending {e : Engine} {source : Text} {nodes : List Node}
    (ht : Template.parse .identity source = .ok (readAs source nodes [['a', ':']]))
    (hx : e.expander = .identity) (hs : e.escaper = .default)
    (hm : e.content.markup ['a', ':'] = .ok ['y']) (htask : e.fetches.task ['a', ':'] = ⟨['a', ':'], 0, 0⟩)
    (hn : e.fetches.outcome? ⟨['a', ':'], 0, 0⟩ = none) (hown : e.main.partials.find? ['a', ':'] = none)
    (hf : Engine.isFresh e.main source = true)
    (ha : (e.main.install e.objection (readAs source nodes [['a', ':']]) firstPage).1 =
      .ok ⟨Alias.ofRoot source, e.main.made⟩) :
    Succeeds e source (readAs source nodes [['a', ':']]) firstPage :=
  succeeds_of_peek ht (peek_page htask rfl hn hx hs hm (by cbv) (by cbv)) hx hown hf ha

theorem succeeds_page : Succeeds (pageEngine [] []) "{{>a:}}".toList pageRoot firstPage :=
  succeeds_of_pending parse_pageRoot rfl rfl rfl rfl rfl rfl rfl rfl

/-- Without a purge the page is found again as it was. -/
theorem succeeds_again : Succeeds pageAfter "x{{>a:}}".toList largeRoot firstPage := by
  have hset := (succeeds_page.finds (s := start (pageEngine [] [])) rfl).settled
    (succeeds_page.returns rfl) rfl rfl (k := ['a', ':']) rfl
  rw [succeeds_page.engine_step rfl] at hset
  have hp : pageAfter.peek ['a', ':'] = .ok (page (.fetched ⟨['a', ':'], 0, 0⟩) ['y']) := by
    rw [Engine.peek_eq]
    exact congrArg (Option.getD · _) hset
  exact succeeds_of_peek parse_largeRoot hp rfl rfl rfl rfl

/-- After a purge it is fetched again, and has changed. -/
theorem succeeds_changed : Succeeds pageAfter.purge "x{{>a:}}".toList largeRoot secondPage :=
  succeeds_of_peek parse_largeRoot (peek_page rfl rfl rfl rfl rfl rfl (by cbv) (by cbv)) rfl rfl rfl rfl

/-- The name by which the runtime calls `a:`. -/
def pageName : Text := "tpl_bfc622d4a6d410f2".toList

theorem ofReference_page : Alias.ofReference ['a', ':'] = pageName := by decide +kernel

/-- The session after the page has been compiled, and its markup changed. -/
def pageSession : Session :=
  (start (pageEngine [] [])).run [.compile 0 "{{>a:}}".toList, .put ['a', ':'] ['z']]

theorem engine_pageSession : pageSession.engine = pageAfter := by
  change ((start (pageEngine [] [])).step (.compile 0 "{{>a:}}".toList)).engine.put ['a', ':'] ['z'] = _
  rw [succeeds_page.engine_step rfl]
  rfl

def pageSteps : List Step :=
  [.compile 0 "{{>a:}}".toList, .put ['a', ':'] ['z'], .compile 0 "x{{>a:}}".toList]

theorem metAll_pageSteps : (start (pageEngine [] [])).metAll pageSteps = [['a', ':'], ['a', ':']] :=
  succeeds_page.metAll_between (x := .put ['a', ':'] ['z']) rfl engine_pageSession succeeds_again

theorem distinct_pageSteps :
    Alias.Distinct ((start (pageEngine [] [])).metAll pageSteps)
      (pageSteps.filterMap Step.compiled?) := by
  rw [metAll_pageSteps]
  exact ⟨⟨by decide +kernel, by decide +kernel⟩, by decide +kernel⟩

/-- The name of the compiled page. -/
def pageCompiled : Compiled := ⟨Alias.ofRoot "{{>a:}}".toList, 0⟩

/-- The scope that has compiled the page. -/
def pageScope : Scope := (installed (pageEngine [] []) pageRoot firstPage).main

/-- The names that rendering the compiled page comes across. -/
def pageNames : List Text := [pageCompiled.name, pageName]

/-- A runtime for small pages. -/
def smallRuntime : Runtime := Render.runtime ⟨8, "too deep".toList⟩

/-- The compiled page inserts the page of `a:`, which inserts nothing. -/
theorem closed_pageScope : smallRuntime.Closed pageScope.registry pageNames := by
  decide +kernel

/-- The markup of the page has changed, and another source has been compiled that needs it; there was no
purge, and the page is rendered as it was. -/
theorem render_run_again : ∃ sc, ((start (pageEngine [] [])).run pageSteps).engine.scope? 0 = some sc ∧
    (sc.render smallRuntime (some pageCompiled) (.object [])).toOption = some ['y'] := by
  have hd := distinct_pageSteps
  obtain ⟨sc, sc', hs, hs', hlasts⟩ := (render_run start_pageEngine hd).1 []
    (.compile 0 "{{>a:}}".toList) [.put ['a', ':'] ['z'], .compile 0 "x{{>a:}}".toList] 0
    pageRoot firstPage pageCompiled rfl (succeeds_page.finds rfl) (succeeds_page.returns rfl)
  have he : ((start (pageEngine [] [])).step (.compile 0 "{{>a:}}".toList)).engine =
      installed (pageEngine [] []) pageRoot firstPage := succeeds_page.engine_step rfl
  obtain rfl : pageScope = sc := Option.some.inj ((congrArg (Engine.scope? · 0) he).symm.trans hs)
  have hreach (m : Text) (hm : smallRuntime.Reaches pageScope.registry pageCompiled.name m) :
      Alias.Reserved ((start (pageEngine [] [])).metAll pageSteps) (pageSteps.filterMap Step.compiled?)
        firstPage.keys pageRoot.source m := by
    have hmem := closed_pageScope.mem_of_reaches List.mem_cons_self hm
    rcases List.mem_pair.1 hmem with rfl | rfl
    · exact hd.reserved_root List.mem_cons_self
    · rw [← ofReference_page]
      refine hd.reserved_reference ?_ List.mem_cons_self
      rw [metAll_pageSteps]
      exact List.mem_cons_self
  have hagain := hlasts.render smallRuntime (Render.local_runtime _)
    (fun _ hp => absurd hp List.not_mem_nil)
    (fun k i hk => hlasts.refound k i hk (.inr (by decide)))
    (closed_pageScope.isFixed List.mem_cons_self) hreach (.object [])
  refine ⟨sc', hs', ?_⟩
  rw [hagain]
  decide +kernel

/-! ### Compiled templates that change -/

/-- The source that a scope has registered under a name. -/
def sourceOf (m : Text) (sc : Scope) (_ : Compiled) : Option Text :=
  (sc.registry.find? m).map Callable.source

/-- The text of a compiled template over data. -/
def textOver (rt : Runtime) (data : Json) (sc : Scope) (c : Compiled) : Option Text :=
  (sc.render rt (some c) data).toOption

/-- A compiled template with this source stands in a scope in which `text` is registered for the page. -/
def Shows (sc : Scope) (c : Compiled) (source : Text) (text : Option Text) : Prop :=
  sc.runtimeHelpers.find? "lookup".toList = none ∧ sc.registry.find? c.name = some ⟨source, true⟩ ∧
    sourceOf pageName sc c = text ∧ text.all (List.all · Char.isAlphanum) = true

instance (sc : Scope) (c : Compiled) (source : Text) (text : Option Text) :
    Decidable (Shows sc c source text) :=
  inferInstanceAs (Decidable (_ ∧ _ ∧ _ ∧ _))

/-- A runtime that inserts the page writes what is registered for it. -/
theorem Shows.text {rt : Runtime} {source : Text} {data : Json} {sc : Scope} {c : Compiled}
    {text : Option Text} (h : Shows sc c source text) (hrt : rt.Inserts source pageName data) :
    textOver rt data sc c = text := by
  obtain ⟨hhelpers, hroot, hsource, htext⟩ := h
  obtain ⟨hok, herror⟩ := hrt sc.runtimeHelpers sc.registry c.name hhelpers hroot
  rw [textOver, Scope.render]
  rw [sourceOf] at hsource
  cases hp : sc.registry.find? pageName with
  | none =>
    obtain ⟨reason, hr⟩ := herror hp
    rw [hp] at hsource
    rw [hr, ← hsource]
    rfl
  | some d =>
    rw [hp] at hsource
    obtain rfl : some d.source = text := hsource
    rw [hok d.source d.isRoot (List.all_eq_true.1 htext) hp]
    rfl

/-- What is seen of a scope and of the template that a step has compiled in it is `old` at once, and `new`
after more steps. -/
def Changes (s : Session) (a : Step) (more : List Step) (view : Scope → Compiled → Option Text)
    (old new : Option Text) : Prop :=
  ∃ c sc sc', s.Returns 0 a (.ok (some c)) ∧ (s.step a).engine.scope? 0 = some sc ∧
    ((s.step a).run more).engine.scope? 0 = some sc' ∧ view sc c = old ∧ view sc' c = new

/-- After a first compilation and some other steps there is a second compilation. -/
theorem changes_of_succeeds {e e' : Engine} {source source' : Text} {root root' : Template}
    {deps deps' : Table Instance} {view : Scope → Compiled → Option Text} {old new : Option Text}
    (more : List Step) (h : Succeeds e source root deps)
    (he : (((start e).step (.compile 0 source)).run more).engine = e')
    (h' : Succeeds e' source' root' deps')
    (hold : view (installed e root deps).main ⟨Alias.ofRoot source, e.main.made⟩ = old)
    (hnew : view (installed e' root' deps').main ⟨Alias.ofRoot source, e.main.made⟩ = new) :
    (start e).Changes (.compile 0 source) (more ++ [.compile 0 source']) view old new := by
  refine ⟨_, (installed e root deps).main, (installed e' root' deps').main, h.returns rfl, ?_, ?_,
    hold, hnew⟩
  · rw [h.engine_step rfl]
    rfl
  · rw [run_append]
    exact congrArg (Engine.scope? · 0) (h'.engine_step he)

/-- The page is compiled right after. -/
theorem changes_of_page {e : Engine} {source : Text} {root : Template} {deps : Table Instance}
    {view : Scope → Compiled → Option Text} {old new : Option Text} (h : Succeeds e source root deps)
    (h' : Succeeds (installed e root deps) "{{>a:}}".toList pageRoot firstPage)
    (hold : view (installed e root deps).main ⟨Alias.ofRoot source, e.main.made⟩ = old)
    (hnew : view (installed (installed e root deps) pageRoot firstPage).main
      ⟨Alias.ofRoot source, e.main.made⟩ = new) :
    (start e).Changes (.compile 0 source) [.compile 0 "{{>a:}}".toList] view old new :=
  changes_of_succeeds [] h (h.engine_step rfl) h' hold hnew

/-- A compilation that comes across nothing. -/
theorem succeeds_bare {e : Engine} {source : Text} {nodes : List Node} (hx : e.expander = .identity)
    (hn : Stencil.parse source = .ok nodes) (hr : Template.dependencyKeys .identity nodes = [])
    (hf : Engine.isFresh e.main source = true)
    (ha : (e.main.install e.objection (readAs source nodes []) []).1 =
      .ok ⟨Alias.ofRoot source, e.main.made⟩) :
    Succeeds e source (readAs source nodes []) [] where
  fresh := hf
  parsed := by rw [Engine.parse, hx, parse_readAs hn hr]; rfl
  resolved := resolve_of_resolution (resolution_nil _)
  accepted := ha

/-- A source that names the page by a computation. -/
def computedSource : Text :=
  open2 ++ ">(lookup . \"p\")".toList ++ close2

def computedRoot : Template :=
  readAs computedSource [.invocation (.computed ⟨3, "(lookup . \"p\")".toList⟩) []] []

theorem succeeds_computed : Succeeds (pageEngine [] []) computedSource computedRoot [] :=
  succeeds_bare rfl (by cbv) rfl rfl rfl

/-- A source that declares a partial by the runtime name of the page, after it has inserted it. -/
def declaredSource : Text :=
  open2 ++ '>' :: pageName ++ close2 ++
    open2 ++ "#*inline \"".toList ++ pageName ++ ['"'] ++ close2 ++ ['w'] ++
    open2 ++ "/inline".toList ++ close2

def declaredRoot : Template :=
  readAs declaredSource [.invocation (.fixed ⟨3, pageName⟩) [],
    .decoratorBlock "inline".toList ('"' :: pageName ++ ['"']) [.text ['w']]] []

theorem succeeds_declared : Succeeds (pageEngine [] []) declaredSource declaredRoot [] :=
  succeeds_bare rfl (by cbv) rfl rfl rfl

/-- A partial that is spelled as the runtime calls `a:`. -/
def spelledPartial : Table Instance := [(pageName, page .given ['w'])]

def spelledEngine : Engine := pageEngine spelledPartial [(pageName, ⟨['w'], false⟩)]

theorem start_spelledEngine : Engine.start .identity .default [] (fun _ => none) .memory
    [(['a', ':'], ['y'])] [(pageName, ['w'])] = .ok spelledEngine := by cbv

def spelledRoot : Template :=
  readAs (open2 ++ '>' :: pageName ++ close2) [.invocation (.fixed ⟨3, pageName⟩) []] [pageName]

theorem succeeds_spelled :
    Succeeds spelledEngine (open2 ++ '>' :: pageName ++ close2) spelledRoot spelledPartial where
  fresh := rfl
  parsed := congrArg (Except.mapError _) (parse_readAs (by cbv) rfl)
  resolved := resolve_of_resolution (resolution_page rfl)
  accepted := rfl

/-- A helper that writes the source which is registered for the page. -/
def peeking : Helper :=
  fun g _ => .ok (((g.find? pageName).map Callable.source).getD [])

/-- An engine with markup for `a:` and a helper that looks at the registry. -/
def peekingEngine : Engine :=
  { pageEngine [] [] with
    helpers := [(['h'], peeking)], main := ⟨[], [(['h'], peeking)], none, [], [], 0⟩ }

theorem start_peekingEngine : Engine.start .identity .default [(['h'], peeking)] (fun _ => none) .memory
    [(['a', ':'], ['y'])] [] = .ok peekingEngine := rfl

def peekingRoot : Template :=
  readAs (open2 ++ 'h' :: close2) [.expression ['h'] true] []

theorem succeeds_peeking : Succeeds peekingEngine (open2 ++ 'h' :: close2) peekingRoot [] :=
  succeeds_bare rfl (by cbv) rfl rfl rfl

/-- The page is fetched anew after a purge, when another source is compiled. -/
theorem changes_of_purge {view : Scope → Compiled → Option Text} {old new : Option Text}
    (hold : view pageScope pageCompiled = old)
    (hnew : view (installed pageAfter.purge largeRoot secondPage).main pageCompiled = new) :
    (start (pageEngine [] [])).Changes (.compile 0 "{{>a:}}".toList)
      [.put ['a', ':'] ['z'], .purge, .compile 0 "x{{>a:}}".toList] view old new :=
  changes_of_succeeds [.put ['a', ':'] ['z'], .purge] succeeds_page
    (congrArg Engine.purge engine_pageSession) succeeds_changed hold hnew

/-- What is registered for the page changes, and with it the text of a compiled template that has the source
`source` in the registry, for every runtime which inserts the page by that source over the data.  The runtime
of the program is one. -/
def Rewrites (s : Session) (a : Step) (more : List Step) (source : Text) (data : Json)
    (old new : Option Text) : Prop :=
  smallRuntime.Inserts source pageName data ∧ s.Changes a more (sourceOf pageName) old new ∧
    ∀ rt : Runtime, rt.Inserts source pageName data → s.Changes a more (textOver rt data) old new

theorem rewrites_of_shows {s : Session} {a : Step} {more : List Step} {root : Template} {data : Json}
    {before after : Scope} {c : Compiled} {old new : Option Text}
    (hread : (Render.Page.read? true root.runtimeSource).bind (Render.Page.inserts? data) = some pageName)
    (h : Shows before c root.runtimeSource old) (h' : Shows after c root.runtimeSource new)
    (changes : ∀ view : Scope → Compiled → Option Text, view before c = old → view after c = new →
      s.Changes a more view old new) :
    s.Rewrites a more root.runtimeSource data old new :=
  ⟨Render.inserts_runtime (by decide) hread, changes _ h.2.2.1 h'.2.2.1,
    fun _ hrt => changes _ (h.text hrt) (h'.text hrt)⟩

/-- A call of a helper that looks at the registry comes to what is registered for the page. -/
theorem textOver_peeking {rt : Runtime} {sc : Scope} {c : Compiled} {data : Json}
    (hrt : rt.Calls ⟨peekingRoot.runtimeSource, true⟩ ['h'] [])
    (hh : sc.runtimeHelpers.find? ['h'] = some peeking)
    (hc : sc.registry.find? c.name = some ⟨peekingRoot.runtimeSource, true⟩) :
    textOver rt data sc c = some ((sourceOf pageName sc c).getD []) := by
  rw [textOver, Scope.render, hrt _ _ _ _ data hh hc]
  rfl

/-- A compiled template is not a snapshot.  The entry of what it depends on changes when that is fetched anew
after a purge, and a partial of the scope gives way to a reference with the same name in the registry; what
is rendered changes with them.  It also changes with what is compiled later if the template computes the name,
or inserts by that name a partial that it has not declared yet, or if a helper looks at the registry. -/
theorem render_changed :
    (Engine.start .identity .default [] (fun _ => none) .memory [(['a', ':'], ['y'])] [] =
        .ok (pageEngine [] []) ∧
      Engine.start .identity .default [] (fun _ => none) .memory [(['a', ':'], ['y'])]
        [(pageName, ['w'])] = .ok spelledEngine ∧
      Engine.start .identity .default [(['h'], peeking)] (fun _ => none) .memory
        [(['a', ':'], ['y'])] [] = .ok peekingEngine) ∧
    (Alias.ofReference ['a', ':'] = pageName ∧ Alias.ofReference pageName = pageName) ∧
    (start (pageEngine [] [])).Rewrites (.compile 0 "{{>a:}}".toList)
      [.put ['a', ':'] ['z'], .purge, .compile 0 "x{{>a:}}".toList]
      pageRoot.runtimeSource (.object []) (some ['y']) (some ['z']) ∧
    (start spelledEngine).Rewrites (.compile 0 (open2 ++ '>' :: pageName ++ close2))
      [.compile 0 "{{>a:}}".toList] spelledRoot.runtimeSource (.object []) (some ['w']) (some ['y']) ∧
    (start (pageEngine [] [])).Rewrites (.compile 0 computedSource) [.compile 0 "{{>a:}}".toList]
      computedRoot.runtimeSource (.object [(['p'], .string pageName)]) none (some ['y']) ∧
    (start (pageEngine [] [])).Rewrites (.compile 0 declaredSource) [.compile 0 "{{>a:}}".toList]
      declaredRoot.runtimeSource (.object []) none (some ['y']) ∧
    smallRuntime.Calls ⟨peekingRoot.runtimeSource, true⟩ ['h'] [] ∧
    ∀ rt : Runtime, rt.Calls ⟨peekingRoot.runtimeSource, true⟩ ['h'] [] →
      (start peekingEngine).Changes (.compile 0 (open2 ++ 'h' :: close2)) [.compile 0 "{{>a:}}".toList]
        (textOver rt (.object [])) (some []) (some ['y']) := by
  refine ⟨⟨start_pageEngine, start_spelledEngine, start_peekingEngine⟩,
    ⟨ofReference_page, by decide⟩, ?_, ?_, ?_, ?_, Render.calls_runtime (by decide) (by decide +kernel),
    fun rt hrt => ?_⟩
  · exact rewrites_of_shows (by decide +kernel) (by decide +kernel) (by decide +kernel)
      fun _ => changes_of_purge
  · exact rewrites_of_shows (by decide +kernel) (by decide +kernel) (by decide +kernel) fun _ =>
      changes_of_page succeeds_spelled (succeeds_of_pending parse_pageRoot rfl rfl rfl rfl rfl rfl rfl rfl)
  · exact rewrites_of_shows (by decide +kernel) (by decide +kernel) (by decide +kernel) fun _ =>
      changes_of_page succeeds_computed (succeeds_of_pending parse_pageRoot rfl rfl rfl rfl rfl rfl rfl rfl)
  · exact rewrites_of_shows (by decide +kernel) (by decide +kernel) (by decide +kernel) fun _ =>
      changes_of_page succeeds_declared (succeeds_of_pending parse_pageRoot rfl rfl rfl rfl rfl rfl rfl rfl)
  · refine changes_of_page succeeds_peeking
      (succeeds_of_pending parse_pageRoot rfl rfl rfl rfl rfl rfl rfl rfl)
      ((textOver_peeking hrt rfl ?_).trans ?_) ((textOver_peeking hrt rfl ?_).trans ?_)
    all_goals decide +kernel

end Session

end Stencil
