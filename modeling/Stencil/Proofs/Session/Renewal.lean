import Stencil.Proofs.Resolution.Image
import Stencil.Proofs.Session.Snapshot
/-!
The main scope after a purge, beside that of an engine that starts anew.

A purge opens an epoch of which no task is settled (`Dated`), so every fetch comes to what the service has
now, and the two engines find the same templates (`SameTemplates`).  A compilation is then answered alike.
What differs is the registry, for a purge takes nothing out of it.  But the root and its dependencies are
registered again, and the partials of the scope have stayed (`renewed_purgeAll`).  So every local runtime
renders alike what was compiled, unless it comes across an entry that was left behind by its name
(`stale_after_purgeAll`).
-/

namespace Stencil

/-- The templates of instances. -/
def Instance.templates (deps : Table Instance) : Table Template :=
  deps.map fun p => (p.1, p.2.template)

namespace Scope

variable {sc sc' : Scope} {deps deps' : Table Instance}

theorem foreign_congr (hown : sc'.partials = sc.partials)
    (hdeps : Instance.templates deps' = Instance.templates deps) :
    sc'.foreign deps' = sc.foreign deps := by
  have hf (sc : Scope) (deps : Table Instance) :
      sc.foreign deps = (Instance.templates deps).filter fun p => !sc.partials.contains p.1 := by
    rw [foreign, Instance.templates, List.filter_map]
    rfl
  rw [hf, hf, hown, hdeps]

/-- Whether the runtime takes a root and its dependencies is no matter of what is registered. -/
theorem install_congr (objection : Objection) (root : Template) (hown : sc'.partials = sc.partials)
    (hdeps : Instance.templates deps' = Instance.templates deps) :
    (sc'.install objection root deps').1.map Compiled.name =
      (sc.install objection root deps).1.map Compiled.name := by
  have hadd (g g' : Registry) (t : Table Template) :
      (g'.addAll objection t).2 = (g.addAll objection t).2 := by
    induction t generalizing g g' with
    | nil => rfl
    | cons p t ih =>
      unfold Registry.addAll Registry.addPartial Registry.add
      cases objection p.2.runtimeSource with
      | some reason => rfl
      | none => exact ih _ _
  have ha := hadd sc.registry sc'.registry (sc.foreign deps)
  unfold install
  rw [foreign_congr hown hdeps]
  generalize sc'.registry.addAll objection (sc.foreign deps) = p',
    sc.registry.addAll objection (sc.foreign deps) = p at ha
  obtain ⟨g', r'⟩ := p'
  obtain ⟨g, r⟩ := p
  obtain rfl : r' = r := ha
  cases r' with
  | error err => rfl
  | ok _ =>
    simp only [Registry.add]
    cases objection root.runtimeSource <;> rfl

end Scope

namespace Engine

variable {e e' : Engine}

/-- The engine with this markup on the shelf, and no calls. -/
def withShelf (e : Engine) (shelf : Table Text) : Engine :=
  { e with content := ⟨e.content.service, shelf, []⟩ }

/-! ## Tasks and epochs -/

/-- Tasks that are settled, and those that requests are given, are of the present epoch or of an earlier
one. -/
structure Dated (e : Engine) : Prop where
  settled : ∀ t o, e.fetches.outcome? t = some o → t.epoch ≤ e.fetches.epoch
  task : ∀ r, (e.fetches.task r).epoch ≤ e.fetches.epoch

namespace Dated

theorem of_sameSources (h : e.Dated) (hs : e.SameSources e') : e'.Dated := by
  obtain ⟨-, hf⟩ := hs
  constructor
  all_goals rw [hf]
  · exact h.settled
  · exact h.task

theorem request (h : e.Dated) (r : Text) : (e.request r).2.Dated := by
  have hp : (e.request r).2.fetches.epoch = e.fetches.epoch := Fetches.epoch_request e.fetches r
  have ht : (e.request r).2.fetches.task = e.fetches.task := Fetches.task_request e.fetches r
  constructor
  · intro t o ho
    rw [hp]
    exact h.settled t o ((Fetches.outcome?_request e.fetches r t).symm.trans ho)
  · rw [hp, ht]
    exact h.task

theorem await (h : e.Dated) {t : Task} (ht : t.epoch ≤ e.fetches.epoch) : (e.await t).2.Dated := by
  constructor
  · intro u o ho
    rw [epoch_await]
    rw [outcome?_await] at ho
    split at ho
    · next hu => rwa [hu]
    · exact h.settled u o ho
  · rw [epoch_await, task_await]
    exact h.task

theorem fetch (h : e.Dated) (r : Text) : (e.fetch r).2.Dated := by
  refine (h.request r).await ?_
  rw [show (e.request r).2.fetches.epoch = e.fetches.epoch from Fetches.epoch_request e.fetches r]
  exact h.task r

theorem fetchAll (h : e.Dated) (rs : List Text) : (e.fetchAll rs).Dated := by
  induction rs generalizing e with
  | nil => exact h
  | cons r rs ih => exact ih (h.fetch r)

theorem purge (h : e.Dated) : e.purge.Dated where
  settled t o ho := Nat.le_succ_of_le (h.settled t o ho)
  task _ := Nat.le_refl _

/-- After a purge every fetch comes to what the service has now. -/
theorem peek_purge (h : e.Dated) (r : Text) :
    e.purge.peek r = e.purge.evaluate (e.purge.fetches.task r) := by
  rw [peek_eq]
  cases ho : e.purge.fetches.outcome? (e.purge.fetches.task r) with
  | none => rfl
  | some o =>
    have hle : e.fetches.epoch + 1 ≤ e.fetches.epoch := h.settled _ o ho
    omega

end Dated

/-- An engine keeps its escaper and its content service. -/
theorem frame_source :
    Frame fun e e' => e'.escaper = e.escaper ∧ e'.content.service = e.content.service where
  refl _ := ⟨rfl, rfl⟩
  trans h h' := ⟨h'.1.trans h.1, h'.2.trans h.2⟩
  setScope _ n _ := by cases n <;> exact ⟨rfl, rfl⟩
  built _ _ := ⟨rfl, rfl⟩
  request _ _ := ⟨rfl, rfl⟩
  await e t := by
    unfold await
    split
    · exact ⟨rfl, rfl⟩
    · exact ⟨rfl, Content.service_asked _ _⟩
  put _ _ _ := ⟨rfl, rfl⟩
  remove _ _ := ⟨rfl, rfl⟩

/-! ## Engines with the same templates -/

/-- The engines read alike, and every fetch comes to the same template in both or to the same error. -/
structure SameTemplates (e e' : Engine) : Prop where
  expander : e'.expander = e.expander
  objection : e'.objection = e.objection
  peek : ∀ r, (e'.peek r).map Instance.template = (e.peek r).map Instance.template

/-- The template of a task is no matter of its epoch. -/
theorem template_evaluate {t t' : Task} (ht : t'.identifier = t.identifier)
    (hm : e'.content.markup = e.content.markup) (hs : e'.escaper = e.escaper)
    (hx : e'.expander = e.expander) :
    (e'.evaluate t').map Instance.template = (e.evaluate t).map Instance.template := by
  rw [evaluate_congr hm hs hx]
  unfold evaluate
  cases hmarkup : e.content.markup t.identifier with
  | error messages => simp only [ht, hmarkup]
  | ok markup =>
    cases hescape : e.escaper.escape markup with
    | error d => simp only [ht, hmarkup, hescape]
    | ok source =>
      cases hparse : Template.parse e.expander source with
      | error err => simp only [ht, hmarkup, hescape, hparse]
      | ok template => simp only [ht, hmarkup, hescape, hparse, Except.map]

namespace SameTemplates

variable {sc sc' : Scope} {root : Template} {source : Text}

theorem answer (h : e.SameTemplates e') (hown : sc'.partials = sc.partials) (r : Text) :
    ((e'.loader sc').answer r).map Instance.template =
      ((e.loader sc).answer r).map Instance.template := by
  simp only [loader, hown]
  cases sc.partials.find? r with
  | some p => rfl
  | none =>
    cases Reference.isRemote r with
    | false => rfl
    | true => exact h.peek r

theorem resolve (h : e.SameTemplates e') (hown : sc'.partials = sc.partials) (root : Template) :
    (e'.resolve sc' root).1.map Instance.templates = (e.resolve sc root).1.map Instance.templates := by
  have hreferences (i : Instance) : Template.references i.template = i.references := rfl
  have hrun : (e'.resolution sc' root).map Instance.template =
      (e.resolution sc root).map Instance.template :=
    Resolution.map_run_congr hreferences rfl (h.answer hown)
  have hresult := congrArg Resolution.result hrun
  rw [Resolution.result_map, Resolution.result_map] at hresult
  exact hresult

/-- Two scopes with the same partials are answered alike when they compile what neither has on record. -/
theorem compileNew (h : e.SameTemplates e') (hown : sc'.partials = sc.partials) (n : Nat)
    (source : Text) :
    (e'.compileNew n sc' source (e'.resolve sc')).1.map (Option.map Compiled.name) =
      (e.compileNew n sc source (e.resolve sc)).1.map (Option.map Compiled.name) := by
  have hp : e'.parse source = e.parse source := by rw [Engine.parse, Engine.parse, h.expander]
  have hobj (root : Template) :
      (e'.resolve sc' root).2.objection = (e.resolve sc root).2.objection := by
    rw [(frame_config.resolve e' sc' root).2, (frame_config.resolve e sc root).2, h.objection]
  unfold Engine.compileNew
  rw [hp]
  cases e.parse source with
  | error err => rfl
  | ok root =>
    have hr := h.resolve hown root
    have ho := hobj root
    simp only
    generalize e'.resolve sc' root = p', e.resolve sc root = p at hr ho ⊢
    obtain ⟨r', e₁'⟩ := p'
    obtain ⟨r, e₁⟩ := p
    cases r with
    | error err =>
      obtain rfl : r' = .error err := Except.map_eq_error_iff.1 hr
      rfl
    | ok deps =>
      obtain ⟨deps', hd, hdeps⟩ := Except.map_eq_ok_iff.1 hr
      obtain rfl : r' = .ok deps' := hd
      have ho : e₁'.objection = e₁.objection := ho
      have hi := Scope.install_congr e₁.objection root hown hdeps
      simp only [ho]
      have hmap (x : Except TemplateError Compiled) :
          (x.map some).map (Option.map Compiled.name) = (x.map Compiled.name).map some := by
        cases x <;> rfl
      rw [hmap, hmap, hi]

end SameTemplates

end Engine

namespace Session

variable {s s' : Session} {n : Nat} {a : Step} {root : Template} {deps : Table Instance}
  {sc sc' : Scope} {c : Compiled} {source : Text}

/-! ## Sessions -/

/-- Tasks that are settled or held are of the present epoch or of earlier ones. -/
structure Dated (s : Session) : Prop where
  settled : s.engine.Dated
  held : ∀ t ∈ s.held, t.epoch ≤ s.engine.fetches.epoch

namespace Dated

theorem start {e : Engine} (h : e.fetches = .empty) : (start e).Dated := by
  refine ⟨⟨fun t o ho => ?_, fun r => ?_⟩, fun t ht => nomatch ht⟩
  · have ho : e.fetches.outcome? t = some o := ho
    rw [h] at ho
    cases ho
  · have hr : (e.fetches.task r).epoch ≤ e.fetches.epoch := by
      rw [h]
      exact Nat.le_refl 0
    exact hr

theorem of_engine (h : s.Dated) {e : Engine} (hd : e.Dated)
    (he : s.engine.fetches.epoch ≤ e.fetches.epoch) : Dated { s with engine := e } :=
  ⟨hd, fun t ht => Nat.le_trans (h.held t ht) he⟩

theorem of_sameSources (h : s.Dated) {e : Engine} (hs : s.engine.SameSources e) :
    Dated { s with engine := e } :=
  h.of_engine (h.settled.of_sameSources hs) (Nat.le_of_eq (congrArg Fetches.epoch hs.2.symm))

theorem resolved (h : s.Dated) (sc : Scope) {rs : List Text} {e : Engine}
    (hs : (s.engine.fetchAll rs).SameSources e) : (s.resolved sc rs e).Dated := by
  have he := Engine.frame_epoch.fetchAll s.engine rs
  have hd := h.of_engine (h.settled.fetchAll rs) (Nat.le_of_eq he.symm)
  have hr := hd.of_sameSources hs
  exact ⟨hr.settled, hr.held⟩

theorem step (h : s.Dated) (a : Step) : (s.step a).Dated := by
  cases a with
  | build base partials helpers owner =>
    simp only [Session.step]
    split
    · exact h
    · split
      · exact h
      · next hb => exact h.of_sameSources (Engine.sameSources_build hb)
  | compile n source =>
    simp only [Session.step]
    split
    · next sc _ _ hs hc => exact h.resolved sc (Engine.sameSources_compile hs hc)
    · exact h
  | compileLocal n source =>
    simp only [Session.step]
    split
    · next hc => exact h.of_sameSources (Engine.sameSources_compileLocal hc)
    · exact h
  | dependencies n source =>
    simp only [Session.step]
    split
    · next sc _ _ hs hd => exact h.resolved sc (Engine.sameSources_dependencies hs hd)
    · exact h
  | clear n =>
    simp only [Session.step]
    split
    · exact h.of_sameSources (Engine.sameSources_setScope _ _ _)
    · exact h
  | fetch r =>
    have hd := h.of_engine (h.settled.fetch r) (Nat.le_of_eq (Engine.epoch_fetch s.engine r).symm)
    exact ⟨hd.settled, hd.held⟩
  | hold r =>
    have he : (s.engine.request r).2.fetches.epoch = s.engine.fetches.epoch :=
      Fetches.epoch_request s.engine.fetches r
    refine ⟨h.settled.request r, fun t ht => ?_⟩
    rcases List.mem_append.1 ht with ht | ht
    · exact Nat.le_trans (h.held t ht) (Nat.le_of_eq he.symm)
    · rw [List.mem_singleton.1 ht]
      exact Nat.le_trans (h.settled.task r) (Nat.le_of_eq he.symm)
  | await place =>
    simp only [Session.step]
    split
    · next t ht =>
      have hd := h.of_engine (h.settled.await (h.held t (List.mem_of_getElem? ht)))
        (Nat.le_of_eq (Engine.epoch_await s.engine t).symm)
      exact ⟨hd.settled, hd.held⟩
    · exact h
  | put r markup => exact ⟨⟨h.settled.settled, h.settled.task⟩, h.held⟩
  | remove r => exact ⟨⟨h.settled.settled, h.settled.task⟩, h.held⟩
  | purge => exact ⟨h.settled.purge, fun t ht => Nat.le_succ_of_le (h.held t ht)⟩
  | purgeAll =>
    exact ⟨h.settled.purge.of_sameSources ⟨rfl, rfl⟩, fun t ht => Nat.le_succ_of_le (h.held t ht)⟩

theorem run (h : s.Dated) (steps : List Step) : (s.run steps).Dated := by
  induction steps generalizing s with
  | nil => exact h
  | cons a steps ih => exact ih (h.step a)

end Dated

/-! ## The engine that starts anew -/

variable {e₀ : Engine} {expander : Expander} {escaper : Escaper} {helpers : Table Helper}
  {objection : Objection} {service : Service} {shelf partials : Table Text} {steps : List Step}

theorem start_withShelf (shelf' : Table Text)
    (h₀ : Engine.start expander escaper helpers objection service shelf partials = .ok e₀) :
    Engine.start expander escaper helpers objection service shelf' partials =
      .ok (e₀.withShelf shelf') := by
  obtain ⟨d, main, hd, hm, rfl⟩ := Engine.of_start h₀
  exact Except.bind_eq_ok_iff.2 ⟨d, hd, Except.bind_eq_ok_iff.2 ⟨main, hm, rfl⟩⟩

/-- After a purge the engine finds the templates that one finds which starts with its content. -/
theorem sameTemplates_purgeAll (h₀ : e₀.fetches = .empty) (steps : List Step) :
    (e₀.withShelf ((start e₀).run steps).engine.content.shelf).SameTemplates
      ((start e₀).run steps).engine.purgeAll := by
  obtain ⟨hx, ho⟩ := Engine.frame_config.run (start e₀) steps (.inr fun _ => ⟨rfl, rfl⟩)
  obtain ⟨hs, hservice⟩ := Engine.frame_source.run (start e₀) steps (.inr fun _ => ⟨rfl, rfl⟩)
  have hdated := ((Dated.start h₀).run steps).settled
  generalize ((start e₀).run steps).engine = e at *
  refine ⟨hx, ho, fun r => ?_⟩
  have hpeek : e.purgeAll.peek r = e.purge.evaluate (e.purge.fetches.task r) := by
    have hp := hdated.peek_purge r
    rw [Engine.peek_eq] at hp ⊢
    exact hp
  have hnew : (e₀.withShelf e.content.shelf).peek r =
      (e₀.withShelf e.content.shelf).evaluate ⟨r, 0, 0⟩ := by
    have he : (e₀.withShelf e.content.shelf).fetches = .empty := h₀
    rw [Engine.peek_eq, he]
    rfl
  rw [hpeek, hnew]
  refine Engine.template_evaluate rfl ?_ hs hx
  funext q
  exact congrArg (fun service => Service.markup service e.content.shelf q) hservice

/-! ## Entries -/

/-- A name that a run registers nothing under keeps its entry. -/
theorem find?_run_of_ne {own : List Text} {one m : Text} (hs : s.engine.scope? n = some sc)
    (hm : Alias.Reserved (s.metAll steps) (steps.filterMap Step.compiled?) own one m)
    (hroot : m ≠ Alias.ofRoot one) (hown : ∀ k ∈ own, m ≠ Alias.ofReference k) :
    ∃ sc', (s.run steps).engine.scope? n = some sc' ∧
      sc'.registry.find? m = sc.registry.find? m := by
  refine find?_run hs fun first b rest sc₁ root deps d he hs₁ hf hi => ?_
  rcases hf.of_installs hs₁ hi (hf.keys_subset_metAll he) (hf.source_mem he) hm with
    ⟨he, -, -⟩ | ⟨k, hk, -, he, -, -⟩
  · exact absurd he hroot
  · exact absurd he (hown k hk)

/-- A compilation that succeeds leaves the entries of other names. -/
theorem Finds.find?_of_ne {m : Text} (h : s.Finds n a root deps) (hr : s.Returns n a (.ok (some c)))
    (hs : s.engine.scope? n = some sc) (hs' : (s.step a).engine.scope? n = some sc')
    (hroot : m ≠ Alias.ofRoot root.source) (hdeps : ∀ k ∈ deps.keys, m ≠ Alias.ofReference k) :
    sc'.registry.find? m = sc.registry.find? m := by
  obtain ⟨old, objection, hold, -, hnew⟩ := h.installed hr
  obtain rfl := Option.some.inj (hold.symm.trans hs)
  obtain rfl := Option.some.inj (hnew.symm.trans hs')
  exact Scope.find?_install_of_ne (fun k hk _ => (hdeps k hk).symm) hroot.symm

/-- What a compilation of a root in two scopes that are built alike has in common: the templates of the
dependencies, the entries of the root, of these and of the partials, and what is rendered if nothing else is
come across. -/
structure Renewed (references sources : List Text) (root : Template) (deps deps' : Table Instance)
    (c c' : Compiled) (last new : Scope) : Prop where
  draft : last.draft = new.draft
  dependencies : Instance.templates deps = Instance.templates deps'
  registered : last.registry.find? c.name = some ⟨root.runtimeSource, true⟩ ∧
    new.registry.find? c.name = some ⟨root.runtimeSource, true⟩
  provided (k : Text) (t : Template) : (Instance.templates deps).find? k = some t →
    last.registry.find? (Alias.ofReference k) = some ⟨t.runtimeSource, false⟩ ∧
      new.registry.find? (Alias.ofReference k) = some ⟨t.runtimeSource, false⟩
  own (k : Text) (i : Instance) : last.partials.find? k = some i →
    last.registry.find? (Alias.ofReference k) = some ⟨i.template.runtimeSource, false⟩ ∧
      new.registry.find? (Alias.ofReference k) = some ⟨i.template.runtimeSource, false⟩
  /-- A local runtime renders the template alike, provided that the sources it comes across name what they
  insert by fixed names, none of which belongs to a reference that is neither a dependency nor a partial, or
  to another root, and that no helper looks at the registry. -/
  render (rt : Runtime) : rt.Local → (∀ p ∈ new.helpers, Helper.Blind p.2) →
    rt.IsFixed new.registry c'.name →
    (∀ m, rt.Reaches new.registry c'.name m →
      Alias.Reserved references sources (deps.keys ++ last.partials.keys) root.source m) →
    ∀ data, last.render rt (some c) data = new.render rt (some c') data

theorem Finds.resolved (h : s.Finds n (.compile n source) root deps)
    (hs : s.engine.scope? n = some sc) :
    s.engine.parse source = .ok root ∧ (s.engine.resolve sc root).1 = .ok deps := by
  obtain ⟨ha, hs', -, hp, hd⟩ := h
  obtain rfl := Option.some.inj (hs'.symm.trans hs)
  cases ha with
  | compile => exact ⟨hp, hd⟩

/-- Engines with the same templates find the same. -/
theorem Finds.templates_eq {root' : Template} {deps' : Table Instance}
    (h : s.Finds n (.compile n source) root deps) (h' : s'.Finds n (.compile n source) root' deps')
    (hsame : s'.engine.SameTemplates s.engine) (hs : s.engine.scope? n = some sc)
    (hs' : s'.engine.scope? n = some sc') (hown : sc.partials = sc'.partials) :
    root' = root ∧ Instance.templates deps = Instance.templates deps' := by
  obtain ⟨hp, hd⟩ := h.resolved hs
  obtain ⟨hp', hd'⟩ := h'.resolved hs'
  have hparse : s.engine.parse source = s'.engine.parse source := by
    rw [Engine.parse, Engine.parse, hsame.expander]
  obtain rfl := Except.ok.inj (hp'.symm.trans (hparse.symm.trans hp))
  refine ⟨rfl, ?_⟩
  have hr := hsame.resolve hown root'
  rw [hd, hd'] at hr
  exact Except.ok.inj hr

theorem keys_templates (deps : Table Instance) : (Instance.templates deps).keys = deps.keys := by
  simp [Instance.templates, Table.keys]

/-- What is found is registered, and so are the partials. -/
theorem Finds.entries (h : s.Finds n a root deps) (hr : s.Returns n a (.ok (some c)))
    (hsound : (s.step a).engine.Sound objection) (ha : Alias.Apart deps.keys [root.source])
    (hs : (s.step a).engine.scope? n = some sc) :
    c.name = Alias.ofRoot root.source ∧
      sc.registry.find? (Alias.ofRoot root.source) = some ⟨root.runtimeSource, true⟩ ∧
      (∀ k t, (Instance.templates deps).find? k = some t →
        sc.registry.find? (Alias.ofReference k) = some ⟨t.runtimeSource, false⟩) ∧
      ∀ k i, sc.partials.find? k = some i →
        sc.registry.find? (Alias.ofReference k) = some ⟨i.template.runtimeSource, false⟩ := by
  obtain ⟨hname, hroot, hdeps⟩ := h.registered hr hsound ha hs
  refine ⟨hname, hname ▸ hroot, fun k t hk => ?_, fun k i hk => (hsound.scopes n sc hs).kept.find? hk⟩
  rw [Instance.templates, Table.find?_map] at hk
  obtain ⟨i, hi, rfl⟩ := Option.map_eq_some_iff.1 hk
  exact hdeps k i hi

/-- Scopes that were built alike and have compiled a source have the same entries for the root, its
dependencies and the partials, and are alike to what else they agree on. -/
theorem renewed_of_finds {references sources : List Text} {deps' : Table Instance} {c' : Compiled}
    {a' : Step} {last new : Scope}
    (h : s.Finds n a root deps) (h' : s'.Finds n a' root deps') (hr : s.Returns n a (.ok (some c)))
    (hr' : s'.Returns n a' (.ok (some c'))) (hdeps : Instance.templates deps = Instance.templates deps')
    (ha : Alias.Apart deps.keys [root.source]) (hdraft : last.draft = new.draft)
    (hlast : (s.step a).engine.scope? n = some last) (hnew : (s'.step a').engine.scope? n = some new)
    (hsound : (s.step a).engine.Sound objection) (hsound' : (s'.step a').engine.Sound objection)
    (hsorted : last.registry.Sorted) (hsorted' : new.registry.Sorted)
    (hother : ∀ m, Alias.Reserved references sources (deps.keys ++ last.partials.keys) root.source m →
      m ≠ Alias.ofRoot root.source → (∀ k ∈ deps.keys ++ last.partials.keys, m ≠ Alias.ofReference k) →
      last.registry.find? m = new.registry.find? m) :
    Renewed references sources root deps deps' c c' last new := by
  have hkeys : deps'.keys = deps.keys := by rw [← keys_templates, ← hdeps, keys_templates]
  obtain ⟨hname, hroot, hprovided, hown⟩ := h.entries hr hsound ha hlast
  obtain ⟨hname', hroot', hprovided', hown'⟩ := h'.entries hr' hsound' (hkeys ▸ ha) hnew
  have hpartials : last.partials = new.partials := congrArg Draft.partials hdraft
  have provided (k : Text) (t : Template) (hk : (Instance.templates deps).find? k = some t) :
      last.registry.find? (Alias.ofReference k) = some ⟨t.runtimeSource, false⟩ ∧
        new.registry.find? (Alias.ofReference k) = some ⟨t.runtimeSource, false⟩ :=
    ⟨hprovided k t hk, hprovided' k t (hdeps ▸ hk)⟩
  have own (k : Text) (i : Instance) (hk : last.partials.find? k = some i) :
      last.registry.find? (Alias.ofReference k) = some ⟨i.template.runtimeSource, false⟩ ∧
        new.registry.find? (Alias.ofReference k) = some ⟨i.template.runtimeSource, false⟩ :=
    ⟨hown k i hk, hown' k i (hpartials ▸ hk)⟩
  have entry (m : Text)
      (hm : Alias.Reserved references sources (deps.keys ++ last.partials.keys) root.source m) :
      last.registry.find? m = new.registry.find? m := by
    by_cases hone : m = Alias.ofRoot root.source
    · rw [hone, hroot, hroot']
    by_cases hkey : ∃ k ∈ deps.keys ++ last.partials.keys, m = Alias.ofReference k
    · obtain ⟨k, hk, rfl⟩ := hkey
      rcases List.mem_append.1 hk with hk | hk
      · rw [← keys_templates] at hk
        obtain ⟨t, ht⟩ := Table.mem_keys_iff.1 hk
        rw [(provided k t ht).1, (provided k t ht).2]
      · obtain ⟨i, hi⟩ := Table.mem_keys_iff.1 hk
        rw [(own k i hi).1, (own k i hi).2]
    · exact hother m hm hone fun k hk he => hkey ⟨k, hk, he⟩
  constructor
  case draft => exact hdraft
  case dependencies => exact hdeps
  case registered => exact ⟨hname ▸ hroot, hname ▸ hroot'⟩
  case provided => exact provided
  case own => exact own
  case render =>
    intro rt hrt hblind hfixed hreach data
    have hr := Scope.render_congr hrt hsorted' hsorted (congrArg Draft.helpers hdraft) hblind hfixed
      (fun m hm => entry m (hreach m hm)) data
    rw [← hr]
    simp only [Scope.render, hname, hname']

/-- With nothing on record a compiled template comes from a compilation that found its dependencies. -/
theorem Returns.exists_finds (h : s.Returns n a (.ok (some c))) (hs : s.engine.scope? n = some sc)
    (hc : sc.compiled = []) : ∃ root deps, s.Finds n a root deps := by
  rcases h.finds_or_find? with hf | ⟨sc', source, hs', hfind⟩
  · exact hf
  · obtain rfl := Option.some.inj (hs.symm.trans hs')
    rw [hc] at hfind
    cases hfind

/-- A compilation that succeeds keeps an engine sound. -/
theorem Finds.sound_step (h : s.Finds n a root deps) (hr : s.Returns n a (.ok (some c)))
    (hsound : s.engine.Sound objection)
    (ha : Alias.Apart (s.engine.partialKeys ++ deps.keys) [root.source]) :
    (s.step a).engine.Sound objection := by
  have hsource := h.compiled?_eq
  rw [← h.met_eq] at ha
  obtain ⟨hcomp, hc⟩ := hr
  rw [engine_step_of_compiling hcomp hc]
  cases hcomp with
  | compile =>
    obtain rfl := Option.some.inj hsource
    exact hsound.compileBy hc hsound.resolve ha
  | compileLocal =>
    obtain rfl := Option.some.inj hsource
    exact hsound.compileBy hc (fun _ _ => hsound) ha

theorem returns_of_fresh (hs : s.engine.scope? n = some sc) (hne : source ≠ [])
    (hc : sc.compiled = []) :
    s.Returns n (.compile n source) (s.engine.compileNew n sc source (s.engine.resolve sc)).1 :=
  .intro (.compile n source)
    (Engine.compileBy_of_fresh hs (Engine.isFresh_eq_true_iff.2 ⟨hne, congrArg (Table.find? source) hc⟩))

theorem returns_nil (hs : s.engine.scope? n = some sc) : s.Returns n (.compile n []) (.ok none) :=
  .intro (.compile n []) (Engine.compileBy_of_stale hs rfl)

/-- The engine has come to the same templates as one that starts anew, and both have nothing on record. -/
structure Anew (s : Session) (new : Engine) : Prop where
  templates : new.SameTemplates s.engine
  draft : s.engine.main.draft = new.main.draft
  forgotten : s.engine.main.compiled = []
  clean : new.main.compiled = []

namespace Anew

variable {new : Engine}

/-- A purge of everything brings an engine to that. -/
theorem purgeAll
    (h₀ : Engine.start expander escaper helpers objection service shelf partials = .ok e₀)
    (before : List Step) :
    ∃ new, Engine.start expander escaper helpers objection service
        ((start e₀).run before).engine.content.shelf partials = .ok new ∧
      new.main = e₀.main ∧ new.partialKeys = e₀.partialKeys ∧
      Anew ((start e₀).run (before ++ [.purgeAll])) new := by
  refine ⟨_, start_withShelf _ h₀, rfl, rfl, ?_⟩
  have hempty : e₀.fetches = .empty := by
    obtain ⟨d, main, -, -, rfl⟩ := Engine.of_start h₀
    rfl
  have hclean : e₀.main.compiled = [] := by
    obtain ⟨d, hd⟩ := ofDraft_of_start h₀ (n := 0) rfl
    exact Scope.compiled_ofDraft hd
  obtain ⟨sc, hs, hdraft⟩ := sameDrafts_run (start e₀) before 0 e₀.main rfl
  obtain rfl := Option.some.inj hs
  rw [run_append]
  exact ⟨sameTemplates_purgeAll hempty before, hdraft, rfl, hclean⟩

theorem partials_eq (h : s.Anew new) : s.engine.main.partials = new.main.partials :=
  congrArg Draft.partials h.draft

/-- The two are answered alike. -/
theorem returns (h : s.Anew new) (source : Text) :
    ∃ o o', s.Returns 0 (.compile 0 source) o ∧ (start new).Returns 0 (.compile 0 source) o' ∧
      o.map (Option.map Compiled.name) = o'.map (Option.map Compiled.name) := by
  have hs : s.engine.scope? 0 = some s.engine.main := rfl
  have hs' : (start new).engine.scope? 0 = some new.main := rfl
  by_cases hne : source = []
  · subst hne
    exact ⟨_, _, returns_nil hs, returns_nil hs', rfl⟩
  · exact ⟨_, _, returns_of_fresh hs hne h.forgotten, returns_of_fresh hs' hne h.clean,
      h.templates.compileNew h.partials_eq 0 source⟩

/-- The two find the same root, and the same templates under the same keys. -/
theorem finds (h : s.Anew new) {c c' : Compiled} (hr : s.Returns 0 (.compile 0 source) (.ok (some c)))
    (hr' : (start new).Returns 0 (.compile 0 source) (.ok (some c'))) :
    ∃ root deps deps', s.Finds 0 (.compile 0 source) root deps ∧
      (start new).Finds 0 (.compile 0 source) root deps' ∧
      Instance.templates deps = Instance.templates deps' := by
  have hs : s.engine.scope? 0 = some s.engine.main := rfl
  have hs' : (start new).engine.scope? 0 = some new.main := rfl
  obtain ⟨root, deps, hf⟩ := hr.exists_finds hs h.forgotten
  obtain ⟨root', deps', hf'⟩ := hr'.exists_finds hs' h.clean
  obtain ⟨rfl, hdeps⟩ := hf.templates_eq hf' h.templates hs hs' h.partials_eq
  exact ⟨root', deps, deps', hf, hf', hdeps⟩

end Anew

/-- After a purge of everything the main scope compiles a source as that of an engine does which starts with
the content of the moment: with the same error, or with the same name, templates and entries. -/
theorem renewed_purgeAll {before : List Step}
    (h₀ : Engine.start expander escaper helpers objection service shelf partials = .ok e₀)
    (hsteps : steps = before ++ [.purgeAll, .compile 0 source])
    (ha : Alias.Distinct ((start e₀).metAll steps) (steps.filterMap Step.compiled?)) :
    ∃ new, Engine.start expander escaper helpers objection service
        ((start e₀).run before).engine.content.shelf partials = .ok new ∧
      ∃ o o', ((start e₀).run (before ++ [.purgeAll])).Returns 0 (.compile 0 source) o ∧
        (start new).Returns 0 (.compile 0 source) o' ∧
        o.map (Option.map Compiled.name) = o'.map (Option.map Compiled.name) ∧
        ∀ c c', o = .ok (some c) → o' = .ok (some c') → ∃ root deps deps',
          ((start e₀).run (before ++ [.purgeAll])).Finds 0 (.compile 0 source) root deps ∧
          (start new).Finds 0 (.compile 0 source) root deps' ∧
          Renewed ((start e₀).metAll steps) (steps.filterMap Step.compiled?) root deps deps' c c'
            ((start e₀).run steps).engine.main
            ((start new).step (.compile 0 source)).engine.main := by
  have hsplit : steps = (before ++ [.purgeAll]) ++ [.compile 0 source] := by
    rw [hsteps, List.append_assoc, List.singleton_append]
  have hend : ((start e₀).run (before ++ [.purgeAll])).step (.compile 0 source) =
      (start e₀).run steps := by
    rw [hsplit]
    exact (run_append _ _ [.compile 0 source]).symm
  obtain ⟨new, hnew, hmain, hkeys, hanew⟩ := Anew.purgeAll h₀ before
  obtain ⟨o, o', hr, hr', ho⟩ := hanew.returns source
  refine ⟨new, hnew, o, o', hr, hr', ho, ?_⟩
  rintro c c' rfl rfl
  obtain ⟨root, deps, deps', hf, hf', hdeps⟩ := hanew.finds hr hr'
  refine ⟨root, deps, deps', hf, hf', ?_⟩
  have hkeys' : deps'.keys = deps.keys := by rw [← keys_templates, ← hdeps, keys_templates]
  -- the names of both compilations are among those of the run
  have hreferences : deps.keys ⊆ (start e₀).metAll steps := hf.keys_subset_metAll hsplit
  have hpartials : new.partialKeys ⊆ (start e₀).metAll steps :=
    hkeys ▸ partialKeys_subset_metAll (start e₀) steps
  have hall : Alias.Apart ((start e₀).metAll steps) [root.source] :=
    ha.toApart.mono (List.Subset.refl _) (List.cons_subset.2 ⟨hf.source_mem hsplit, List.nil_subset _⟩)
  have hsound := sound_after_start h₀ (before ++ [.purgeAll]) (.compile 0 source) [] (hsplit ▸ ha.toApart)
  have hsound' : ((start new).step (.compile 0 source)).engine.Sound objection :=
    hf'.sound_step hr' (.start hnew (hall.mono hpartials (List.nil_subset _)))
      (hall.mono (List.append_subset.2 ⟨hpartials, hkeys' ▸ hreferences⟩) (List.Subset.refl _))
  have hlast : (((start e₀).run (before ++ [.purgeAll])).step (.compile 0 source)).engine.scope? 0 =
      some ((start e₀).run steps).engine.main := by
    rw [hend]
    rfl
  have hlast' : ((start new).step (.compile 0 source)).engine.scope? 0 =
      some ((start new).step (.compile 0 source)).engine.main := rfl
  have hdraft : ((start e₀).run steps).engine.main.draft =
      ((start new).step (.compile 0 source)).engine.main.draft := by
    obtain ⟨last, hs, hd⟩ := sameDrafts_run (start e₀) steps 0 e₀.main rfl
    obtain ⟨last', hs', hd'⟩ := sameDrafts_step (start new) (.compile 0 source) 0 new.main rfl
    rw [Option.some.inj hs, Option.some.inj hs', hd, hd', hmain]
  refine renewed_of_finds hf hf' hr hr' hdeps (hall.mono hreferences (List.Subset.refl _)) hdraft
    hlast hlast' hsound hsound' (sorted_registry_run h₀ (n := 0) steps rfl)
    (sorted_registry_run hnew [.compile 0 source] hlast') fun m hm hroot hkeep => ?_
  -- nothing else has been registered under such a name, so it has the entry of the start
  obtain ⟨last, hs, hentry⟩ := find?_run_of_ne (s := start e₀) (n := 0) rfl hm hroot hkeep
  obtain rfl := Option.some.inj hs
  have hstart : (start new).engine.scope? 0 = some e₀.main := congrArg some hmain
  have hentry' := hf'.find?_of_ne hr' hstart hlast' hroot fun k hk =>
    hkeep k (List.mem_append_left _ (hkeys' ▸ hk))
  exact hentry.trans hentry'.symm

/-! ### Compilations after a purge -/

/-- The session after the page has been compiled, and everything purged. -/
def purgedSession : Session :=
  (start (pageEngine [] [])).run [.compile 0 "{{>a:}}".toList, .purgeAll]

/-- Its engine. -/
def pagePurged : Engine :=
  (installed (pageEngine [] []) pageRoot firstPage).purgeAll

theorem engine_purgedSession : purgedSession.engine = pagePurged := by
  change ((start (pageEngine [] [])).step (.compile 0 "{{>a:}}".toList)).engine.purgeAll = _
  rw [succeeds_page.engine_step rfl]
  rfl

/-- The page as it is fetched after the purge. -/
def freshPage : Table Instance := [(['a', ':'], page (.fetched ⟨['a', ':'], 1, 0⟩) ['y'])]

theorem succeeds_purged : Succeeds pagePurged "x{{>a:}}".toList largeRoot freshPage :=
  succeeds_of_peek parse_largeRoot (peek_page rfl rfl rfl rfl rfl rfl (by cbv) (by cbv)) rfl rfl rfl rfl

/-- An engine that starts with the same content finds the page as well. -/
theorem succeeds_new : Succeeds (pageEngine [] []) "x{{>a:}}".toList largeRoot firstPage :=
  succeeds_of_pending parse_largeRoot rfl rfl rfl rfl rfl rfl rfl rfl

/-- The page is compiled, everything is purged, and a source is compiled that inserts the page. -/
def freshSteps : List Step :=
  [.compile 0 "{{>a:}}".toList, .purgeAll, .compile 0 "x{{>a:}}".toList]

theorem metAll_freshSteps : (start (pageEngine [] [])).metAll freshSteps = [['a', ':'], ['a', ':']] :=
  succeeds_page.metAll_between (x := .purgeAll) rfl engine_purgedSession succeeds_purged

/-- The page is fetched and registered again, as in a new engine.  The source inserts only the page, and the
runtime of the program renders it alike. -/
theorem renewed_purgeAll_page :
    Engine.start .identity .default [] (fun _ => none) .memory
      ((start (pageEngine [] [])).run [.compile 0 "{{>a:}}".toList]).engine.content.shelf [] =
        .ok (pageEngine [] []) ∧
    ∃ c, (start (pageEngine [] [])).Returns 0 (.compile 0 "x{{>a:}}".toList) (.ok (some c)) ∧
      ((start (pageEngine [] [])).run freshSteps).engine.main.registry.find? pageName =
        some ⟨['y'], false⟩ ∧
      ((start (pageEngine [] [])).step (.compile 0 "x{{>a:}}".toList)).engine.main.registry.find?
        pageName = some ⟨['y'], false⟩ ∧
      textOver smallRuntime (.object []) ((start (pageEngine [] [])).run freshSteps).engine.main
        ⟨Alias.ofRoot "x{{>a:}}".toList, 1⟩ = some ['x', 'y'] ∧
      textOver smallRuntime (.object [])
        ((start (pageEngine [] [])).step (.compile 0 "x{{>a:}}".toList)).engine.main c =
          some ['x', 'y'] := by
  have ha : Alias.Distinct ((start (pageEngine [] [])).metAll freshSteps)
      (freshSteps.filterMap Step.compiled?) := by
    rw [metAll_freshSteps]
    exact ⟨⟨by decide +kernel, by decide +kernel⟩, by decide +kernel⟩
  have hsteps : freshSteps =
      [.compile 0 "{{>a:}}".toList] ++ [.purgeAll, .compile 0 "x{{>a:}}".toList] := rfl
  obtain ⟨new, hnew, o, o', hr, hr', -, hall⟩ := renewed_purgeAll start_pageEngine hsteps ha
  have hshelf : ((start (pageEngine [] [])).run [.compile 0 "{{>a:}}".toList]).engine.content.shelf =
      [(['a', ':'], ['y'])] := by
    change ((start (pageEngine [] [])).step (.compile 0 "{{>a:}}".toList)).engine.content.shelf = _
    rw [succeeds_page.engine_step rfl]
    rfl
  rw [hshelf] at hnew ⊢
  obtain rfl := Except.ok.inj (start_pageEngine.symm.trans hnew)
  obtain rfl := hr.unique (succeeds_purged.returns engine_purgedSession)
  obtain rfl := hr'.unique (succeeds_new.returns rfl)
  obtain ⟨root, deps, deps', hf, -, hrenewed⟩ := hall _ _ rfl rfl
  obtain ⟨hp, hd⟩ := hf.resolved (n := 0) rfl
  obtain ⟨hp', hd'⟩ := (succeeds_purged.finds engine_purgedSession).resolved (n := 0) rfl
  obtain rfl := Except.ok.inj (hp.symm.trans hp')
  obtain rfl := Except.ok.inj (hd.symm.trans hd')
  have hentry := hrenewed.provided ['a', ':'] (readAs ['y'] [.text ['y']] []) rfl
  have htext : (readAs ['y'] [.text ['y']] []).runtimeSource = ['y'] := by cbv
  rw [ofReference_page, htext] at hentry
  have hengine : ((start (pageEngine [] [])).step (.compile 0 "x{{>a:}}".toList)).engine =
      installed (pageEngine [] []) largeRoot firstPage := succeeds_new.engine_step rfl
  rw [hengine] at hrenewed hentry ⊢
  -- the root and the page are all that is come across
  have hclosed : smallRuntime.Closed (installed (pageEngine [] []) largeRoot firstPage).main.registry
      [Alias.ofRoot "x{{>a:}}".toList, pageName] := by decide +kernel
  have hreserved : ∀ m ∈ [Alias.ofRoot "x{{>a:}}".toList, pageName],
      Alias.Reserved ((start (pageEngine [] [])).metAll freshSteps) (freshSteps.filterMap Step.compiled?)
        (freshPage.keys ++ ((start (pageEngine [] [])).run freshSteps).engine.main.partials.keys)
        "x{{>a:}}".toList m := by
    intro m hm
    rcases List.mem_pair.1 hm with rfl | rfl
    · exact ha.reserved_root (by decide)
    · rw [← ofReference_page]
      refine ha.reserved_reference ?_ List.mem_cons_self
      rw [metAll_freshSteps]
      exact List.mem_cons_self
  have hrender := hrenewed.render smallRuntime (Render.local_runtime _)
    (fun _ hp => absurd hp List.not_mem_nil) (hclosed.isFixed List.mem_cons_self)
    (fun m hm => hreserved m (hclosed.mem_of_reaches List.mem_cons_self hm)) (.object [])
  have hnew : textOver smallRuntime (.object []) (installed (pageEngine [] []) largeRoot firstPage).main
      ⟨Alias.ofRoot "x{{>a:}}".toList, 0⟩ = some ['x', 'y'] := by decide +kernel
  exact ⟨start_pageEngine, _, hr', hentry.1, hentry.2, (congrArg Except.toOption hrender).trans hnew, hnew⟩

/-- At last a source is compiled that inserts a partial by the runtime name of the page before it declares
it. -/
def staleSteps : List Step :=
  [.compile 0 "{{>a:}}".toList, .purgeAll, .compile 0 declaredSource]

theorem succeeds_stale : Succeeds pagePurged declaredSource declaredRoot [] :=
  succeeds_bare rfl (by cbv) rfl rfl rfl

theorem metAll_staleSteps : (start (pageEngine [] [])).metAll staleSteps = [['a', ':']] :=
  succeeds_page.metAll_between (x := .purgeAll) rfl engine_purgedSession succeeds_stale

/-- Or one that calls a helper which looks at the registry. -/
def peekingSteps : List Step :=
  [.compile 0 "{{>a:}}".toList, .purgeAll, .compile 0 (open2 ++ 'h' :: close2)]

theorem succeeds_peekingPage : Succeeds peekingEngine "{{>a:}}".toList pageRoot firstPage :=
  succeeds_of_pending parse_pageRoot rfl rfl rfl rfl rfl rfl rfl rfl

theorem engine_peekingPurged :
    ((start peekingEngine).run [.compile 0 "{{>a:}}".toList, .purgeAll]).engine =
      (installed peekingEngine pageRoot firstPage).purgeAll := by
  change ((start peekingEngine).step (.compile 0 "{{>a:}}".toList)).engine.purgeAll = _
  rw [succeeds_peekingPage.engine_step rfl]

theorem succeeds_peekingPurged : Succeeds (installed peekingEngine pageRoot firstPage).purgeAll
    (open2 ++ 'h' :: close2) peekingRoot [] :=
  succeeds_bare rfl (by cbv) rfl rfl rfl

theorem metAll_peekingSteps : (start peekingEngine).metAll peekingSteps = [['a', ':']] :=
  succeeds_peekingPage.metAll_between (x := .purgeAll) rfl engine_peekingPurged succeeds_peekingPurged

/-- The page is compiled and everything purged, which leaves the content as it was, and then a source is
compiled.  What is seen of the main scope and of the template is `last`, and it is `new` for an engine that
compiles the source as its first. -/
def Differs (e : Engine) (source : Text) (view : Scope → Compiled → Option Text)
    (last new : Option Text) : Prop :=
  ((start e).run [.compile 0 "{{>a:}}".toList]).engine.content.shelf = e.content.shelf ∧
    ∃ c c', ((start e).run [.compile 0 "{{>a:}}".toList, .purgeAll]).Returns 0 (.compile 0 source)
        (.ok (some c)) ∧
      (start e).Returns 0 (.compile 0 source) (.ok (some c')) ∧
      view ((start e).run [.compile 0 "{{>a:}}".toList, .purgeAll, .compile 0 source]).engine.main c =
        last ∧
      view ((start e).step (.compile 0 source)).engine.main c' = new

theorem differs_of_succeeds {e : Engine} {root root' : Template} {deps deps' : Table Instance}
    {view : Scope → Compiled → Option Text} {last new : Option Text}
    (hp : Succeeds e "{{>a:}}".toList pageRoot firstPage)
    (h : Succeeds (installed e pageRoot firstPage).purgeAll source root deps)
    (h' : Succeeds e source root' deps')
    (hshelf : (installed e pageRoot firstPage).content.shelf = e.content.shelf)
    (hlast : view (installed (installed e pageRoot firstPage).purgeAll root deps).main
      ⟨Alias.ofRoot source, (installed e pageRoot firstPage).purgeAll.main.made⟩ = last)
    (hnew : view (installed e root' deps').main ⟨Alias.ofRoot source, e.main.made⟩ = new) :
    Differs e source view last new := by
  have hpage : ((start e).run [.compile 0 "{{>a:}}".toList]).engine = installed e pageRoot firstPage :=
    hp.engine_step (s := start e) rfl
  have hpurged : ((start e).run [.compile 0 "{{>a:}}".toList, .purgeAll]).engine =
      (installed e pageRoot firstPage).purgeAll := congrArg Engine.purgeAll hpage
  refine ⟨by rw [hpage, hshelf], _, _, h.returns hpurged, h'.returns rfl, ?_, ?_⟩
  · rw [← hlast, ← h.engine_step hpurged]
    rfl
  · rw [← hnew, ← h'.engine_step (s := start e) rfl]

/-- A purge leaves the registry as it is.  A source that inserts a partial by the runtime name of a page
before it declares it computes no name and depends on nothing.  It finds the entry of the page that was
compiled before the purge, while it finds none in an engine that starts with the same content, and every
runtime that inserts the page shows the difference.  And so does a helper that looks at the registry. -/
theorem stale_after_purgeAll :
    (Engine.start .identity .default [] (fun _ => none) .memory [(['a', ':'], ['y'])] [] =
        .ok (pageEngine [] []) ∧
      Engine.start .identity .default [(['h'], peeking)] (fun _ => none) .memory
        [(['a', ':'], ['y'])] [] = .ok peekingEngine) ∧
    (Alias.Distinct ((start (pageEngine [] [])).metAll staleSteps)
        (staleSteps.filterMap Step.compiled?) ∧
      Alias.Distinct ((start peekingEngine).metAll peekingSteps)
        (peekingSteps.filterMap Step.compiled?)) ∧
    ((start (pageEngine [] [])).Finds 0 (.compile 0 declaredSource) declaredRoot [] ∧
      smallRuntime.IsFixed ((start (pageEngine [] [])).step (.compile 0 declaredSource)).engine.main.registry
        (Alias.ofRoot declaredSource)) ∧
    Differs (pageEngine [] []) declaredSource (sourceOf pageName) (some ['y']) none ∧
    (smallRuntime.Inserts declaredRoot.runtimeSource pageName (.object []) ∧
      ∀ rt : Runtime, rt.Inserts declaredRoot.runtimeSource pageName (.object []) →
        Differs (pageEngine [] []) declaredSource (textOver rt (.object [])) (some ['y']) none) ∧
    smallRuntime.Calls ⟨peekingRoot.runtimeSource, true⟩ ['h'] [] ∧
      ∀ rt : Runtime, rt.Calls ⟨peekingRoot.runtimeSource, true⟩ ['h'] [] →
        Differs peekingEngine (open2 ++ 'h' :: close2) (textOver rt (.object [])) (some ['y'])
          (some []) := by
  have hlast : Shows (installed (installed (pageEngine [] []) pageRoot firstPage).purgeAll declaredRoot []).main
      ⟨Alias.ofRoot declaredSource, 1⟩ declaredRoot.runtimeSource (some ['y']) := by decide +kernel
  have hnew : Shows (installed (pageEngine [] []) declaredRoot []).main
      ⟨Alias.ofRoot declaredSource, 0⟩ declaredRoot.runtimeSource none := by decide +kernel
  refine ⟨⟨start_pageEngine, start_peekingEngine⟩, ⟨?_, ?_⟩, ⟨succeeds_declared.finds rfl, ?_⟩, ?_,
    ⟨Render.inserts_runtime (by decide) (by decide +kernel), fun rt hrt => ?_⟩,
    Render.calls_runtime (by decide) (by decide +kernel), fun rt hrt => ?_⟩
  · rw [metAll_staleSteps]
    exact ⟨⟨by decide +kernel, by decide +kernel⟩, by decide +kernel⟩
  · rw [metAll_peekingSteps]
    exact ⟨⟨by decide +kernel, by decide +kernel⟩, by decide +kernel⟩
  · rw [succeeds_declared.engine_step rfl]
    have hclosed : smallRuntime.Closed (installed (pageEngine [] []) declaredRoot []).main.registry
        [Alias.ofRoot declaredSource, pageName] := by decide +kernel
    exact hclosed.isFixed List.mem_cons_self
  · exact differs_of_succeeds succeeds_page succeeds_stale succeeds_declared rfl hlast.2.2.1 hnew.2.2.1
  · exact differs_of_succeeds succeeds_page succeeds_stale succeeds_declared rfl (hlast.text hrt)
      (hnew.text hrt)
  · refine differs_of_succeeds succeeds_peekingPage succeeds_peekingPurged succeeds_peeking rfl
      ((textOver_peeking hrt rfl ?_).trans ?_) ((textOver_peeking hrt rfl ?_).trans ?_)
    all_goals decide +kernel

end Session

end Stencil
