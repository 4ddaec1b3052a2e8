import Stencil.Proofs.Scope
import Stencil.Proofs.Session.Fetching
/-!
Scopes and their registries, through any sequence of steps.

`Engine.Sound` holds of an engine whose scopes keep what building them registered and whose templates are
all parsed.  Each step keeps it while the names met in the run do not collide (`sound_step`), so that it
holds of what every run comes to (`sound_run`).  No step changes what a scope was built from
(`sameDrafts_run`).
-/

namespace Stencil

theorem mem_of_mapM {α β : Type} {f : α → Option β} {as : List α} {bs : List β}
    (h : as.mapM f = some bs) {b : β} (hb : b ∈ bs) : ∃ a ∈ as, f a = some b := by
  induction as generalizing bs with
  | nil =>
    obtain rfl := Option.some.inj h
    exact absurd hb List.not_mem_nil
  | cons a as ih =>
    rw [List.mapM_cons] at h
    obtain ⟨b', ha, h⟩ := Option.bind_eq_some_iff.1 h
    obtain ⟨bs', has, h⟩ := Option.bind_eq_some_iff.1 h
    obtain rfl := Option.some.inj h
    rcases List.mem_cons.1 hb with rfl | hb
    · exact ⟨a, List.mem_cons_self, ha⟩
    · obtain ⟨a', ha', hf⟩ := ih has hb
      exact ⟨a', List.mem_cons_of_mem _ ha', hf⟩

theorem Given.isParsed {g : Given} {p : Partial} {x : Expander} {t : Template}
    (h : g.partial? = some p) (ht : p.template x = .ok t) : ∃ x, t.IsParsed x := by
  cases g with
  | markup source =>
    obtain rfl := Option.some.inj h
    exact ⟨x, Partial.isParsed_of_markup ht⟩
  | parsed x' source =>
    obtain ⟨u, hu, rfl⟩ := Option.map_eq_some_iff.1 h
    obtain rfl := Except.ok.inj ht
    exact ⟨x', Template.isParsed_of_parse (Except.toOption_eq_some_iff.1 hu)⟩

/-- The partials of a client's draft are those that it begins with and those given. -/
theorem Engine.exists_of_draft? {e : Engine} {base : Base} {partials : List (Text × Given)}
    {helpers : Table Helper} {owner : Option Owner} {d : Draft}
    (h : e.draft? base partials helpers owner = some d) :
    ∃ d₀ given d₁, e.base? base = some d₀ ∧
      (∀ p ∈ given, ∃ q ∈ partials, q.2.partial? = some p.2 ∧ q.1 = p.1) ∧
      d₀.registerAll e.expander given = .ok d₁ ∧ d.partials = d₁.partials := by
  obtain ⟨d₀, h₀, h⟩ := Option.bind_eq_some_iff.1 h
  obtain ⟨given, hg, h⟩ := Option.bind_eq_some_iff.1 h
  obtain ⟨d₁, h₁, h⟩ := Option.bind_eq_some_iff.1 h
  refine ⟨d₀, given, d₁, h₀, fun p hp => ?_, Except.toOption_eq_some_iff.1 h₁, ?_⟩
  · obtain ⟨q, hq, hp⟩ := mem_of_mapM hg hp
    obtain ⟨p', hp', rfl⟩ := Option.map_eq_some_iff.1 hp
    exact ⟨q, hq, hp', rfl⟩
  · rw [← Option.some.inj h]
    rfl

/-! ## Scopes of an engine -/

/-- The partials of a scope are those of a draft, and the registry has kept them. -/
structure Scope.Sound (objection : Objection) (s : Scope) : Prop where
  draft : s.draft.Sound
  kept : s.KeepsPartials objection

namespace Scope.Sound

variable {objection : Objection} {s : Scope} {d : Draft} {root : Template} {deps : Table Instance}

theorem ofDraft (h : Scope.ofDraft objection d = .ok s) (hd : d.Sound)
    (ha : Alias.Apart d.partials.keys []) : s.Sound objection :=
  ⟨draft_ofDraft h ▸ hd, keepsPartials_ofDraft h hd ha⟩

theorem install (h : s.Sound objection)
    (ha : Alias.Apart (s.partials.keys ++ deps.keys) [root.source]) :
    (s.install objection root deps).2.Sound objection :=
  ⟨draft_install objection s root deps ▸ h.draft, h.kept.install ha⟩

/-- The compiled templates are no part of what is registered. -/
theorem clear (h : s.Sound objection) : s.clear.Sound objection :=
  ⟨h.draft, h.kept⟩

end Scope.Sound

namespace Engine

variable {e e' : Engine} {objection : Objection}

/-- The keys of the partials of all scopes. -/
def partialKeys (e : Engine) : List Text :=
  (e.main :: e.others).flatMap fun s => s.partials.keys

theorem mem_of_scope? {n : Nat} {s : Scope} (h : e.scope? n = some s) : s ∈ e.main :: e.others := by
  cases n with
  | zero =>
    obtain rfl := Option.some.inj h
    exact List.mem_cons_self
  | succ n => exact List.mem_cons_of_mem _ (List.mem_reverse.1 (List.mem_of_getElem? h))

theorem keys_subset_partialKeys {n : Nat} {s : Scope} (h : e.scope? n = some s) :
    s.partials.keys ⊆ e.partialKeys :=
  fun _ hk => List.mem_flatMap.2 ⟨s, mem_of_scope? h, hk⟩

theorem scope?_setScope (e : Engine) (n m : Nat) (s : Scope) :
    (e.setScope n s).scope? m = if m = n then (e.scope? m).map fun _ => s else e.scope? m := by
  cases n with
  | zero => cases m <;> rfl
  | succ n =>
    cases m with
    | zero => rfl
    | succ m =>
      simp only [scope?, setScope, List.reverse_reverse, List.getElem?_set', Nat.succ.injEq]
      by_cases h : n = m
      · rw [if_pos h, if_pos h.symm]
        rfl
      · rw [if_neg h, if_neg (Ne.symm h)]

theorem setScope_self {n : Nat} {s : Scope} (h : e.scope? n = some s) : e.setScope n s = e := by
  cases n with
  | zero => rw [← Option.some.inj h]; rfl
  | succ n =>
    obtain ⟨hn, hs⟩ := List.getElem?_eq_some_iff.1 h
    rw [setScope, ← hs, List.set_getElem_self, List.reverse_reverse]

theorem scope?_await (e : Engine) (t : Task) (n : Nat) : (e.await t).2.scope? n = e.scope? n := by
  unfold await
  split <;> rfl

theorem scope?_fetch (e : Engine) (r : Text) (n : Nat) : (e.fetch r).2.scope? n = e.scope? n := by
  rw [fetch, scope?_await]
  rfl

theorem scope?_fetchAll (e : Engine) (rs : List Text) (n : Nat) :
    (e.fetchAll rs).scope? n = e.scope? n := by
  induction rs generalizing e with
  | nil => rfl
  | cons r rs ih => exact (ih (e.fetch r).2).trans (scope?_fetch e r n)

/-- The scopes after a build are those before, and the one built. -/
theorem scope?_of_built {s s' : Scope} {n : Nat}
    (h : scope? { e with others := s :: e.others } n = some s') : s' = s ∨ e.scope? n = some s' := by
  cases n with
  | zero => exact .inr h
  | succ n =>
    simp only [scope?, List.reverse_cons, List.getElem?_append] at h
    split at h
    · exact .inr h
    · exact .inl (List.mem_singleton.1 (List.mem_of_getElem? h))

/-! ### Drafts of scopes -/

/-- Every scope is still there, and what it was built from is the same. -/
def SameDrafts (e e' : Engine) : Prop :=
  ∀ n s, e.scope? n = some s → ∃ s', e'.scope? n = some s' ∧ s'.draft = s.draft

namespace SameDrafts

theorem of_eq (h : ∀ n, e'.scope? n = e.scope? n) : SameDrafts e e' := by
  intro n s hs
  exact ⟨s, (h n).trans hs, rfl⟩

theorem trans {e'' : Engine} (h : SameDrafts e e') (h' : SameDrafts e' e'') : SameDrafts e e'' := by
  intro n s hs
  obtain ⟨s', hs', hd⟩ := h n s hs
  obtain ⟨s'', hs'', hd'⟩ := h' n s' hs'
  exact ⟨s'', hs'', hd'.trans hd⟩

theorem setScope {n : Nat} {s s' : Scope} (hs : e.scope? n = some s) (hd : s'.draft = s.draft) :
    SameDrafts e (e.setScope n s') := by
  intro m t ht
  rw [scope?_setScope]
  by_cases h : m = n
  · subst h
    obtain rfl := Option.some.inj (hs.symm.trans ht)
    exact ⟨s', by rw [if_pos rfl, hs]; rfl, hd⟩
  · exact ⟨t, by rw [if_neg h, ht], rfl⟩

theorem built (e : Engine) (s : Scope) : SameDrafts e { e with others := s :: e.others } := by
  intro n t ht
  refine ⟨t, ?_, rfl⟩
  cases n with
  | zero => exact ht
  | succ n =>
    simp only [scope?, List.reverse_cons] at ht ⊢
    rw [List.getElem?_append_left]
    · exact ht
    · exact (List.getElem?_eq_some_iff.1 ht).1

theorem resolve (e : Engine) (s : Scope) (root : Template) : SameDrafts e (e.resolve s root).2 := by
  rw [snd_resolve]
  exact of_eq (scope?_fetchAll e _)

theorem compileBy {n : Nat} {source : Text} {a : Compilation}
    {resolve : Scope → Template → Except TemplateError (Table Instance) × Engine}
    (hc : e.compileBy n source resolve = some (a, e'))
    (hr : ∀ s root, SameDrafts e (resolve s root).2) : SameDrafts e e' := by
  obtain ⟨s, hs, hc⟩ := compiles_of_compileBy hc
  cases hc with
  | stale _ => exact of_eq fun _ => rfl
  | unreadable _ _ => exact of_eq fun _ => rfl
  | unresolved _ _ _ => exact hr _ _
  | @installed root deps _ _ _ =>
    obtain ⟨s', hs', hd⟩ := hr s root n s hs
    exact (hr s root).trans (.setScope hs' ((Scope.draft_install _ _ _ _).trans hd.symm))

theorem dependencies {n : Nat} {source : Text} {a : Except TemplateError (Table Instance)}
    (hd : e.dependencies n source = some (a, e')) : SameDrafts e e' := by
  obtain ⟨s, -, hd⟩ := Option.map_eq_some_iff.1 hd
  split at hd
  · exact (Prod.mk.inj hd).2 ▸ of_eq fun _ => rfl
  · next root _ =>
    have hr := SameDrafts.resolve e s root
    rwa [hd] at hr

end SameDrafts

/-- The references that compiling a source resolves, if it comes to that. -/
def met (e : Engine) (n : Nat) (source : Text)
    (resolve : Scope → Template → Except TemplateError (Table Instance) × Engine) : List Text :=
  match e.scope? n, e.parse source with
  | some s, .ok root =>
    if isFresh s source then ((resolve s root).1.toOption.map Table.keys).getD [] else []
  | _, _ => []

theorem met_eq {n : Nat} {s : Scope} {source : Text} {root : Template} {deps : Table Instance}
    {resolve : Scope → Template → Except TemplateError (Table Instance) × Engine}
    (hs : e.scope? n = some s) (hf : isFresh s source = true) (hp : e.parse source = .ok root)
    (hd : (resolve s root).1 = .ok deps) : e.met n source resolve = deps.keys := by
  simp only [met, hs, hp, hf, if_true, hd]
  rfl

/-! ### Sound engines -/

/-- Scopes are sound and fetched templates are parsed. -/
structure Sound (objection : Objection) (e : Engine) : Prop where
  objection_eq : e.objection = objection
  scopes : ∀ n s, e.scope? n = some s → s.Sound objection
  fetched : ∀ t i, e.fetches.outcome? t = some (.ok i) → ∃ x, i.template.IsParsed x

theorem parsed_of_evaluate {t : Task} {i : Instance} (h : e.evaluate t = .ok i) :
    ∃ x, i.template.IsParsed x := by
  unfold evaluate at h
  simp only at h
  split at h
  · exact nomatch h
  · split at h
    · exact nomatch h
    · split at h
      · exact nomatch h
      · next template hp =>
        rw [← Except.ok.inj h]
        exact ⟨_, Template.isParsed_of_parse hp⟩

theorem isParsed_of_parse {source : Text} {root : Template} (h : e.parse source = .ok root) :
    root.IsParsed e.expander :=
  Template.isParsed_of_parse (Except.mapError_eq_ok_iff.1 h)

theorem source_of_parse {source : Text} {root : Template} (h : e.parse source = .ok root) :
    root.source = source :=
  Template.source_of_parse (Except.mapError_eq_ok_iff.1 h)

namespace Sound

theorem of_sameSources (h : e.Sound objection) (hs : e.SameSources e')
    (ho : e'.objection = e.objection) (hn : ∀ n s, e'.scope? n = some s → s.Sound objection) :
    e'.Sound objection :=
  ⟨ho.trans h.objection_eq, hn, fun t i ht => h.fetched t i (hs.2 ▸ ht)⟩

theorem setScope (h : e.Sound objection) {n : Nat} {s : Scope} (hs : s.Sound objection) :
    (e.setScope n s).Sound objection := by
  refine h.of_sameSources (sameSources_setScope e n s) (by cases n <;> rfl) fun m s' hm => ?_
  rw [scope?_setScope] at hm
  split at hm
  · obtain ⟨_, -, rfl⟩ := Option.map_eq_some_iff.1 hm
    exact hs
  · exact h.scopes m s' hm

/-- What a task comes to is parsed, whether the task is settled or not. -/
theorem parsed_of_await (h : e.Sound objection) {t : Task} {i : Instance}
    (ht : (e.await t).1 = .ok i) : ∃ x, i.template.IsParsed x := by
  rw [await_fst] at ht
  cases ho : e.fetches.outcome? t with
  | some o =>
    rw [ho] at ht
    exact h.fetched t i (ho.trans (congrArg some ht))
  | none =>
    rw [ho] at ht
    exact parsed_of_evaluate ht

theorem await (h : e.Sound objection) (t : Task) : (e.await t).2.Sound objection := by
  refine ⟨?_, fun n s hs => h.scopes n s (scope?_await e t n ▸ hs), fun u i hu => ?_⟩
  · rw [← h.objection_eq]
    unfold Engine.await
    split <;> rfl
  · rw [outcome?_await] at hu
    split at hu
    · exact h.parsed_of_await (Option.some.inj hu)
    · exact h.fetched u i hu

theorem request (h : e.Sound objection) (r : Text) : (e.request r).2.Sound objection :=
  ⟨h.objection_eq, h.scopes, fun t i ht =>
    h.fetched t i ((Fetches.outcome?_request e.fetches r t).symm.trans ht)⟩

theorem fetch (h : e.Sound objection) (r : Text) : (e.fetch r).2.Sound objection :=
  (h.request r).await _

theorem fetchAll (h : e.Sound objection) (rs : List Text) : (e.fetchAll rs).Sound objection := by
  induction rs generalizing e with
  | nil => exact h
  | cons r rs ih => exact ih (h.fetch r)

/-! ### Building -/

theorem draft_base? (h : e.Sound objection) {base : Base} {d : Draft} (hb : e.base? base = some d) :
    d.Sound := by
  cases base with
  | nothing => exact Option.some.inj hb ▸ .empty
  | engine => exact Option.some.inj hb ▸ Draft.Sound.empty.withHelpers e.helpers
  | scope n =>
    obtain ⟨s, hs, rfl⟩ := Option.map_eq_some_iff.1 hb
    exact (h.scopes n s hs).draft

theorem draft? (h : e.Sound objection) {base : Base} {partials : List (Text × Given)}
    {helpers : Table Helper} {owner : Option Owner} {d : Draft}
    (hd : e.draft? base partials helpers owner = some d) : d.Sound := by
  obtain ⟨d₀, given, d₁, h₀, hg, h₁, hpartials⟩ := exists_of_draft? hd
  have hs : d₁.Sound := by
    refine (h.draft_base? h₀).registerAll (fun p hp t ht => ?_) h₁
    obtain ⟨q, -, hq, -⟩ := hg p hp
    exact Given.isParsed hq ht
  exact hs.of_partials hpartials

theorem build (h : e.Sound objection) {d : Draft} {n : Nat} (hb : e.build d = .ok (n, e'))
    (hd : d.Sound) (ha : Alias.Apart e'.partialKeys []) : e'.Sound objection := by
  obtain ⟨s, hs, he⟩ := Except.map_eq_ok_iff.1 hb
  obtain ⟨-, rfl⟩ := Prod.mk.inj he
  have hkeys : d.partials.keys ⊆ Engine.partialKeys { e with others := s :: e.others } := by
    intro k hk
    refine List.mem_flatMap.2 ⟨s, by simp, ?_⟩
    rwa [← Scope.draft_ofDraft hs] at hk
  rw [h.objection_eq] at hs
  refine h.of_sameSources ⟨rfl, rfl⟩ rfl fun m s' hm => ?_
  rcases scope?_of_built hm with rfl | hm
  · exact .ofDraft hs hd (ha.mono hkeys (List.Subset.refl _))
  · exact h.scopes m s' hm

/-! ### Compiling -/

theorem compileBy (h : e.Sound objection) {n : Nat} {source : Text} {a : Compilation}
    {resolve : Scope → Template → Except TemplateError (Table Instance) × Engine}
    (hc : e.compileBy n source resolve = some (a, e'))
    (hr : ∀ s root, (resolve s root).2.Sound objection)
    (ha : Alias.Apart (e.partialKeys ++ e.met n source resolve) [source]) : e'.Sound objection := by
  obtain ⟨s, hs, hc⟩ := compiles_of_compileBy hc
  cases hc with
  | stale _ => exact h
  | unreadable _ _ => exact h
  | unresolved _ _ _ => exact hr _ _
  | @installed root deps hf hp hd =>
    rw [met_eq hs hf hp hd, ← source_of_parse hp] at ha
    rw [(hr s root).objection_eq]
    have hk : s.partials.keys ++ deps.keys ⊆ e.partialKeys ++ deps.keys :=
      List.append_subset.2 ⟨List.subset_append_of_subset_left _ (keys_subset_partialKeys hs),
        List.subset_append_right _ _⟩
    exact (hr s root).setScope ((h.scopes n s hs).install (ha.mono hk (List.Subset.refl _)))

theorem resolve (h : e.Sound objection) (s : Scope) (root : Template) :
    (e.resolve s root).2.Sound objection := by
  rw [snd_resolve]
  exact h.fetchAll _

theorem dependencies (h : e.Sound objection) {n : Nat} {source : Text}
    {a : Except TemplateError (Table Instance)} (hd : e.dependencies n source = some (a, e')) :
    e'.Sound objection := by
  obtain ⟨s, hs, hd⟩ := Option.map_eq_some_iff.1 hd
  split at hd
  · exact (Prod.mk.inj hd).2 ▸ h
  · next root _ =>
    have hr := h.resolve s root
    rwa [hd] at hr

theorem start {expander : Expander} {escaper : Escaper} {helpers : Table Helper} {service : Service}
    {shelf partials : Table Text}
    (h : Engine.start expander escaper helpers objection service shelf partials = .ok e)
    (ha : Alias.Apart e.partialKeys []) : e.Sound objection := by
  obtain ⟨d, main, hd, hm, rfl⟩ := of_start h
  have hs : d.Sound := by
    refine (Draft.Sound.empty.withHelpers helpers).registerAll (fun p hp t ht => ?_) hd
    obtain ⟨q, -, rfl⟩ := List.mem_map.1 hp
    exact ⟨expander, Partial.isParsed_of_markup ht⟩
  refine ⟨rfl, fun n s hn => ?_, fun t i ht => nomatch ht⟩
  have hk := keys_subset_partialKeys hn
  cases n with
  | zero =>
    obtain rfl := Option.some.inj hn
    rw [← Scope.draft_ofDraft hm] at hs
    exact .ofDraft hm (Scope.draft_ofDraft hm ▸ hs)
      (ha.mono (Scope.draft_ofDraft hm ▸ hk) (List.Subset.refl _))
  | succ n => exact nomatch hn

end Sound

end Engine

/-! ## Steps -/

/-- What a step can make of an engine. -/
inductive Engine.Moves (e : Engine) : Step → Engine → Prop
  | idle {a : Step} : Moves e a e
  | build {base : Base} {partials : List (Text × Given)} {helpers : Table Helper}
      {owner : Option Owner} {d : Draft} {n : Nat} {e' : Engine} :
      e.draft? base partials helpers owner = some d → e.build d = .ok (n, e') →
      Moves e (.build base partials helpers owner) e'
  | compile {n : Nat} {source : Text} {o : Compilation} {e' : Engine} :
      e.compileBy n source e.resolve = some (o, e') → Moves e (.compile n source) e'
  | compileLocal {n : Nat} {source : Text} {o : Compilation} {e' : Engine} :
      e.compileBy n source e.resolveLocal = some (o, e') → Moves e (.compileLocal n source) e'
  | dependencies {n : Nat} {source : Text} {o : Except TemplateError (Table Instance)} {e' : Engine} :
      e.dependencies n source = some (o, e') → Moves e (.dependencies n source) e'
  | clear {n : Nat} {sc : Scope} : e.scope? n = some sc → Moves e (.clear n) (e.setScope n sc.clear)
  | fetch (r : Text) : Moves e (.fetch r) (e.fetch r).2
  | hold (r : Text) : Moves e (.hold r) (e.request r).2
  | await (place : Nat) (t : Task) : Moves e (.await place) (e.await t).2
  | put (r markup : Text) : Moves e (.put r markup) (e.put r markup)
  | remove (r : Text) : Moves e (.remove r) (e.remove r)
  | purge : Moves e .purge e.purge
  | purgeAll : Moves e .purgeAll (e.purge.setScope 0 e.main.clear)

namespace Session

theorem moves_step (s : Session) (a : Step) : s.engine.Moves a (s.step a).engine := by
  cases a with
  | build base partials helpers owner =>
    simp only [Session.step]
    split
    · exact .idle
    · next hd =>
      split
      · exact .idle
      · next hb => exact .build hd hb
  | compile n source =>
    simp only [Session.step]
    split
    · next hc => exact .compile hc
    · exact .idle
  | compileLocal n source =>
    simp only [Session.step]
    split
    · next hc => exact .compileLocal hc
    · exact .idle
  | dependencies n source =>
    simp only [Session.step]
    split
    · next hd => exact .dependencies hd
    · exact .idle
  | clear n =>
    simp only [Session.step]
    split
    · next hs => exact .clear hs
    · exact .idle
  | fetch r => exact .fetch r
  | hold r => exact .hold r
  | await place =>
    simp only [Session.step]
    split
    · exact .await place _
    · exact .idle
  | put r markup => exact .put r markup
  | remove r => exact .remove r
  | purge => exact .purge
  | purgeAll => exact .purgeAll

end Session

/-! ## Runs -/

namespace Step

/-- The source that a step compiles. -/
def compiled? : Step → Option Text
  | compile _ source => some source
  | compileLocal _ source => some source
  | _ => none

end Step

namespace Session

variable {s : Session} {objection : Objection}

/-- The references that a step resolves to compile what they belong to. -/
def met (s : Session) : Step → List Text
  | .compile n source => s.engine.met n source s.engine.resolve
  | .compileLocal n source => s.engine.met n source s.engine.resolveLocal
  | _ => []

/-- The keys of partials and the references that a run meets. -/
def metAll (s : Session) : List Step → List Text
  | [] => s.engine.partialKeys
  | a :: steps => s.engine.partialKeys ++ s.met a ++ (s.step a).metAll steps

theorem partialKeys_subset_metAll (s : Session) (steps : List Step) :
    s.engine.partialKeys ⊆ s.metAll steps := by
  cases steps with
  | nil => exact List.Subset.refl _
  | cons a steps =>
    exact List.subset_append_of_subset_left _ (List.subset_append_left _ _)

theorem sound_step (h : s.engine.Sound objection) (a : Step)
    (ha : Alias.Apart (s.engine.partialKeys ++ s.met a ++ (s.step a).engine.partialKeys)
      a.compiled?.toList) : (s.step a).engine.Sound objection := by
  have hmet : Alias.Apart (s.engine.partialKeys ++ s.met a) a.compiled?.toList :=
    ha.mono (List.subset_append_left _ _) (List.Subset.refl _)
  have hnext : Alias.Apart (s.step a).engine.partialKeys [] :=
    ha.mono (List.subset_append_right _ _) (List.nil_subset _)
  have hm := moves_step s a
  clear ha
  generalize (s.step a).engine = e' at hm hnext ⊢
  cases hm with
  | idle => exact h
  | build hd hb => exact h.build hb (h.draft? hd) hnext
  | compile hc => exact h.compileBy hc h.resolve hmet
  | compileLocal hc => exact h.compileBy hc (fun _ _ => h) hmet
  | dependencies hd => exact h.dependencies hd
  | clear hs => exact h.setScope (h.scopes _ _ hs).clear
  | fetch r => exact h.fetch r
  | hold r => exact h.request r
  | await _ t => exact h.await t
  | put r markup => exact ⟨h.objection_eq, h.scopes, h.fetched⟩
  | remove r => exact ⟨h.objection_eq, h.scopes, h.fetched⟩
  | purge => exact ⟨h.objection_eq, h.scopes, h.fetched⟩
  | purgeAll =>
    have hp : s.engine.purge.Sound objection := ⟨h.objection_eq, h.scopes, h.fetched⟩
    exact hp.setScope (h.scopes 0 s.engine.main rfl).clear

theorem sound_run (h : s.engine.Sound objection) (steps : List Step)
    (ha : Alias.Apart (s.metAll steps) (steps.filterMap Step.compiled?)) :
    (s.run steps).engine.Sound objection := by
  induction steps generalizing s with
  | nil => exact h
  | cons a steps ih =>
    have hk := partialKeys_subset_metAll (s.step a) steps
    have hnames : s.engine.partialKeys ++ s.met a ++ (s.step a).engine.partialKeys ⊆
        s.metAll (a :: steps) :=
      List.append_subset.2 ⟨List.subset_append_left _ _, List.subset_append_of_subset_right _ hk⟩
    have hrest : (s.step a).metAll steps ⊆ s.metAll (a :: steps) := List.subset_append_right _ _
    have hsources : (a :: steps).filterMap Step.compiled? =
        a.compiled?.toList ++ steps.filterMap Step.compiled? := by
      rw [List.filterMap_cons]
      cases a.compiled? <;> rfl
    rw [hsources] at ha
    exact ih (sound_step h a (ha.mono hnames (List.subset_append_left _ _)))
      (ha.mono hrest (List.subset_append_right _ _))

theorem sameDrafts_step (s : Session) (a : Step) : s.engine.SameDrafts (s.step a).engine := by
  have hm := moves_step s a
  generalize (s.step a).engine = e' at hm ⊢
  cases hm with
  | idle => exact .of_eq fun _ => rfl
  | build _ hb =>
    obtain ⟨sc, -, he⟩ := Except.map_eq_ok_iff.1 hb
    rw [← (Prod.mk.inj he).2]
    exact .built s.engine sc
  | compile hc => exact .compileBy hc (.resolve s.engine)
  | compileLocal hc => exact .compileBy hc fun _ _ => .of_eq fun _ => rfl
  | dependencies hd => exact .dependencies hd
  | clear hs => exact .setScope hs rfl
  | fetch r => exact .of_eq (Engine.scope?_fetch s.engine r)
  | hold r => exact .of_eq fun _ => rfl
  | await _ t => exact .of_eq (Engine.scope?_await s.engine t)
  | put r markup => exact .of_eq fun _ => rfl
  | remove r => exact .of_eq fun _ => rfl
  | purge => exact .of_eq fun _ => rfl
  | purgeAll => exact .setScope (e := s.engine.purge) (n := 0) rfl rfl

theorem sameDrafts_run (s : Session) (steps : List Step) :
    s.engine.SameDrafts (s.run steps).engine := by
  induction steps generalizing s with
  | nil => exact .of_eq fun _ => rfl
  | cons a steps ih => exact (sameDrafts_step s a).trans (ih (s.step a))

theorem metAll_append_left (s : Session) (steps more : List Step) :
    s.metAll steps ⊆ s.metAll (steps ++ more) := by
  induction steps generalizing s with
  | nil => exact partialKeys_subset_metAll s more
  | cons a steps ih =>
    exact List.append_subset.2 ⟨List.subset_append_left _ _,
      List.subset_append_of_subset_right _ (ih (s.step a))⟩

theorem metAll_append_right (s : Session) (steps more : List Step) :
    (s.run steps).metAll more ⊆ s.metAll (steps ++ more) := by
  induction steps generalizing s with
  | nil => exact List.Subset.refl _
  | cons a steps ih => exact List.subset_append_of_subset_right _ (ih (s.step a))

end Session

end Stencil
