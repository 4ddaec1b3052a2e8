import Stencil.Proofs.Resolution.Image
import Stencil.Proofs.Session.Rejection
/-!
Once the dependencies of a source have been found, the content service is done with it.

`AtHand` says that all the source depends on is found, and every task among it settled.  Finding the
dependencies brings that about (`atHand_resolve`), and no step but a purge takes it away
(`AtHand.run`), whatever becomes of the markup.  So a later compilation begins no task, and fails only
if the runtime objects (`quiet_after_dependencies`).
-/

namespace Stencil

namespace Engine

variable {e e' : Engine} {sc sc' : Scope} {root : Template} {deps : Table Instance} {n : Nat}
  {source : Text}

/-- No task has been begun, and the service has not been asked. -/
structure Quiet (e e' : Engine) : Prop where
  content : e'.content = e.content
  settled : e'.fetches.settled = e.fetches.settled

namespace Quiet

theorem refl (e : Engine) : Quiet e e := ⟨rfl, rfl⟩

theorem trans {e'' : Engine} (h : Quiet e e') (h' : Quiet e' e'') : Quiet e e'' :=
  ⟨h'.content.trans h.content, h'.settled.trans h.settled⟩

theorem setScope (h : Quiet e e') (n : Nat) (sc : Scope) : Quiet e (e'.setScope n sc) := by
  obtain ⟨hc, hf⟩ := sameSources_setScope e' n sc
  exact h.trans ⟨hc, congrArg Fetches.settled hf⟩

/-- To request a settled task and to wait for it begins nothing. -/
theorem fetch {r : Text} {o : Outcome} (h : e.fetches.outcome? (e.fetches.task r) = some o) :
    Quiet e (e.fetch r).2 := by
  have ho : (e.request r).2.fetches.outcome? (e.request r).1 = some o :=
    (Fetches.outcome?_request e.fetches r _).trans h
  rw [Engine.fetch, await_of_settled ho]
  refine ⟨rfl, ?_⟩
  change (e.fetches.request r).2.settled = e.fetches.settled
  unfold Fetches.request
  split <;> rfl

theorem fetchAll {rs : List Text}
    (h : ∀ r ∈ rs, ∃ o, e.fetches.outcome? (e.fetches.task r) = some o) :
    Quiet e (e.fetchAll rs) := by
  induction rs generalizing e with
  | nil => exact refl e
  | cons r rs ih =>
    obtain ⟨o, ho⟩ := h r List.mem_cons_self
    refine (fetch ho).trans (ih fun r' hr' => ?_)
    obtain ⟨o', ho'⟩ := h r' (List.mem_cons_of_mem _ hr')
    rw [task_fetch]
    exact ⟨o', (frame_outcome _ _).fetch e r ho'⟩

end Quiet

/-! ## Dependencies at hand -/

/-- The walk from a root finds these dependencies, and all tasks that it comes across are settled. -/
structure AtHand (e : Engine) (sc : Scope) (root : Template) (deps : Table Instance) : Prop where
  found : (e.resolution sc root).result = .ok deps
  settled : ∀ r ∈ (e.resolution sc root).loads, sc.partials.contains r = false →
    Reference.isRemote r = true → ∃ o, e.fetches.outcome? (e.fetches.task r) = some o

theorem peek_fetchAll (e : Engine) (rs : List Text) (r : Text) : (e.fetchAll rs).peek r = e.peek r := by
  induction rs generalizing e with
  | nil => rfl
  | cons q rs ih => exact (ih (e.fetch q).2).trans (peek_fetch e q r)

/-- A resolution that succeeds leaves at hand what it has found. -/
theorem atHand_resolve (h : (e.resolve sc root).1 = .ok deps) : (e.resolve sc root).2.AtHand sc root deps := by
  have hp : (e.resolve sc root).2.peek = e.peek := by
    funext r
    rw [snd_resolve, peek_fetchAll]
  have hl : (e.resolve sc root).2.loader sc = e.loader sc := by
    simp only [loader, hp]
  have hr : (e.resolve sc root).2.resolution sc root = e.resolution sc root := by
    simp only [resolution, hl]
  refine ⟨?_, fun r hm hown hremote => ?_⟩
  · rw [hr]
    exact h
  · rw [hr] at hm
    refine ⟨e.peek r, ?_⟩
    rw [frame_task.resolve e sc root, snd_resolve]
    exact outcome?_fetchAll e (List.mem_filter.2 ⟨hm, by rw [hown, hremote]; rfl⟩)

namespace AtHand

/-- What is at hand stays so while the partials are the same, the tasks are, and what is settled stays
settled. -/
theorem of_outcomes (h : e.AtHand sc root deps) (hown : sc'.partials = sc.partials)
    (htask : e'.fetches.task = e.fetches.task)
    (hsettled : ∀ t o, e.fetches.outcome? t = some o → e'.fetches.outcome? t = some o) :
    e'.AtHand sc' root deps := by
  have hanswer (r : Text) (hm : r ∈ (e.resolution sc root).loads) :
      (e'.loader sc').answer r = (e.loader sc).answer r := by
    simp only [loader, hown]
    cases hp : sc.partials.find? r with
    | some p => rfl
    | none =>
      cases hremote : Reference.isRemote r with
      | false => rfl
      | true =>
        obtain ⟨o, ho⟩ := h.settled r hm (by rw [Table.contains, hp]; rfl) hremote
        have ho' := hsettled _ o ho
        rw [if_pos rfl, if_pos rfl, peek_eq, peek_eq, htask, ho, ho']
        rfl
  have hrun : e'.resolution sc' root = e.resolution sc root := Resolution.run_congr hanswer
  refine ⟨hrun ▸ h.found, fun r hm hnone hremote => ?_⟩
  obtain ⟨o, ho⟩ := h.settled r (hrun ▸ hm) (hown ▸ hnone) hremote
  exact ⟨o, htask ▸ hsettled _ o ho⟩

/-- To resolve what is at hand asks for nothing. -/
theorem quiet_resolve (h : e.AtHand sc root deps) : e.Quiet (e.resolve sc root).2 := by
  rw [snd_resolve]
  refine Quiet.fetchAll fun r hr => ?_
  obtain ⟨hm, hwanted⟩ := List.mem_filter.1 hr
  rw [Bool.and_eq_true, Bool.not_eq_true'] at hwanted
  exact h.settled r hm hwanted.1 hwanted.2

theorem dependencies (h : e.AtHand sc root deps) (hs : e.scope? n = some sc)
    (hp : e.parse source = .ok root) :
    ∃ e', e.dependencies n source = some (.ok deps, e') ∧ e.Quiet e' := by
  refine ⟨(e.resolve sc root).2, ?_, h.quiet_resolve⟩
  rw [Engine.dependencies, hs, Option.map_some, hp]
  exact congrArg some (Prod.ext h.found rfl)

/-- A compilation asks for nothing, and only the runtime can make it fail. -/
theorem compile (h : e.AtHand sc root deps) (hs : e.scope? n = some sc)
    (hp : e.parse source = .ok root) :
    ∃ o e', e.compile n source = some (o, e') ∧ e.Quiet e' ∧
      ∀ err, o = .error err → ∃ name reason, err = .compile name reason := by
  have hfound : (e.resolve sc root).1 = .ok deps := h.found
  cases hc : e.compile n source with
  | none => simp [Engine.compile, compileBy, hs] at hc
  | some p =>
    obtain ⟨o, e'⟩ := p
    refine ⟨o, e', rfl, ?_, ?_⟩
    · obtain ⟨sc', hs', hcomp⟩ := compiles_of_compileBy hc
      obtain rfl := Option.some.inj (hs.symm.trans hs')
      cases hcomp with
      | stale _ => exact Quiet.refl e
      | unreadable _ _ => exact Quiet.refl e
      | unresolved _ hp' _ =>
        obtain rfl := Except.ok.inj (hp.symm.trans hp')
        exact h.quiet_resolve
      | installed _ hp' _ =>
        obtain rfl := Except.ok.inj (hp.symm.trans hp')
        exact h.quiet_resolve.setScope n _
    · rintro err rfl
      obtain ⟨-, g, -, hrej⟩ := rejects_of_compile hs hc
      cases hrej with
      | unreadable hp' => cases hp.symm.trans hp'
      | unresolved hp' hd =>
        obtain rfl := Except.ok.inj (hp.symm.trans hp')
        cases hfound.symm.trans hd
      | dependency _ _ _ _ _ => exact ⟨_, _, rfl⟩
      | root _ _ _ _ => exact ⟨_, _, rfl⟩

/-- No steps but purges take away what is at hand. -/
theorem run {s : Session} (h : s.engine.AtHand sc root deps) (hs : s.engine.scope? n = some sc)
    {more : List Step} (hm : ∀ a ∈ more, a.isPurge = false) :
    ∃ sc', (s.run more).engine.scope? n = some sc' ∧ (s.run more).engine.AtHand sc' root deps := by
  obtain ⟨sc', hs', hd⟩ := Session.sameDrafts_run s more n sc hs
  refine ⟨sc', hs', h.of_outcomes (congrArg Draft.partials hd) ?_ fun t o => ?_⟩
  · exact frame_task.run s more (.inl hm)
  · exact (frame_outcome t o).run s more (.inl hm)

end AtHand

end Engine

namespace Session

/-- When the dependencies of a source have been found in a scope, then after any steps without a purge they
are found again, the same instances under the same keys, and compiling the source begins no task, so that the
content service is not asked; it fails only if the runtime objects to a template. -/
theorem quiet_after_dependencies {s : Session} {n : Nat} {source : Text} {deps : Table Instance}
    {e : Engine} (hd : s.engine.dependencies n source = some (.ok deps, e)) {more : List Step}
    (hm : ∀ a ∈ more, a.isPurge = false) :
    (∃ e', (s.run (.dependencies n source :: more)).engine.dependencies n source =
        some (.ok deps, e') ∧
      (s.run (.dependencies n source :: more)).engine.Quiet e') ∧
    ∃ o e', (s.run (.dependencies n source :: more)).engine.compile n source = some (o, e') ∧
      (s.run (.dependencies n source :: more)).engine.Quiet e' ∧
      ∀ err, o = .error err → ∃ name reason, err = .compile name reason := by
  have he : (s.step (.dependencies n source)).engine = e := by
    rw [engine_step_dependencies, hd]
    rfl
  obtain ⟨sc, hs, hres⟩ := Option.map_eq_some_iff.1 hd
  cases hp : s.engine.parse source with
  | error err =>
    rw [hp] at hres
    exact nomatch (Prod.mk.inj hres).1
  | ok root =>
    rw [hp] at hres
    have hat : (s.step (.dependencies n source)).engine.AtHand sc root deps := by
      have hr := Engine.atHand_resolve (congrArg Prod.fst hres)
      rwa [congrArg Prod.snd hres, ← he] at hr
    have hs₁ : (s.step (.dependencies n source)).engine.scope? n = some sc := by
      rw [he, Engine.scope?_dependencies hd, hs]
    obtain ⟨sc', hs', hat'⟩ := hat.run hs₁ hm
    -- the source is read as before, for an engine keeps its expander
    have hx := (Engine.frame_config.run s (.dependencies n source :: more) (.inr fun _ => ⟨rfl, rfl⟩)).1
    have hp' : (s.run (.dependencies n source :: more)).engine.parse source = .ok root := by
      rw [← hp, Engine.parse, Engine.parse, hx]
    exact ⟨hat'.dependencies hs' hp', hat'.compile hs' hp'⟩

/-- Steps after the dependencies of the small root have been found: its markup is gone, and the scope has
forgotten what it had compiled. -/
def goneSteps : List Step :=
  [.compile 0 "{{>a:}}".toList, .remove ['a', ':'], .clear 0, .build .engine [] [] none]

theorem quiet_after_dependencies_gone : ∃ e,
    smallEngine.dependencies 0 "{{>a:}}".toList = some (.ok smallRoster.settled, e) ∧
    ∃ o e', ((start smallEngine).run (.dependencies 0 "{{>a:}}".toList :: goneSteps)).engine.compile 0
        "{{>a:}}".toList = some (o, e') ∧
      ((start smallEngine).run (.dependencies 0 "{{>a:}}".toList :: goneSteps)).engine.Quiet e' := by
  have hd : smallEngine.dependencies 0 "{{>a:}}".toList =
      some (.ok smallRoster.settled, (smallEngine.fetch ['a', ':']).2) := by
    rw [Engine.dependencies, Engine.scope?, Option.map_some, parse_smallRoot]
    exact congrArg some resolve_smallRoot
  have hm : ∀ a ∈ goneSteps, a.isPurge = false := by decide
  obtain ⟨-, o, e', hc, hq, -⟩ := quiet_after_dependencies (s := start smallEngine) hd hm
  exact ⟨_, hd, o, e', hc, hq⟩

end Session

end Stencil
