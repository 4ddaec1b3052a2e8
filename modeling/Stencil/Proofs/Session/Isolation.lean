import Stencil.Proofs.Session.Snapshot
/-!
Scopes do not disturb each other.

The scopes of an engine share one record of fetched templates.  `SameView` relates engines that one scope
cannot tell apart, though that record may differ: another scope, or the client, may have fetched before it
what it has still to fetch.  As long as the markup stays the same a task comes to one outcome whenever it
is settled (`Settled`), so that the scope is answered alike, and both engines stay alike.  A run may thus
be cut down to what one scope needs of it (`isolated`).
-/

namespace Stencil

namespace Step

/-- What stays of a run that is cut down to the scope of number `n`: its own steps, and those that build
scopes, change the content or purge. -/
def keptFor (n : Nat) : Step → Bool
  | build _ _ _ _ => true
  | compile m _ => m == n
  | compileLocal m _ => m == n
  | dependencies m _ => m == n
  | clear m => m == n
  | fetch _ => false
  | hold _ => false
  | await _ => false
  | put _ _ => true
  | remove _ => true
  | purge => true
  | purgeAll => true

/-- Whether a step can change what the content service has. -/
def changesContent : Step → Bool
  | put _ _ => true
  | remove _ => true
  | _ => false

end Step

@[simp] theorem Content.shelf_asked (c : Content) (r : Text) : (c.asked r).shelf = c.shelf := by
  unfold asked
  split <;> rfl

namespace Engine

variable {e e' e₁ : Engine} {n : Nat}

/-! ## Settled tasks -/

/-- What is settled is what the task would come to now. -/
def Settled (e : Engine) : Prop :=
  ∀ t o, e.fetches.outcome? t = some o → o = e.evaluate t

namespace Settled

theorem request (h : e.Settled) (r : Text) : (e.request r).2.Settled := by
  intro t o ho
  rw [evaluate_request]
  exact h t o ((Fetches.outcome?_request e.fetches r t).symm.trans ho)

theorem await_fst (h : e.Settled) (t : Task) : (e.await t).1 = e.evaluate t := by
  rw [Engine.await_fst]
  cases ho : e.fetches.outcome? t with
  | some o => exact h t o ho
  | none => rfl

theorem await (h : e.Settled) (t : Task) : (e.await t).2.Settled := by
  intro u o ho
  rw [evaluate_await]
  rw [outcome?_await] at ho
  split at ho
  · next hu => rw [hu, ← h.await_fst t, Option.some.inj ho]
  · exact h u o ho

theorem peek (h : e.Settled) (r : Text) : e.peek r = e.evaluate (e.fetches.task r) := by
  rw [peek_eq]
  cases ho : e.fetches.outcome? (e.fetches.task r) with
  | some o => exact h _ o ho
  | none => rfl

theorem fetchAll (h : e.Settled) (rs : List Text) : (e.fetchAll rs).Settled := by
  induction rs generalizing e with
  | nil => exact h
  | cons r rs ih => exact ih ((h.request r).await _)

theorem resolve (h : e.Settled) (sc : Scope) (root : Template) : (e.resolve sc root).2.Settled := by
  rw [snd_resolve]
  exact h.fetchAll _

/-- What the settled tasks are, and what they would come to, is no matter of scopes. -/
theorem of_eq (h : e.Settled) (hf : e₁.fetches.settled = e.fetches.settled)
    (hm : e₁.content.markup = e.content.markup) (hs : e₁.escaper = e.escaper)
    (hx : e₁.expander = e.expander) : e₁.Settled := by
  intro t o ho
  rw [evaluate_congr hm hs hx]
  rw [Fetches.outcome?, hf] at ho
  exact h t o ho

theorem setScope (h : e.Settled) (m : Nat) (sc : Scope) : (e.setScope m sc).Settled := by
  cases m <;> exact h.of_eq rfl rfl rfl rfl

theorem compileBy (h : e.Settled) {m : Nat} {source : Text} {o : Compilation}
    {resolve : Scope → Template → Except TemplateError (Table Instance) × Engine}
    (hr : ∀ sc root, (resolve sc root).2.Settled) (hc : e.compileBy m source resolve = some (o, e₁)) :
    e₁.Settled := by
  obtain ⟨sc, -, hc⟩ := compiles_of_compileBy hc
  cases hc with
  | stale _ => exact h
  | unreadable _ _ => exact h
  | unresolved _ _ _ => exact hr _ _
  | installed _ _ _ => exact (hr _ _).setScope _ _

theorem moves (h : e.Settled) {a : Step} (hm : e.Moves a e₁)
    (hsame : e₁.content.markup = e.content.markup) : e₁.Settled := by
  cases hm with
  | idle => exact h
  | build _ hb =>
    obtain ⟨sc, -, he⟩ := Except.map_eq_ok_iff.1 hb
    exact (Prod.mk.inj he).2 ▸ h.of_eq rfl rfl rfl rfl
  | compile hc => exact h.compileBy h.resolve hc
  | compileLocal hc => exact h.compileBy (fun _ _ => h) hc
  | dependencies hd =>
    obtain ⟨sc, -, hd⟩ := Option.map_eq_some_iff.1 hd
    split at hd
    · exact (Prod.mk.inj hd).2 ▸ h
    · next root _ =>
      have hr := h.resolve sc root
      rwa [hd] at hr
  | clear _ => exact h.setScope _ _
  | fetch r => exact (h.request r).await _
  | hold r => exact h.request r
  | await _ t => exact h.await t
  | put r markup => exact h.of_eq rfl hsame rfl rfl
  | remove r => exact h.of_eq rfl hsame rfl rfl
  | purge => exact h.of_eq rfl rfl rfl rfl
  | purgeAll =>
    have hp : e.purge.Settled := h.of_eq rfl rfl rfl rfl
    exact hp.setScope _ _

end Settled

/-! ## What a scope sees of an engine -/

/-- The scope of number `n` cannot tell the engines apart: it is the same, and so is all that it depends
on but for the tasks that are settled, and who asked for them. -/
structure SameView (n : Nat) (e e' : Engine) : Prop where
  expander : e'.expander = e.expander
  escaper : e'.escaper = e.escaper
  helpers : e'.helpers = e.helpers
  objection : e'.objection = e.objection
  service : e'.content.service = e.content.service
  shelf : e'.content.shelf = e.content.shelf
  epoch : e'.fetches.epoch = e.fetches.epoch
  /-- A request is given the same task, whether it is on record or has to be made. -/
  task : e'.fetches.task = e.fetches.task
  built : e'.others.length = e.others.length
  scope : e'.scope? n = e.scope? n
  /-- Other scopes can be built from any scope. -/
  drafts : ∀ m, (e'.scope? m).map Scope.draft = (e.scope? m).map Scope.draft

namespace SameView

theorem refl (n : Nat) (e : Engine) : SameView n e e :=
  ⟨rfl, rfl, rfl, rfl, rfl, rfl, rfl, rfl, rfl, rfl, fun _ => rfl⟩

theorem symm (h : SameView n e e') : SameView n e' e :=
  ⟨h.expander.symm, h.escaper.symm, h.helpers.symm, h.objection.symm, h.service.symm, h.shelf.symm,
    h.epoch.symm, h.task.symm, h.built.symm, h.scope.symm, fun m => (h.drafts m).symm⟩

theorem trans (h : SameView n e e₁) (h' : SameView n e₁ e') : SameView n e e' :=
  ⟨h'.expander.trans h.expander, h'.escaper.trans h.escaper, h'.helpers.trans h.helpers,
    h'.objection.trans h.objection, h'.service.trans h.service, h'.shelf.trans h.shelf,
    h'.epoch.trans h.epoch, h'.task.trans h.task, h'.built.trans h.built, h'.scope.trans h.scope,
    fun m => (h'.drafts m).trans (h.drafts m)⟩

theorem markup (h : SameView n e e') : e'.content.markup = e.content.markup := by
  funext r
  rw [Content.markup, h.service, h.shelf, Content.markup]

theorem evaluate (h : SameView n e e') (t : Task) : e'.evaluate t = e.evaluate t :=
  evaluate_congr h.markup h.escaper h.expander t

theorem parse (h : SameView n e e') (source : Text) : e'.parse source = e.parse source := by
  rw [Engine.parse, h.expander, Engine.parse]

/-! ### Changes that a scope does not see -/

theorem request (n : Nat) (e : Engine) (r : Text) : SameView n e (e.request r).2 :=
  ⟨rfl, rfl, rfl, rfl, rfl, rfl, Fetches.epoch_request e.fetches r, Fetches.task_request e.fetches r, rfl,
    rfl, fun _ => rfl⟩

theorem await (n : Nat) (e : Engine) (t : Task) : SameView n e (e.await t).2 := by
  unfold Engine.await
  split
  · exact refl n e
  · exact ⟨rfl, rfl, rfl, rfl, Content.service_asked _ _, Content.shelf_asked _ _, rfl,
      Fetches.task_settle _ _ _, rfl, rfl, fun _ => rfl⟩

theorem fetchAll (n : Nat) (e : Engine) (rs : List Text) : SameView n e (e.fetchAll rs) := by
  induction rs generalizing e with
  | nil => exact refl n e
  | cons r rs ih => exact ((request n e r).trans (await n _ _)).trans (ih _)

theorem resolve (n : Nat) (e : Engine) (sc : Scope) (root : Template) :
    SameView n e (e.resolve sc root).2 := by
  rw [snd_resolve]
  exact fetchAll n e _

theorem length_setScope (e : Engine) (m : Nat) (sc : Scope) :
    (e.setScope m sc).others.length = e.others.length := by
  cases m with
  | zero => rfl
  | succ m => simp [setScope]

/-- Two engines in which one scope is replaced alike. -/
theorem setScope (h : SameView n e e') (m : Nat) {sc sc' : Scope} (hd : sc'.draft = sc.draft)
    (hn : m = n → sc' = sc) : SameView n (e.setScope m sc) (e'.setScope m sc') where
  expander := by cases m <;> exact h.expander
  escaper := by cases m <;> exact h.escaper
  helpers := by cases m <;> exact h.helpers
  objection := by cases m <;> exact h.objection
  service := by cases m <;> exact h.service
  shelf := by cases m <;> exact h.shelf
  epoch := by cases m <;> exact h.epoch
  task := by cases m <;> exact h.task
  built := by rw [length_setScope, length_setScope, h.built]
  scope := by
    rw [scope?_setScope, scope?_setScope, h.scope]
    split
    · next hm => rw [hn hm.symm]
    · rfl
  drafts k := by
    have hk := h.drafts k
    rw [scope?_setScope, scope?_setScope]
    split
    · revert hk
      cases e.scope? k <;> cases e'.scope? k <;> simp [hd]
    · exact hk

/-- A scope does not see another that is replaced, if the draft stays. -/
theorem setScope_of_ne {m : Nat} {sc sc' : Scope} (hm : m ≠ n) (hs : e.scope? m = some sc)
    (hd : sc'.draft = sc.draft) : SameView n e (e.setScope m sc') := by
  have h := (refl n e).setScope m hd fun he => absurd he hm
  rwa [setScope_self hs] at h

theorem compileBy_of_ne {m : Nat} {source : Text} {o : Compilation}
    {resolve : Scope → Template → Except TemplateError (Table Instance) × Engine} (hm : m ≠ n)
    (hr : ∀ k sc root, SameView k e (resolve sc root).2)
    (hc : e.compileBy m source resolve = some (o, e₁)) : SameView n e e₁ := by
  obtain ⟨sc, hs, hc⟩ := compiles_of_compileBy hc
  cases hc with
  | stale _ => exact refl n e
  | unreadable _ _ => exact refl n e
  | unresolved _ _ _ => exact hr n _ _
  | installed _ _ _ =>
    have hs' := (hr m sc ‹_›).scope.trans hs
    exact (hr n _ _).trans (setScope_of_ne hm hs' (Scope.draft_install _ _ _ _))

/-- A scope does not see the steps that are not its own. -/
theorem of_moves {a : Step} (hm : e.Moves a e₁) (ha : a.keptFor n = false) : SameView n e e₁ := by
  have hne {m : Nat} (h : (m == n) = false) : m ≠ n := beq_eq_false_iff_ne.1 h
  cases hm with
  | idle => exact refl n e
  | compile hc => exact compileBy_of_ne (hne ha) (fun k => resolve k e) hc
  | compileLocal hc => exact compileBy_of_ne (hne ha) (fun k _ _ => refl k e) hc
  | dependencies hd =>
    obtain ⟨sc, -, hd⟩ := Option.map_eq_some_iff.1 hd
    split at hd
    · exact (Prod.mk.inj hd).2 ▸ refl n e
    · next root _ =>
      have hr := resolve n e sc root
      rwa [hd] at hr
  | clear hs => exact setScope_of_ne (hne ha) hs rfl
  | fetch r => exact (request n e r).trans (await n _ _)
  | hold r => exact request n e r
  | await _ t => exact await n e t
  | build _ _ => cases ha
  | put _ _ => cases ha
  | remove _ => cases ha
  | purge => cases ha
  | purgeAll => cases ha

/-- Other steps than changes of the content leave the markup. -/
theorem markup_of_moves {a : Step} (hm : e.Moves a e₁) (ha : a.changesContent = false) :
    e₁.content.markup = e.content.markup := by
  cases a with
  | build _ _ _ _ =>
    cases hm with
    | idle => rfl
    | build _ hb =>
      obtain ⟨sc, -, he⟩ := Except.map_eq_ok_iff.1 hb
      exact (Prod.mk.inj he).2 ▸ rfl
  -- a scope of another number sees none of these
  | compile m _ | compileLocal m _ | dependencies m _ | clear m =>
    exact (of_moves (n := m + 1) hm (beq_eq_false_iff_ne.2 (Nat.lt_succ_self m).ne)).markup
  | fetch _ | hold _ | await _ => exact (of_moves (n := 0) hm rfl).markup
  | purge => cases hm <;> rfl
  | purgeAll => cases hm <;> rfl
  | put _ _ => cases ha
  | remove _ => cases ha

end SameView

/-! ## Operations on the scope -/

/-- Both engines have nothing to operate on, or both operations have one answer and leave engines that the
scope of number `n` cannot tell apart. -/
inductive Agree (n : Nat) {β : Type} : Option (β × Engine) → Option (β × Engine) → Prop
  | none : Agree n none none
  | some {e e' : Engine} (answer : β) (view : SameView n e e') :
      Agree n (some (answer, e)) (some (answer, e'))

namespace Agree

variable {β : Type} {x x' : Option (β × Engine)}

theorem fst_eq (h : Agree n x x') : x'.map Prod.fst = x.map Prod.fst := by
  cases h <;> rfl

/-- The engines that are left, or were there from the first. -/
theorem view (h : Agree n x x') (hv : SameView n e e') :
    SameView n ((x.map Prod.snd).getD e) ((x'.map Prod.snd).getD e') := by
  cases h with
  | none => exact hv
  | some _ hv' => exact hv'

end Agree

namespace SameView

theorem compileBy (h : SameView n e e') {source : Text}
    {resolve resolve' : Scope → Template → Except TemplateError (Table Instance) × Engine}
    (hr : ∀ sc root, (resolve' sc root).1 = (resolve sc root).1 ∧
      SameView n (resolve sc root).2 (resolve' sc root).2) :
    Agree n (e.compileBy n source resolve) (e'.compileBy n source resolve') := by
  unfold Engine.compileBy
  rw [h.scope]
  cases e.scope? n with
  | none => exact .none
  | some sc =>
    simp only [Option.map_some]
    split
    · exact .some _ h
    · split
      · exact .some _ h
      · unfold compileNew
        rw [h.parse]
        split
        · exact .some _ h
        · next root _ =>
          obtain ⟨hfst, hview⟩ := hr sc root
          generalize resolve sc root = p at hfst hview ⊢
          generalize resolve' sc root = p' at hfst hview ⊢
          obtain ⟨d, e₂⟩ := p
          obtain ⟨d', e₂'⟩ := p'
          obtain rfl : d' = d := hfst
          have ho : e₂'.objection = e₂.objection := hview.objection
          cases d' with
          | error err => exact .some _ hview
          | ok deps =>
            simp only [ho]
            exact .some _ (hview.setScope n rfl fun _ => rfl)

theorem compileLocal (h : SameView n e e') (source : Text) :
    Agree n (e.compileLocal n source) (e'.compileLocal n source) :=
  @compileBy e e' n h source e.resolveLocal e'.resolveLocal fun _ _ => ⟨rfl, h⟩

section

variable (h : SameView n e e') (hs : e.Settled) (hs' : e'.Settled)

include h

theorem resolved (sc : Scope) (root : Template) :
    SameView n (e.resolve sc root).2 (e'.resolve sc root).2 :=
  ((resolve n e sc root).symm.trans h).trans (resolve n e' sc root)

include hs hs'

/-- What is remote comes to the same in both engines, settled or not. -/
theorem peek (r : Text) : e'.peek r = e.peek r := by
  rw [hs'.peek, hs.peek, h.task, h.evaluate]

theorem loader (sc : Scope) : e'.loader sc = e.loader sc := by
  have hp : e'.peek = e.peek := funext (h.peek hs hs')
  simp only [Engine.loader, hp]

theorem fst_resolve (sc : Scope) (root : Template) : (e'.resolve sc root).1 = (e.resolve sc root).1 := by
  simp only [Engine.resolve, h.loader hs hs']

theorem compile (source : Text) : Agree n (e.compile n source) (e'.compile n source) :=
  h.compileBy fun sc root => ⟨h.fst_resolve hs hs' sc root, h.resolved sc root⟩

theorem dependencies (source : Text) :
    Agree n (e.dependencies n source) (e'.dependencies n source) := by
  unfold Engine.dependencies
  rw [h.scope]
  cases e.scope? n with
  | none => exact .none
  | some sc =>
    simp only [Option.map_some, h.parse]
    split
    · exact .some _ h
    · next root _ =>
      have hfst := h.fst_resolve hs hs' sc root
      have hview := h.resolved sc root
      generalize e.resolve sc root = p at hfst hview ⊢
      generalize e'.resolve sc root = p' at hfst hview ⊢
      obtain ⟨d, e₂⟩ := p
      obtain ⟨d', e₂'⟩ := p'
      obtain rfl : d' = d := hfst
      exact .some _ hview

end

theorem draft? (h : SameView n e e') (base : Base) (partials : List (Text × Given)) (helpers : Table Helper)
    (owner : Option Owner) :
    e'.draft? base partials helpers owner = e.draft? base partials helpers owner := by
  have hb : e'.base? base = e.base? base := by
    cases base with
    | nothing => rfl
    | engine => simp only [Engine.base?, Engine.draft, h.helpers]
    | scope m => exact h.drafts m
  simp only [Engine.draft?, hb, h.expander]

theorem build (h : SameView n e e') (d : Draft) : Agree n (e.build d).toOption (e'.build d).toOption := by
  have hd : Scope.ofDraft e'.objection d = Scope.ofDraft e.objection d := by rw [h.objection]
  unfold Engine.build
  rw [hd, h.built]
  cases Scope.ofDraft e.objection d with
  | error err => exact .none
  | ok sc =>
    have hs (m : Nat) : Engine.scope? { e' with others := sc :: e'.others } m =
        if m = e.others.length + 1 then some sc else e'.scope? m := by
      rw [scope?_built, h.built]
    refine .some _ ⟨h.expander, h.escaper, h.helpers, h.objection, h.service, h.shelf, h.epoch,
      h.task, congrArg (· + 1) h.built, ?_, fun m => ?_⟩
    · rw [hs, scope?_built, h.scope]
    · rw [hs, scope?_built]
      split
      · rfl
      · exact h.drafts m

theorem purge (h : SameView n e e') : SameView n e.purge e'.purge :=
  { h with
    epoch := congrArg (· + 1) h.epoch
    task := by
      funext r
      rw [Engine.purge, Engine.purge, Fetches.task_purge, Fetches.task_purge, h.epoch] }

theorem purgeAll (h : SameView n e e') : SameView n e.purgeAll e'.purgeAll := by
  have hd : e'.main.clear.draft = e.main.clear.draft := Option.some.inj (h.drafts 0)
  refine h.purge.setScope 0 hd ?_
  rintro rfl
  rw [Option.some.inj h.scope]

end SameView

/-- A scope is the same in both engines, rendered templates included, and whatever it may be asked to
compile or to resolve is answered alike. -/
structure Indistinct (n : Nat) (e e' : Engine) : Prop where
  scope : e'.scope? n = e.scope? n
  compile (source : Text) : (e'.compile n source).map Prod.fst = (e.compile n source).map Prod.fst
  compileLocal (source : Text) :
    (e'.compileLocal n source).map Prod.fst = (e.compileLocal n source).map Prod.fst
  dependencies (source : Text) :
    (e'.dependencies n source).map Prod.fst = (e.dependencies n source).map Prod.fst

theorem SameView.indistinct (h : SameView n e e') (hs : e.Settled) (hs' : e'.Settled) :
    Indistinct n e e' :=
  ⟨h.scope, fun source => (h.compile hs hs' source).fst_eq, fun source => (h.compileLocal source).fst_eq,
    fun source => (h.dependencies hs hs' source).fst_eq⟩

end Engine

namespace Session

variable {s s' : Session} {n : Nat} {a : Step}

/-! ## Steps -/

/-- The steps that are kept leave alike what was alike. -/
theorem sameView_step (h : s.engine.SameView n s'.engine) (hs : s.engine.Settled)
    (hs' : s'.engine.Settled) (ha : a.keptFor n = true) :
    (s.step a).engine.SameView n (s'.step a).engine := by
  cases a with
  | build base partials helpers owner =>
    rw [engine_step_build, engine_step_build, h.draft?]
    cases s.engine.draft? base partials helpers owner with
    | none => exact h
    | some d => exact (h.build d).view h
  | compile m source =>
    obtain rfl := beq_iff_eq.1 ha
    rw [engine_step_compile, engine_step_compile]
    exact (h.compile hs hs' source).view h
  | compileLocal m source =>
    obtain rfl := beq_iff_eq.1 ha
    rw [engine_step_compileLocal, engine_step_compileLocal]
    exact (h.compileLocal source).view h
  | dependencies m source =>
    obtain rfl := beq_iff_eq.1 ha
    rw [engine_step_dependencies, engine_step_dependencies]
    exact (h.dependencies hs hs' source).view h
  | clear m =>
    obtain rfl := beq_iff_eq.1 ha
    simp only [step, h.scope]
    split
    · exact h.setScope m rfl fun _ => rfl
    · exact h
  | put r markup => exact { h with shelf := congrArg (Table.insert r markup) h.shelf }
  | remove r => exact { h with shelf := congrArg (Table.erase r) h.shelf }
  | purge => exact h.purge
  | purgeAll => exact h.purgeAll
  | fetch _ => cases ha
  | hold _ => cases ha
  | await _ => cases ha

/-! ## Runs -/

/-- The content service has the same markup all the time. -/
def Steady (s : Session) (steps : List Step) : Prop :=
  ∀ before after, steps = before ++ after →
    (s.run before).engine.content.markup = s.engine.content.markup

theorem Steady.step {steps : List Step} (h : s.Steady (a :: steps)) :
    (s.step a).engine.content.markup = s.engine.content.markup ∧ (s.step a).Steady steps := by
  have ha := h [a] steps rfl
  refine ⟨ha, fun before after he => ?_⟩
  have hb := h (a :: before) after (by rw [he]; rfl)
  exact hb.trans ha.symm

theorem steady_of_changesContent {steps : List Step} (h : ∀ a ∈ steps, a.changesContent = false) :
    s.Steady steps := by
  rintro before after rfl
  induction before generalizing s with
  | nil => rfl
  | cons a before ih =>
    have ha := Engine.SameView.markup_of_moves (s.moves_step a) (h a List.mem_cons_self)
    exact (ih fun b hb => h b (List.mem_cons_of_mem _ hb)).trans ha

/-- A run and what is left of it for a scope. -/
theorem sameView_run (h : s.engine.SameView n s'.engine) (hs : s.engine.Settled)
    (hs' : s'.engine.Settled) {steps : List Step} (hm : s.Steady steps) :
    (s.run steps).engine.SameView n (s'.run (steps.filter (Step.keptFor n))).engine ∧
      (s.run steps).engine.Settled ∧ (s'.run (steps.filter (Step.keptFor n))).engine.Settled := by
  induction steps generalizing s s' with
  | nil => exact ⟨h, hs, hs'⟩
  | cons a steps ih =>
    obtain ⟨ha, hrest⟩ := hm.step
    have hs₁ : (s.step a).engine.Settled := hs.moves (s.moves_step a) ha
    cases hk : a.keptFor n with
    | true =>
      rw [List.filter_cons_of_pos hk]
      have h₁ := sameView_step h hs hs' hk
      have ha' : (s'.step a).engine.content.markup = s'.engine.content.markup := by
        rw [h₁.markup, ha, h.markup]
      exact ih h₁ hs₁ (hs'.moves (s'.moves_step a) ha') hrest
    | false =>
      rw [List.filter_cons_of_neg (Bool.eq_false_iff.1 hk)]
      exact ih ((Engine.SameView.of_moves (s.moves_step a) hk).symm.trans h) hs₁ hs' hrest

/-- What a scope is told does not depend on other scopes.  In any run over markup that stays the same, purges
or not, all that is done in other scopes and with tasks can be left out, except for building scopes: at every
point of the run the scope is what it would be without that, with the same templates on record under the same
numbers and the same registry, and whatever it may do next is answered as it would be. -/
theorem isolated {e₀ : Engine} {expander : Expander} {escaper : Escaper} {helpers : Table Helper}
    {objection : Objection} {service : Service} {shelf partials : Table Text}
    (h₀ : Engine.start expander escaper helpers objection service shelf partials = .ok e₀)
    {steps : List Step} (hm : (start e₀).Steady steps) (n : Nat) {before after : List Step}
    (hb : steps = before ++ after) :
    Engine.Indistinct n ((start e₀).run before).engine
      ((start e₀).run (before.filter (Step.keptFor n))).engine := by
  have hs : (start e₀).engine.Settled := by
    obtain ⟨d, main, -, -, rfl⟩ := Engine.of_start h₀
    intro t o ho
    exact nomatch ho
  have hm' : (start e₀).Steady before := fun first rest he =>
    hm first (rest ++ after) (by rw [hb, he, List.append_assoc])
  obtain ⟨h, hs₁, hs₁'⟩ := sameView_run (.refl n _) hs hs hm'
  exact h.indistinct hs₁ hs₁'

/-- Another scope compiles the page, and the client fetches it. -/
def busySteps : List Step :=
  [.build .nothing [] [] none, .compile 1 "{{>a:}}".toList, .fetch ['a', ':'], .compileLocal 1 ['x']]

/-- The main scope compiles the page as if it were the first to do so. -/
theorem isolated_busy :
    (((start (pageEngine [] [])).run busySteps).engine.compile 0 "{{>a:}}".toList).map Prod.fst =
      some (.ok (some pageCompiled)) := by
  have hsteady : (start (pageEngine [] [])).Steady busySteps := steady_of_changesContent (by decide)
  have h := isolated start_pageEngine hsteady 0 (List.append_nil busySteps).symm
  have halone : Succeeds
      ((start (pageEngine [] [])).run (busySteps.filter (Step.keptFor 0))).engine
      "{{>a:}}".toList pageRoot firstPage := succeeds_of_pending parse_pageRoot rfl rfl rfl rfl rfl rfl rfl rfl
  rw [← h.compile, halone.compile_eq]
  rfl

end Session

end Stencil
