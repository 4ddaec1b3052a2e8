import Mathlib.Data.Finset.Card
import Mathlib.Data.Finset.Range
import Stencil.Proofs.Session.Fetching
import Stencil.Proofs.Table
/-!
Tasks over a memory service, through any sequence of steps.

A task stays on record until the next purge, so that no other is made for its identifier meanwhile
(`Fetches.Kept`).  `Recorded` ties the record of tasks and the calls of the service to what the client has
seen.  Every step keeps it (`Recorded.step`), so every run does.  `tasks_run`: one outcome and one call for
each task that is ever waited for, one task for all requests for an identifier between purges, and counters
that add up.
-/

namespace Stencil

/-! ## The record of tasks -/

namespace Fetches

/-- The tasks made since the last purge are on record, each the only one for its identifier, and as many as
the misses. -/
structure Kept (f : Fetches) : Prop where
  entry : ∀ r t, f.entries.find? r = some t → t = ⟨r, f.epoch, 0⟩
  made : ∀ r, f.entries.find? r = none → f.made.find? r = none
  size : f.entries.length = f.misses

/-- The task is on record, or was made before the last purge, the only one for its identifier at its time. -/
def Knows (f : Fetches) (t : Task) : Prop :=
  t.number = 0 ∧ (t.epoch < f.epoch ∨ f.entries.find? t.identifier = some t)

variable {f : Fetches} {r : Text} {t : Task}

theorem find?_entries_request_of_some {s : Text} (h : f.entries.find? s = some t) :
    (f.request r).2.entries.find? s = some t := by
  rw [find?_entries_request]
  split
  · next hs => rw [task_of_some (hs ▸ h)]
  · exact h

namespace Kept

theorem task_eq (h : f.Kept) (r : Text) : f.task r = ⟨r, f.epoch, 0⟩ := by
  cases he : f.entries.find? r with
  | some t => rw [task_of_some he, h.entry r t he]
  | none => rw [task_of_none he, fresh, h.made r he, Option.getD_none]

theorem request (h : f.Kept) (r : Text) : (f.request r).2.Kept where
  entry s t ht := by
    rw [epoch_request]
    rw [find?_entries_request] at ht
    split at ht
    · next hs => rw [← Option.some.inj ht, h.task_eq r, hs]
    · exact h.entry s t ht
  made s hs := by
    rw [find?_entries_request] at hs
    split at hs
    · cases hs
    · next hne => rw [made_request_of_ne hne, h.made s hs]
  size := by
    cases he : f.entries.find? r with
    | some t =>
      rw [request_of_some he]
      exact h.size
    | none =>
      rw [request_of_none he]
      exact (Table.length_insert_of_none he _).trans (congrArg (· + 1) h.size)

theorem settle (h : f.Kept) (t : Task) (o : Outcome) : (f.settle t o).Kept :=
  ⟨h.entry, h.made, h.size⟩

theorem purge (f : Fetches) : f.purge.Kept :=
  ⟨fun _ _ h => (nomatch h), fun _ _ => rfl, rfl⟩

/-- The task that a request is given is on record after it. -/
theorem knows_task (h : f.Kept) (r : Text) : (f.request r).2.Knows (f.task r) := by
  have hs : (f.request r).2.entries.find? r = some (f.task r) := by
    rw [find?_entries_request, if_pos rfl]
  refine ⟨by rw [h.task_eq], .inr ?_⟩
  rwa [show (f.task r).identifier = r by rw [h.task_eq]]

theorem epoch_le (h : f.Kept) (ht : f.Knows t) : t.epoch ≤ f.epoch := by
  obtain ⟨-, hlt | hentry⟩ := ht
  · exact Nat.le_of_lt hlt
  · exact Nat.le_of_eq (congrArg Task.epoch (h.entry _ t hentry))

/-- A task that has to be made is not one that is known. -/
theorem not_knows_task (h : f.Kept) (hr : f.entries.find? r = none) : ¬ f.Knows (f.task r) := by
  rw [h.task_eq]
  rintro ⟨-, hlt | hentry⟩
  · exact Nat.lt_irrefl _ hlt
  · cases hr.symm.trans hentry

end Kept

namespace Knows

theorem request (h : f.Knows t) (r : Text) : (f.request r).2.Knows t := by
  refine ⟨h.1, ?_⟩
  rw [epoch_request]
  exact h.2.imp_right find?_entries_request_of_some

theorem purge (h : f.Knows t) (hf : f.Kept) : f.purge.Knows t :=
  ⟨h.1, .inl (Nat.lt_succ_of_le (hf.epoch_le h))⟩

end Knows

end Fetches

namespace Session

/-- The tasks waited for so far. -/
def awaited (s : Session) : Finset Task :=
  (s.answers.map Prod.fst).toFinset

/-- What the engine has on record is what the client has seen. -/
structure Recorded (s : Session) : Prop where
  service : s.engine.content.service = .memory
  epoch : s.engine.fetches.epoch = s.purges
  kept : s.engine.fetches.Kept
  given : ∀ p ∈ s.requests, s.engine.fetches.entries.find? p.1 = some p.2
  held : ∀ t ∈ s.held, s.engine.fetches.Knows t
  begun : ∀ t ∈ s.awaited, s.engine.fetches.Knows t
  told : ∀ p ∈ s.answers, s.engine.fetches.outcome? p.1 = some p.2
  settled : ∀ t o, s.engine.fetches.outcome? t = some o → t ∈ s.awaited
  calls : ∀ r, s.engine.content.callCount r = (s.awaited.filter fun t => t.identifier = r).card
  requests : s.engine.fetches.hits + s.engine.fetches.misses = s.requests.length

variable {s : Session} {e : Engine}

/-! ## Requests and waits -/

theorem Recorded.of_sameSources (h : s.Recorded) (he : s.engine.SameSources e) :
    Recorded { s with engine := e } := by
  obtain ⟨hc, hf⟩ := he
  constructor
  all_goals simp only [hc, hf]
  · exact h.service
  · exact h.epoch
  · exact h.kept
  · exact h.given
  · exact h.held
  · exact h.begun
  · exact h.told
  · exact h.settled
  · exact h.calls
  · exact h.requests

theorem Recorded.request (h : s.Recorded) (r : Text) : (s.request r).Recorded where
  service := h.service
  epoch := (Fetches.epoch_request _ r).trans h.epoch
  kept := h.kept.request r
  given p hp := by
    rcases List.mem_append.1 hp with hp | hp
    · exact Fetches.find?_entries_request_of_some (h.given p hp)
    · rw [List.mem_singleton.1 hp]
      exact (Fetches.find?_entries_request _ r r).trans (if_pos rfl)
  held t ht := (h.held t ht).request r
  begun t ht := (h.begun t ht).request r
  told p hp := (Fetches.outcome?_request _ r p.1).trans (h.told p hp)
  settled t o ht := h.settled t o ((Fetches.outcome?_request _ r t).symm.trans ht)
  calls := h.calls
  requests := by
    have := h.requests
    simp only [Session.request, Engine.request, Fetches.request, List.length_append, List.length_singleton]
    split <;> simp only <;> omega

theorem awaited_await (s : Session) (t : Task) : (s.await t).awaited = insert t s.awaited := by
  ext u
  simp [awaited, await, eq_comm]

theorem Recorded.mem_awaited (h : s.Recorded) {t : Task} :
    t ∈ s.awaited ↔ (s.engine.fetches.outcome? t).isSome = true := by
  constructor
  · intro ht
    obtain ⟨p, hp, rfl⟩ := List.mem_map.1 (List.mem_toFinset.1 ht)
    rw [h.told p hp]
    rfl
  · intro ht
    obtain ⟨o, ho⟩ := Option.isSome_iff_exists.1 ht
    exact h.settled t o ho

/-- Waiting for a settled task is told what the others were told. -/
theorem Recorded.await_settled (h : s.Recorded) {t : Task} {o : Outcome}
    (ho : s.engine.fetches.outcome? t = some o) : (s.await t).Recorded := by
  have he : s.engine.await t = (o, s.engine) := Engine.await_of_settled ho
  have ha : (s.await t).awaited = s.awaited := by
    rw [awaited_await, Finset.insert_eq_of_mem (h.settled t o ho)]
  have hs : (s.await t).engine = s.engine := congrArg Prod.snd he
  constructor
  all_goals simp only [hs, ha]
  case told =>
    intro p hp
    rcases List.mem_append.1 hp with hp | hp
    · exact h.told p hp
    · rw [List.mem_singleton.1 hp, he]
      exact ho
  case service => exact h.service
  case epoch => exact h.epoch
  case kept => exact h.kept
  case given => exact h.given
  case held => exact h.held
  case begun => exact h.begun
  case settled => exact h.settled
  case calls => exact h.calls
  case requests => exact h.requests

/-- The first to wait for a task makes the service be called, once. -/
theorem Recorded.await_pending (h : s.Recorded) {t : Task}
    (ho : s.engine.fetches.outcome? t = none) (ht : s.engine.fetches.Knows t) : (s.await t).Recorded := by
  have he := Engine.await_of_pending ho
  have hfetches : (s.await t).engine.fetches = s.engine.fetches.settle t (s.engine.evaluate t) := by
    simp only [Session.await, he]
  have hcontent : (s.await t).engine.content = s.engine.content.asked t.identifier := by
    simp only [Session.await, he]
  have hnew : t ∉ s.awaited := by
    rw [h.mem_awaited, ho]
    exact Bool.false_ne_true
  have hout : ∀ u, (s.await t).engine.fetches.outcome? u =
      if u = t then some (s.engine.await t).1 else s.engine.fetches.outcome? u :=
    Engine.outcome?_await s.engine t
  constructor
  case service => rw [hcontent, Content.service_asked, h.service]
  case epoch => rw [hfetches]; exact h.epoch
  case kept => rw [hfetches]; exact h.kept.settle t _
  case given => rw [hfetches]; exact h.given
  case held => rw [hfetches]; exact h.held
  case begun =>
    intro u hu
    rw [hfetches]
    rw [awaited_await, Finset.mem_insert] at hu
    rcases hu with rfl | hu
    · exact ht
    · exact h.begun u hu
  case told =>
    intro p hp
    rw [hout]
    have hp : p ∈ s.answers ++ [(t, (s.engine.await t).1)] := hp
    rcases List.mem_append.1 hp with hold | hlast
    · have hne : p.1 ≠ t := by
        intro he
        rw [← he, h.told p hold] at ho
        exact nomatch ho
      rw [if_neg hne]
      exact h.told p hold
    · rw [List.mem_singleton.1 hlast, if_pos rfl]
  case settled =>
    intro u o hu
    rw [awaited_await, Finset.mem_insert]
    rw [hout] at hu
    by_cases hut : u = t
    · exact .inl hut
    · rw [if_neg hut] at hu
      exact .inr (h.settled u o hu)
  case calls =>
    intro r
    rw [hcontent, Content.callCount_asked h.service, awaited_await, Finset.filter_insert]
    by_cases hr : r = t.identifier
    · rw [if_pos hr, if_pos hr.symm, Finset.card_insert_of_notMem (by simp [hnew]), ← h.calls, hr]
    · rw [if_neg hr, if_neg (Ne.symm hr), h.calls]
  case requests => rw [hfetches]; exact h.requests

theorem Recorded.await (h : s.Recorded) {t : Task} (ht : s.engine.fetches.Knows t) :
    (s.await t).Recorded := by
  cases ho : s.engine.fetches.outcome? t with
  | some o => exact h.await_settled ho
  | none => exact h.await_pending ho ht

theorem Recorded.fetch (h : s.Recorded) (r : Text) : (s.fetch r).Recorded :=
  (h.request r).await (h.kept.knows_task r)

theorem Recorded.fetchAll (h : s.Recorded) (rs : List Text) : (s.fetchAll rs).Recorded := by
  induction rs generalizing s with
  | nil => exact h
  | cons r rs ih => exact ih (h.fetch r)

/-! ## Steps -/

/-- What a resolution has told its scope is what fetching would have told the client. -/
theorem resolved_eq {sc : Scope} {rs : List Text}
    (hr : ∀ r ∈ rs, (s.engine.loader sc).answer r = s.engine.peek r) :
    s.resolved sc rs e = { s.fetchAll rs with engine := e } := by
  have ha : rs.map (fun r => ((s.engine.request r).1, (s.engine.loader sc).answer r)) =
      rs.map fun r => ((s.engine.request r).1, s.engine.peek r) :=
    List.map_congr_left fun r hm => by rw [hr r hm]
  rw [fetchAll_eq, resolved, ha]

theorem Recorded.resolved (h : s.Recorded) {sc : Scope} {rs : List Text}
    (hr : ∀ r ∈ rs, (s.engine.loader sc).answer r = s.engine.peek r)
    (he : (s.engine.fetchAll rs).SameSources e) : (s.resolved sc rs e).Recorded := by
  rw [resolved_eq hr]
  refine (h.fetchAll rs).of_sameSources ?_
  rw [fetchAll_eq]
  exact he

theorem Recorded.purged (h : s.Recorded) (he : s.engine.purge.SameSources e) :
    (s.purged e).Recorded := by
  have hp : ({ s with engine := s.engine.purge, requests := [], purges := s.purges + 1 } :
      Session).Recorded :=
    { service := h.service
      epoch := congrArg (· + 1) h.epoch
      kept := .purge _
      given := fun _ hp => absurd hp List.not_mem_nil
      held := fun t ht => (h.held t ht).purge h.kept
      begun := fun t ht => (h.begun t ht).purge h.kept
      told := h.told
      settled := h.settled
      calls := h.calls
      requests := rfl }
  exact hp.of_sameSources he

theorem Recorded.step (h : s.Recorded) (a : Step) : (s.step a).Recorded := by
  cases a with
  | build base partials helpers owner =>
    simp only [Session.step]
    split
    · exact h
    · split
      · exact h
      · next hb => exact h.of_sameSources (Engine.sameSources_build hb)
  | compile n source =>
    simp only [Session.step]
    split
    · next sc _ _ hs hc =>
      refine h.resolved (fun r hr => ?_) (Engine.sameSources_compile hs hc)
      split at hr
      · exact Engine.answer_of_wanted hr
      · exact absurd hr List.not_mem_nil
    · exact h
  | compileLocal n source =>
    simp only [Session.step]
    split
    · next hc => exact h.of_sameSources (Engine.sameSources_compileLocal hc)
    · exact h
  | dependencies n source =>
    simp only [Session.step]
    split
    · next hs hd =>
      exact h.resolved (fun r hr => Engine.answer_of_wanted hr) (Engine.sameSources_dependencies hs hd)
    · exact h
  | clear n =>
    simp only [Session.step]
    split
    · exact h.of_sameSources (Engine.sameSources_setScope _ _ _)
    · exact h
  | fetch r => exact h.fetch r
  | hold r =>
    have hr := h.request r
    refine { hr with held := fun t ht => ?_ }
    rcases List.mem_append.1 ht with ht | ht
    · exact hr.held t ht
    · rw [List.mem_singleton.1 ht]
      exact h.kept.knows_task r
  | await place =>
    simp only [Session.step]
    split
    · next ht => exact h.await (h.held _ (List.mem_of_getElem? ht))
    · exact h
  | put r m => exact { h with }
  | remove r => exact { h with }
  | purge => exact h.purged (.refl _)
  | purgeAll => exact h.purged ⟨rfl, rfl⟩

/-! ## Runs -/

theorem Recorded.run (h : s.Recorded) (steps : List Step) : (s.run steps).Recorded := by
  induction steps generalizing s with
  | nil => exact h
  | cons a steps ih => exact ih (h.step a)

section

variable {expander : Expander} {escaper : Escaper} {helpers : Table Helper} {objection : Objection}
  {service : Service} {shelf partials : Table Text}

theorem Recorded.start
    (h : Engine.start expander escaper helpers objection .memory shelf partials = .ok e) :
    (start e).Recorded := by
  obtain ⟨d, main, -, -, rfl⟩ := Engine.of_start h
  exact
    { service := rfl
      epoch := rfl
      kept := ⟨fun _ _ ht => (nomatch ht), fun _ _ => rfl, rfl⟩
      given := fun _ hp => absurd hp List.not_mem_nil
      held := fun _ ht => absurd ht List.not_mem_nil
      begun := fun t ht => absurd ht (Finset.notMem_empty t)
      told := fun _ hp => absurd hp List.not_mem_nil
      settled := fun _ _ ht => (nomatch ht)
      calls := fun _ => rfl
      requests := rfl }

end

theorem purges_step (s : Session) (a : Step) :
    (s.step a).purges = s.purges + if a.isPurge then 1 else 0 := by
  cases a <;> simp only [step, Step.isPurge, Bool.false_eq_true, if_true, if_false]
  all_goals repeat' split
  all_goals rfl

/-- The purges of a session are the steps that purge. -/
theorem purges_run (s : Session) (steps : List Step) :
    (s.run steps).purges = s.purges + steps.countP Step.isPurge := by
  induction steps generalizing s with
  | nil => rfl
  | cons a steps ih =>
    rw [run_cons, ih, purges_step, List.countP_cons]
    omega

/-- A task that was waited for is not evaluated again. -/
theorem Recorded.await_again (h : s.Recorded) {t : Task} {o : Outcome} (ht : (t, o) ∈ s.answers) :
    s.engine.await t = (o, s.engine) :=
  Engine.await_of_settled (h.told _ ht)

/-- A request that has been made is repeated with the same task until there is a purge. -/
theorem Recorded.request_run_iff (h : s.Recorded) (r : Text) (steps : List Step) :
    (((s.request r).run steps).engine.request r).1 = (s.engine.request r).1 ↔
      ∀ a ∈ steps, a.isPurge = false := by
  have hp : steps.countP Step.isPurge = 0 ↔ ∀ a ∈ steps, a.isPurge = false := by
    simp only [List.countP_eq_zero, Bool.not_eq_true]
  have hlast := (h.request r).run steps
  have hpurges : ((s.request r).run steps).purges = s.purges + steps.countP Step.isPurge :=
    purges_run (s.request r) steps
  have heq : (((s.request r).run steps).engine.request r).1 =
      ⟨r, s.purges + steps.countP Step.isPurge, 0⟩ := by
    rw [← hpurges, ← hlast.epoch]
    exact hlast.kept.task_eq r
  have heq' : (s.engine.request r).1 = ⟨r, s.purges, 0⟩ := by
    rw [← h.epoch]
    exact h.kept.task_eq r
  rw [heq, heq', Task.mk.injEq, ← hp]
  simp only [true_and, and_true, Nat.add_eq_left]

/-- The tasks for one identifier differ in their epochs, and there are as many epochs as purges, and one. -/
theorem Recorded.callCount_le (h : s.Recorded) (r : Text) :
    s.engine.content.callCount r ≤ 1 + s.purges := by
  have hm : ∀ t ∈ s.awaited.filter fun t => t.identifier = r, t.epoch ∈ Finset.range (s.purges + 1) := by
    intro t ht
    have hle := h.kept.epoch_le (h.begun t (Finset.mem_filter.1 ht).1)
    rw [h.epoch] at hle
    exact Finset.mem_range.2 (Nat.lt_succ_of_le hle)
  have hinj : ∀ t ∈ s.awaited.filter fun t => t.identifier = r,
      ∀ u ∈ s.awaited.filter fun t => t.identifier = r, t.epoch = u.epoch → t = u := by
    intro t ht u hu he
    obtain ⟨ht, hr⟩ := Finset.mem_filter.1 ht
    obtain ⟨hu, hr'⟩ := Finset.mem_filter.1 hu
    obtain ⟨a, m, i⟩ := t
    obtain ⟨b, n, j⟩ := u
    rw [Task.mk.injEq]
    exact ⟨hr.trans hr'.symm, he, (h.begun _ ht).1.trans (h.begun _ hu).1.symm⟩
  rw [h.calls, Nat.add_comm]
  calc (s.awaited.filter fun t => t.identifier = r).card
      ≤ (Finset.range (s.purges + 1)).card := Finset.card_le_card_of_injOn Task.epoch hm hinj
    _ = s.purges + 1 := Finset.card_range _

/-- After any steps over a memory service:

1. All who waited for a task were told the same, and who waits for it now is told that too, which changes
   nothing.  The service was called for an identifier once for each task that was waited for.
2. The requests for an identifier since the last purge were all given one task, which is on record, and is
   what the next request is given; and this goes on until there is a purge.  A request that finds no task on
   record is given one that was not held and not waited for before.  So there are at most as many calls for
   an identifier as purges, and one.
3. The tasks on record are the misses, and hits and misses are the requests since the last purge. -/
theorem tasks_run {e₀ : Engine} {steps : List Step} {expander : Expander} {escaper : Escaper}
    {helpers : Table Helper} {objection : Objection} {shelf partials : Table Text}
    (h₀ : Engine.start expander escaper helpers objection .memory shelf partials = .ok e₀)
    (hs : (start e₀).run steps = s) :
    ((∀ t o o', (t, o) ∈ s.answers → (t, o') ∈ s.answers → o = o') ∧
      (∀ t o, (t, o) ∈ s.answers → s.engine.await t = (o, s.engine)) ∧
      ∀ r, s.engine.content.callCount r = (s.awaited.filter fun t => t.identifier = r).card) ∧
    ((∀ r t t', (r, t) ∈ s.requests → (r, t') ∈ s.requests → t = t') ∧
      (∀ r t, (r, t) ∈ s.requests →
        s.engine.fetches.contains r = true ∧ (s.engine.request r).1 = t) ∧
      (∀ r more, (((s.request r).run more).engine.request r).1 = (s.engine.request r).1 ↔
        ∀ a ∈ more, a.isPurge = false) ∧
      (∀ r, s.engine.fetches.contains r = false →
        (s.engine.request r).1 ∉ s.held ∧ (s.engine.request r).1 ∉ s.awaited) ∧
      ∀ r, s.engine.content.callCount r ≤ 1 + steps.countP Step.isPurge) ∧
    s.engine.fetches.size = s.engine.fetches.misses ∧
    s.engine.fetches.hits + s.engine.fetches.misses = s.requests.length := by
  have h : s.Recorded := hs ▸ (Recorded.start h₀).run steps
  have hp : s.purges = steps.countP Step.isPurge := by
    rw [← hs, purges_run]
    exact Nat.zero_add _
  refine ⟨⟨?_, fun t o => h.await_again, h.calls⟩,
    ⟨?_, ?_, fun r more => h.request_run_iff r more, ?_, ?_⟩, h.kept.size, h.requests⟩
  · intro t o o' ho ho'
    have heq := (h.await_again ho).symm.trans (h.await_again ho')
    exact (Prod.mk.inj heq).1
  · intro r t t' ht ht'
    exact Option.some.inj ((h.given _ ht).symm.trans (h.given _ ht'))
  · intro r t ht
    have hentry : s.engine.fetches.entries.find? r = some t := h.given _ ht
    refine ⟨?_, Fetches.task_of_some hentry⟩
    rw [Fetches.contains, Table.contains, hentry]
    rfl
  · intro r hr
    rw [Fetches.contains, Table.contains, Option.isSome_eq_false_iff, Option.isNone_iff_eq_none] at hr
    have hnew := h.kept.not_knows_task hr
    exact ⟨fun ht => hnew (h.held _ ht), fun ht => hnew (h.begun _ ht)⟩
  · intro r
    rw [← hp]
    exact h.callCount_le r

/-- Two requests that share a task, which is waited for after a purge and, next to a later task, after a
change of its markup. -/
def lateSteps : List Step :=
  [.hold ['a', ':'], .hold ['a', ':'], .put ['a', ':'] ['x'], .purge, .await 0, .put ['a', ':'] ['y'],
    .fetch ['a', ':'], .await 1]

/-- A task and the source that whoever waited for it was given. -/
def told (p : Task × Outcome) : Task × Option Text :=
  (p.1, p.2.toOption.map (·.template.source))

theorem tasks_run_late : ∃ e₀ s s',
    Engine.start .identity .default [] (fun _ => none) .memory [] [] = .ok e₀ ∧
    (start e₀).run (lateSteps.take 2) = s ∧ (start e₀).run lateSteps = s' ∧
    (s.requests = [(['a', ':'], ⟨['a', ':'], 0, 0⟩), (['a', ':'], ⟨['a', ':'], 0, 0⟩)] ∧
      s.engine.fetches.size = s.engine.fetches.misses ∧
      s.engine.fetches.hits = 1 ∧ s.engine.fetches.misses = 1) ∧
    s'.answers.map told =
      [(⟨['a', ':'], 0, 0⟩, some ['x']), (⟨['a', ':'], 1, 0⟩, some ['y']),
        (⟨['a', ':'], 0, 0⟩, some ['x'])] ∧
    (∀ o o', (⟨['a', ':'], 0, 0⟩, o) ∈ s'.answers → (⟨['a', ':'], 0, 0⟩, o') ∈ s'.answers → o = o') ∧
    s'.engine.content.callCount ['a', ':'] = 2 ∧ s'.engine.content.callCount ['a', ':'] ≤ 2 ∧
    s'.engine.fetches.hits = 0 ∧ s'.engine.fetches.misses = 1 := by
  obtain ⟨e₀, h₀⟩ : ∃ e₀,
      Engine.start .identity .default [] (fun _ => none) .memory [] [] = .ok e₀ := ⟨_, rfl⟩
  obtain ⟨-, -, hsize, -⟩ := tasks_run h₀ (rfl : (start e₀).run (lateSteps.take 2) = _)
  obtain ⟨⟨ho, -⟩, ⟨-, -, -, -, hc⟩, -⟩ := tasks_run h₀ (rfl : (start e₀).run lateSteps = _)
  refine ⟨e₀, _, _, h₀, rfl, rfl, ⟨?_, hsize, ?_, ?_⟩, ?_, ho ⟨['a', ':'], 0, 0⟩, ?_, hc ['a', ':'], ?_, ?_⟩
  all_goals
    cases h₀
    decide +kernel

end Session

end Stencil
