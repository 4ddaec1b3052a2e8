import Stencil.Proofs.Session.Frame
/-!
The record of compiled templates, as tasks keep it.

A caller that compiles a source finds its task on the record of the scope, or enters one that waits; it
polls the task, which then has its answer for good, and takes it off the record if that is a failure.  A
compilation with the partials alone enters a task only when it has succeeded.  The compiled templates of a
scope stand for such a record on which every task is finished, with a template (`Scope.tasks`).  Each step
keeps it so (`compileTasksAfter_tasks`), so that the record of tasks is that of the scope at the end of any run
(`compileTasks_run`).  Compilations that are joined are polled in order, and so come one after the other
(`joinTasks_run`).
-/

namespace Stencil

/-- A task that compiles a source: it waits to be polled, or it has come to an answer. -/
inductive CompileTask
  | waiting
  | finished (answer : Engine.Compilation)

/-- Tasks by source. -/
abbrev CompileTasks := Table CompileTask

namespace CompileTasks

/-- The record for one who asks for the task of a source. -/
def enter (r : CompileTasks) (source : Text) : CompileTasks :=
  if r.contains source then r else r.insert source .waiting

/-- The record without the task of a source, if that has failed. -/
def dropFailed (r : CompileTasks) (source : Text) : CompileTasks :=
  match r.find? source with
  | some (.finished (.error _)) => r.erase source
  | _ => r

end CompileTasks

/-- The record of tasks that the compiled templates of a scope stand for. -/
def Scope.tasks (s : Scope) : CompileTasks :=
  s.compiled.map fun p => (p.1, .finished (.ok (some p.2)))

namespace Engine

/-- Compiles a source by its task. -/
def compileTask (e : Engine) (n : Nat) (r : CompileTasks) (source : Text) :
    Option ((Compilation × Engine) × CompileTasks) :=
  (e.scope? n).map fun s =>
    if source.isEmpty then ((.ok none, e), r)
    else
      let r := r.enter source
      match r.find? source with
      | some (.finished o) => ((o, e), r.dropFailed source)
      | _ =>
        let p := e.compileNew n s source (e.resolve s)
        (p, CompileTasks.dropFailed (r.insert source (.finished p.1)) source)

/-- Compiles several sources by their tasks, which are polled in order. -/
def joinTasks (e : Engine) (n : Nat) (r : CompileTasks) :
    List Text → Option ((List Compilation × Engine) × CompileTasks)
  | [] => some (([], e), r)
  | source :: rest => do
    let ((o, e), r) ← e.compileTask n r source
    let ((os, e), r) ← e.joinTasks n r rest
    return ((o :: os, e), r)

/-- Compiles a source with the partials of the scope alone, unless its task has succeeded. -/
def compileLocalTask (e : Engine) (n : Nat) (r : CompileTasks) (source : Text) :
    Option ((Compilation × Engine) × CompileTasks) :=
  (e.scope? n).map fun s =>
    if source.isEmpty then ((.ok none, e), r)
    else
      match r.find? source with
      | some (.finished (.ok c)) => ((.ok c, e), r)
      | _ =>
        let p := e.compileNew n s source (e.resolveLocal s)
        (p, match p.1 with
          | .ok c => r.insert source (.finished (.ok c))
          | .error _ => r)

/-! ## What a compilation leaves on record -/

/-- What a compilation answers, and the compiled templates that it leaves. -/
inductive Records (s : Scope) (source : Text) : Compilation → Table Compiled → Prop
  | stale : isFresh s source = false →
      Records s source (.ok (if source = [] then none else s.compiled.find? source)) s.compiled
  | failed (err : TemplateError) : isFresh s source = true → Records s source (.error err) s.compiled
  | made (c : Compiled) : isFresh s source = true →
      Records s source (.ok (some c)) (s.compiled.insert source c)

variable {e e' : Engine} {s s' : Scope} {n : Nat} {a : Step} {source : Text} {o : Compilation}
  {resolve : Scope → Template → Except TemplateError (Table Instance) × Engine}

theorem records_of_compileBy (ha : e.Compiling a n source resolve)
    (hc : e.compileBy n source resolve = some (o, e')) (hs : e.scope? n = some s)
    (hs' : e'.scope? n = some s') : Records s source o s'.compiled := by
  obtain ⟨s₁, hs₁, hcomp⟩ := compiles_of_compileBy hc
  obtain rfl := Option.some.inj (hs.symm.trans hs₁)
  cases hcomp with
  | stale hf =>
    have heq := hc.symm.trans (compileBy_of_stale hs hf)
    obtain rfl := Option.some.inj (hs.symm.trans hs')
    rw [(Prod.mk.inj (Option.some.inj heq)).1]
    exact .stale hf
  | unreadable hf _ =>
    obtain rfl := Option.some.inj (hs.symm.trans hs')
    exact .failed _ hf
  | @unresolved root _ hf _ _ =>
    rw [ha.scope?_resolve, hs] at hs'
    obtain rfl := Option.some.inj hs'
    exact .failed _ hf
  | @installed root deps hf hp _ =>
    rw [scope?_setScope, if_pos rfl, ha.scope?_resolve, hs] at hs'
    obtain rfl := Option.some.inj hs'
    have hi := Scope.installed_install (resolve s root).2.objection s root deps
    rw [← source_of_parse hp] at hf ⊢
    generalize s.install (resolve s root).2.objection root deps = p at hi ⊢
    cases hi with
    | failed err => exact .failed err hf
    | done g _ => exact .made _ hf

/-- A compilation leaves all scopes but its own. -/
theorem Compiling.scope?_of_ne {m : Nat} (ha : e.Compiling a m source resolve)
    (hc : e.compileBy m source resolve = some (o, e')) (hne : n ≠ m) :
    e'.scope? n = e.scope? n := by
  obtain ⟨sc, -, hcomp⟩ := compiles_of_compileBy hc
  cases hcomp with
  | stale _ => rfl
  | unreadable _ _ => rfl
  | unresolved _ _ _ => exact ha.scope?_resolve _ _ n
  | installed _ _ _ => rw [scope?_setScope, if_neg hne, ha.scope?_resolve]

/-! ## Tasks and compilations -/

theorem find?_tasks (s : Scope) (source : Text) :
    s.tasks.find? source = (s.compiled.find? source).map fun c => .finished (.ok (some c)) :=
  Table.find?_map (fun c => CompileTask.finished (.ok (some c))) s.compiled source

/-- A source that is new to the scope has no task, and the caller enters one. -/
theorem enter_tasks (hnone : s.compiled.find? source = none) :
    s.tasks.enter source = s.tasks.insert source .waiting := by
  rw [CompileTasks.enter, Table.contains, find?_tasks, hnone, if_neg]
  exact Bool.false_ne_true

/-- The task of a failure is taken off the record. -/
theorem dropFailed_insert {r : CompileTasks} (hr : r.find? source = none) (err : TemplateError) :
    CompileTasks.dropFailed (r.insert source (.finished (.error err))) source = r := by
  rw [CompileTasks.dropFailed, Table.find?_insert, if_pos rfl]
  exact Table.erase_insert hr _

theorem tasks_insert {c : Compiled} (h : s'.compiled = s.compiled.insert source c) :
    s'.tasks = s.tasks.insert source (.finished (.ok (some c))) := by
  rw [Scope.tasks, h]
  exact (Table.insert_map (fun c => CompileTask.finished (.ok (some c))) source c s.compiled).symm

/-- The task of a source on record is finished, with the template on record. -/
theorem find?_tasks_of_stale (hf : isFresh s source = false) (hne : source ≠ []) :
    ∃ c, s.compiled.find? source = some c ∧
      s.tasks.find? source = some (.finished (.ok (some c))) := by
  cases hfind : s.compiled.find? source with
  | none => exact nomatch hf.symm.trans (isFresh_eq_true_iff.2 ⟨hne, hfind⟩)
  | some c => exact ⟨c, rfl, by rw [find?_tasks, hfind]; rfl⟩

/-- The task of a source answers what the compilation answers, and leaves what that leaves. -/
theorem compileTask_tasks (hs : e.scope? n = some s) (hc : e.compile n source = some (o, e'))
    (hs' : e'.scope? n = some s') :
    e.compileTask n s.tasks source = some ((o, e'), s'.tasks) := by
  have hrec := records_of_compileBy (.compile n source) hc hs hs'
  rw [compileTask, hs, Option.map_some]
  cases hf : isFresh s source with
  | false =>
    have heq := hc.symm.trans (compileBy_of_stale hs hf)
    obtain ⟨rfl, rfl⟩ := Prod.mk.inj (Option.some.inj heq)
    obtain rfl := Option.some.inj (hs.symm.trans hs')
    by_cases hne : source = []
    · subst hne
      rfl
    · obtain ⟨c, hfind, htask⟩ := find?_tasks_of_stale hf hne
      have henter : s.tasks.enter source = s.tasks := by
        rw [CompileTasks.enter, Table.contains, htask]
        rfl
      rw [if_neg (by rwa [List.isEmpty_iff]), if_neg hne, hfind]
      simp only [henter, htask, CompileTasks.dropFailed]
  | true =>
    obtain ⟨hne, hnone⟩ := isFresh_eq_true_iff.1 hf
    have hnew := hc.symm.trans (compileBy_of_fresh hs hf)
    have htask : s.tasks.find? source = none := by
      rw [find?_tasks, hnone]
      rfl
    rw [if_neg (by rwa [List.isEmpty_iff]), enter_tasks hnone, ← Option.some.inj hnew]
    simp only [Table.find?_insert, if_true, Table.insert_insert]
    generalize ht : s'.compiled = t at hrec
    cases hrec with
    | stale hf' => cases hf.symm.trans hf'
    | failed err _ => rw [dropFailed_insert htask, Scope.tasks, Scope.tasks, ht]
    | made c _ =>
      rw [tasks_insert ht]
      simp [CompileTasks.dropFailed, Table.find?_insert]

theorem compileLocalTask_tasks (hs : e.scope? n = some s)
    (hc : e.compileLocal n source = some (o, e')) (hs' : e'.scope? n = some s') :
    e.compileLocalTask n s.tasks source = some ((o, e'), s'.tasks) := by
  have hc : e.compileBy n source e.resolveLocal = some (o, e') := hc
  have hrec := records_of_compileBy (.compileLocal n source) hc hs hs'
  rw [compileLocalTask, hs, Option.map_some]
  cases hf : isFresh s source with
  | false =>
    have heq := hc.symm.trans (compileBy_of_stale hs hf)
    obtain ⟨rfl, rfl⟩ := Prod.mk.inj (Option.some.inj heq)
    obtain rfl := Option.some.inj (hs.symm.trans hs')
    by_cases hne : source = []
    · subst hne
      rfl
    · obtain ⟨c, hfind, htask⟩ := find?_tasks_of_stale hf hne
      rw [if_neg (by rwa [List.isEmpty_iff]), htask, if_neg hne, hfind]
  | true =>
    obtain ⟨hne, hnone⟩ := isFresh_eq_true_iff.1 hf
    have hnew := hc.symm.trans (compileBy_of_fresh hs hf)
    have htask : s.tasks.find? source = none := by
      rw [find?_tasks, hnone]
      rfl
    rw [if_neg (by rwa [List.isEmpty_iff]), htask, ← Option.some.inj hnew]
    generalize ht : s'.compiled = t at hrec
    cases hrec with
    | stale hf' => exact nomatch hf.symm.trans hf'
    | failed err _ => rw [Scope.tasks, Scope.tasks, ht]
    | made c _ => rw [tasks_insert ht]

end Engine

/-! ## Steps -/

namespace Step

/-- Whether a step makes the scope of a number forget what it has compiled. -/
def clears (n : Nat) : Step → Bool
  | clear m => m == n
  | purgeAll => n == 0
  | _ => false

end Step

namespace Session

variable {s : Session} {n : Nat} {a : Step} {sc sc' : Scope}

/-- A scope stays as it is when a step compiles nothing and does not clear it. -/
theorem scope?_step (ha : a.compiled? = none) (hc : a.clears n = false)
    (hs : s.engine.scope? n = some sc) : (s.step a).engine.scope? n = some sc := by
  have hm := s.moves_step a
  generalize (s.step a).engine = e' at hm
  cases hm with
  | idle => exact hs
  | build _ hb =>
    obtain ⟨new, -, he⟩ := Except.map_eq_ok_iff.1 hb
    have hn : n ≠ s.engine.others.length + 1 := by
      rintro rfl
      exact nomatch hs.symm.trans (Engine.scope?_length s.engine)
    rw [← (Prod.mk.inj he).2, Engine.scope?_built, if_neg hn]
    exact hs
  | compile _ => cases ha
  | compileLocal _ => cases ha
  | dependencies hd => exact (Engine.scope?_dependencies hd n).trans hs
  | clear _ =>
    rw [Engine.scope?_setScope, if_neg (Ne.symm (beq_eq_false_iff_ne.1 hc))]
    exact hs
  | purgeAll =>
    rw [Engine.scope?_setScope, if_neg (beq_eq_false_iff_ne.1 hc)]
    exact hs
  | fetch r => exact (Engine.scope?_fetch s.engine r n).trans hs
  | await _ t => exact (Engine.scope?_await s.engine t n).trans hs
  | hold _ | put _ _ | remove _ | purge => exact hs

/-- A scope stays as it is when a step compiles in another one. -/
theorem scope?_step_of_ne {m : Nat} {source : Text}
    {resolve : Scope → Template → Except TemplateError (Table Instance) × Engine}
    (ha : s.engine.Compiling a m source resolve) (hne : n ≠ m) :
    (s.step a).engine.scope? n = s.engine.scope? n := by
  cases hc : s.engine.compileBy m source resolve with
  | none =>
    have hm : s.engine.scope? m = none := Option.map_eq_none_iff.1 hc
    cases ha <;> simp [step, hm, Engine.compileLocal, Engine.compileBy]
  | some p =>
    rw [engine_step_of_compiling ha hc]
    exact ha.scope?_of_ne hc hne

/-- A step that clears a scope leaves nothing on its record. -/
theorem compiled_of_clears (hc : a.clears n = true) (hs : (s.step a).engine.scope? n = some sc') :
    sc'.compiled = [] := by
  cases a with
  | clear m =>
    obtain rfl := beq_iff_eq.1 hc
    rw [engine_step_clear] at hs
    cases hsc : s.engine.scope? m with
    | none =>
      rw [hsc] at hs
      cases hsc.symm.trans hs
    | some sc =>
      rw [hsc, Option.map_some, Option.getD_some, Engine.scope?_setScope, if_pos rfl, hsc] at hs
      exact Option.some.inj hs ▸ rfl
  | purgeAll =>
    obtain rfl := beq_iff_eq.1 hc
    exact Option.some.inj hs ▸ rfl
  | build _ _ _ _ | compile _ _ | compileLocal _ _ | dependencies _ _ => cases hc
  | fetch _ | hold _ | await _ | put _ _ | remove _ | purge => cases hc

/-! ## Tasks of a run -/

/-- The record of tasks of a scope after a step. -/
def compileTasksAfter (s : Session) (n : Nat) (r : CompileTasks) (a : Step) : CompileTasks :=
  match a with
  | .compile m source =>
    if m = n then ((s.engine.compileTask n r source).map Prod.snd).getD r else r
  | .compileLocal m source =>
    if m = n then ((s.engine.compileLocalTask n r source).map Prod.snd).getD r else r
  | a => if a.clears n then [] else r

/-- The record of tasks of a scope after a run. -/
def compileTasks (s : Session) (n : Nat) (r : CompileTasks) : List Step → CompileTasks
  | [] => r
  | a :: steps => (s.step a).compileTasks n (s.compileTasksAfter n r a) steps

theorem compileTasksAfter_nil (hs : s.engine.scope? n = none) : s.compileTasksAfter n [] a = [] := by
  cases a <;> simp [compileTasksAfter, Engine.compileTask, Engine.compileLocalTask, hs]

theorem compileTasksAfter_tasks (hs : s.engine.scope? n = some sc)
    (hs' : (s.step a).engine.scope? n = some sc') : s.compileTasksAfter n sc.tasks a = sc'.tasks := by
  -- a step that is no compilation in the scope clears it or leaves it
  have other (hr : s.compileTasksAfter n sc.tasks a = if a.clears n then [] else sc.tasks)
      (hkeep : a.clears n = false → (s.step a).engine.scope? n = some sc) :
      s.compileTasksAfter n sc.tasks a = sc'.tasks := by
    rw [hr]
    split
    · next hc => rw [Scope.tasks, compiled_of_clears hc hs', List.map_nil]
    · next hc =>
      rw [Option.some.inj ((hkeep (Bool.eq_false_iff.2 hc)).symm.trans hs')]
  cases a with
  | compile m source =>
    by_cases hm : m = n
    · subst hm
      cases hc : s.engine.compile m source with
      | none => simp [Engine.compile, Engine.compileBy, hs] at hc
      | some p =>
        obtain ⟨o, e'⟩ := p
        rw [engine_step_of_compiling (.compile m source) hc] at hs'
        rw [compileTasksAfter, if_pos rfl, Engine.compileTask_tasks hs hc hs']
        rfl
    · exact other (if_neg hm) fun _ =>
        (scope?_step_of_ne (.compile m source) (Ne.symm hm)).trans hs
  | compileLocal m source =>
    by_cases hm : m = n
    · subst hm
      cases hc : s.engine.compileLocal m source with
      | none => simp [Engine.compileLocal, Engine.compileBy, hs] at hc
      | some p =>
        obtain ⟨o, e'⟩ := p
        rw [engine_step_of_compiling (.compileLocal m source) hc] at hs'
        rw [compileTasksAfter, if_pos rfl, Engine.compileLocalTask_tasks hs hc hs']
        rfl
    · exact other (if_neg hm) fun _ =>
        (scope?_step_of_ne (.compileLocal m source) (Ne.symm hm)).trans hs
  | build _ _ _ _ | dependencies _ _ | clear _ | fetch _ | hold _ =>
    exact other rfl fun hc => scope?_step rfl hc hs
  | await _ | put _ _ | remove _ | purge | purgeAll =>
    exact other rfl fun hc => scope?_step rfl hc hs

/-- The record of tasks follows the compiled templates of the scope through any run; it is empty until the
scope is built. -/
theorem compileTasks_run (steps : List Step) (hs : (s.run steps).engine.scope? n = some sc') :
    s.compileTasks n (((s.engine.scope? n).map Scope.tasks).getD []) steps = sc'.tasks := by
  induction steps generalizing s with
  | nil =>
    have hs : s.engine.scope? n = some sc' := hs
    rw [hs]
    rfl
  | cons a steps ih =>
    rw [compileTasks, ← ih hs]
    congr 1
    cases hn : s.engine.scope? n with
    | some sc =>
      obtain ⟨sc₁, hs₁, -⟩ := exists_next a hn
      rw [hs₁]
      exact compileTasksAfter_tasks hn hs₁
    | none =>
      rw [Option.map_none, Option.getD_none, compileTasksAfter_nil hn]
      cases hn₁ : (s.step a).engine.scope? n with
      | none => rfl
      | some sc₁ =>
        rcases next_step hn₁ with ⟨sc, hsc, -⟩ | ⟨-, -, hd⟩
        · exact nomatch hn.symm.trans hsc
        · rw [Option.map_some, Option.getD_some, Scope.tasks, Scope.compiled_ofDraft hd, List.map_nil]

/-- Joined compilations are answered as so many steps are, and leave what these leave. -/
theorem joinTasks_run (sources : List Text) (hs : s.engine.scope? n = some sc) :
    ∃ os sc', (s.run (sources.map (.compile n))).engine.scope? n = some sc' ∧
      s.engine.joinTasks n sc.tasks sources =
        some ((os, (s.run (sources.map (.compile n))).engine), sc'.tasks) ∧
      ∀ i source, sources[i]? = some source → ∃ o, os[i]? = some o ∧
        (s.run ((sources.take i).map (.compile n))).Returns n (.compile n source) o := by
  induction sources generalizing s sc with
  | nil => exact ⟨[], sc, hs, rfl, fun i source h => nomatch h⟩
  | cons source rest ih =>
    obtain ⟨sc₁, hs₁, -⟩ := exists_next (.compile n source) hs
    cases hc : s.engine.compile n source with
    | none => simp [Engine.compile, Engine.compileBy, hs] at hc
    | some p =>
      obtain ⟨o, e'⟩ := p
      have he : (s.step (.compile n source)).engine = e' :=
        engine_step_of_compiling (.compile n source) hc
      have hfirst : s.engine.compileTask n sc.tasks source = some ((o, e'), sc₁.tasks) :=
        Engine.compileTask_tasks hs hc (he ▸ hs₁)
      obtain ⟨os, sc', hs', hrest, hall⟩ := ih hs₁
      refine ⟨o :: os, sc', hs', ?_, fun i => ?_⟩
      · rw [he] at hrest
        simp only [Engine.joinTasks, hfirst, hrest, Option.bind_eq_bind, Option.bind_some]
        rfl
      · cases i with
        | zero =>
          intro source' h
          obtain rfl := Option.some.inj h
          exact ⟨o, rfl, .intro (.compile n source) hc⟩
        | succ i => exact hall i

end Session

end Stencil
