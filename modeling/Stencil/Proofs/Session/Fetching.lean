import Stencil.Proofs.Except
import Stencil.Proofs.Session
/-!
Fetching leaves alone what other tasks come to.

A fetch settles one task and asks the service at most once; the markup on the shelf, the number of the
purge and the outcomes of all other tasks stay (`outcome?_fetch`, `peek_fetch`).  So the fetches of a
resolution, one after the other, come to what its loader has answered (`fetchAll_eq`).
-/

namespace Stencil

namespace Fetches

theorem outcome?_settle (f : Fetches) (t u : Task) (o : Outcome) :
    (f.settle t o).outcome? u = if u = t then some o else f.outcome? u := by
  unfold outcome? settle
  rw [List.lookup_cons]
  by_cases h : u = t
  · simp [h]
  · rw [if_neg h, beq_eq_false_iff_ne.2 h]

@[simp] theorem epoch_request (f : Fetches) (r : Text) : (f.request r).2.epoch = f.epoch := by
  unfold request
  split <;> rfl

/-- The task that a request is given. -/
def task (f : Fetches) (r : Text) : Task :=
  (f.request r).1

variable {f : Fetches} {r : Text}

theorem request_of_some {t : Task} (h : f.entries.find? r = some t) :
    f.request r = (t, { f with hits := f.hits + 1 }) := by
  rw [request, h]

theorem request_of_none (h : f.entries.find? r = none) :
    f.request r = (f.fresh r, { f with
      entries := f.entries.insert r (f.fresh r)
      made := f.made.insert r ((f.fresh r).number + 1)
      misses := f.misses + 1 }) := by
  rw [request, h]

theorem task_of_some {t : Task} (h : f.entries.find? r = some t) : f.task r = t := by
  rw [task, request_of_some h]

theorem task_of_none (h : f.entries.find? r = none) : f.task r = f.fresh r := by
  rw [task, request_of_none h]

/-- A request leaves the task that it is given on record, and the tasks of other identifiers. -/
theorem find?_entries_request (f : Fetches) (r s : Text) :
    (f.request r).2.entries.find? s = if s = r then some (f.task r) else f.entries.find? s := by
  cases h : f.entries.find? r with
  | some t =>
    rw [request_of_some h, task_of_some h]
    split
    · next hs => rw [hs, h]
    · rfl
  | none =>
    rw [request_of_none h, task_of_none h]
    exact Table.find?_insert s r _ _

/-- A request makes tasks for no other identifier. -/
theorem made_request_of_ne {s : Text} (h : s ≠ r) :
    (f.request r).2.made.find? s = f.made.find? s := by
  unfold request
  split
  · rfl
  · exact (Table.find?_insert s r _ _).trans (if_neg h)

/-- A request does not change what the requests after it are given. -/
@[simp] theorem task_request (f : Fetches) (r : Text) : (f.request r).2.task = f.task := by
  funext s
  have he := find?_entries_request f r s
  by_cases hs : s = r
  · rw [if_pos hs] at he
    rw [task_of_some he, hs]
  · rw [if_neg hs] at he
    cases h : f.entries.find? s with
    | some t => rw [task_of_some h, task_of_some (he.trans h)]
    | none => rw [task_of_none h, task_of_none (he.trans h), fresh, fresh, epoch_request,
        made_request_of_ne hs]

@[simp] theorem task_settle (f : Fetches) (t : Task) (o : Outcome) : (f.settle t o).task = f.task := by
  funext s
  cases h : f.entries.find? s with
  | some u => rw [task_of_some h, task_of_some (show (f.settle t o).entries.find? s = some u from h)]
  | none =>
    rw [task_of_none h, task_of_none (show (f.settle t o).entries.find? s = none from h)]
    rfl

/-- After a purge every request is given a new task. -/
theorem task_purge (f : Fetches) (r : Text) : f.purge.task r = ⟨r, f.epoch + 1, 0⟩ := rfl

end Fetches

namespace Content

@[simp] theorem markup_asked (c : Content) (r : Text) : (c.asked r).markup = c.markup := by
  unfold asked
  split <;> rfl

@[simp] theorem service_asked (c : Content) (r : Text) : (c.asked r).service = c.service := by
  unfold asked
  split
  · next h => rw [h]
  · rfl

theorem callCount_asked {c : Content} (h : c.service = .memory) (r s : Text) :
    (c.asked r).callCount s = if s = r then c.callCount r + 1 else c.callCount s := by
  unfold asked callCount
  rw [h]
  simp only [Table.find?_insert]
  split <;> rfl

end Content

namespace Engine

variable {e : Engine}

theorem await_of_settled {t : Task} {o : Outcome} (h : e.fetches.outcome? t = some o) :
    e.await t = (o, e) := by
  rw [await, h]

theorem await_of_pending {t : Task} (h : e.fetches.outcome? t = none) :
    e.await t = (e.evaluate t, { e with
      content := e.content.asked t.identifier, fetches := e.fetches.settle t (e.evaluate t) }) := by
  rw [await, h]

/-- What a task comes to when it is awaited, settled or not. -/
theorem await_fst (e : Engine) (t : Task) :
    (e.await t).1 = (e.fetches.outcome? t).getD (e.evaluate t) := by
  unfold await
  cases e.fetches.outcome? t <;> rfl

theorem outcome?_await (e : Engine) (t u : Task) :
    (e.await t).2.fetches.outcome? u =
      if u = t then some (e.await t).1 else e.fetches.outcome? u := by
  cases h : e.fetches.outcome? t with
  | some o =>
    rw [await_of_settled h]
    by_cases hu : u = t
    · rw [hu, if_pos rfl, h]
    · rw [if_neg hu]
  | none =>
    rw [await_of_pending h]
    exact Fetches.outcome?_settle _ t u _

theorem evaluate_congr {e e' : Engine} (hm : e'.content.markup = e.content.markup)
    (he : e'.escaper = e.escaper) (hx : e'.expander = e.expander) (t : Task) :
    e'.evaluate t = e.evaluate t := by
  unfold evaluate
  rw [hm, he, hx]

theorem evaluate_request (e : Engine) (r : Text) (t : Task) :
    (e.request r).2.evaluate t = e.evaluate t :=
  evaluate_congr rfl rfl rfl t

theorem evaluate_await (e : Engine) (t u : Task) : (e.await t).2.evaluate u = e.evaluate u := by
  cases h : e.fetches.outcome? t with
  | some o => rw [await_of_settled h]
  | none =>
    rw [await_of_pending h]
    refine evaluate_congr ?_ ?_ ?_ u
    · exact Content.markup_asked e.content t.identifier
    · rfl
    · rfl

theorem epoch_await (e : Engine) (t : Task) : (e.await t).2.fetches.epoch = e.fetches.epoch := by
  unfold await
  split <;> rfl

theorem epoch_fetch (e : Engine) (r : Text) : (e.fetch r).2.fetches.epoch = e.fetches.epoch := by
  rw [fetch, epoch_await]
  exact Fetches.epoch_request e.fetches r

theorem task_await (e : Engine) (t : Task) : (e.await t).2.fetches.task = e.fetches.task := by
  cases h : e.fetches.outcome? t with
  | some o => rw [await_of_settled h]
  | none =>
    rw [await_of_pending h]
    exact Fetches.task_settle e.fetches t _

theorem task_fetch (e : Engine) (r : Text) : (e.fetch r).2.fetches.task = e.fetches.task := by
  rw [fetch, task_await]
  exact Fetches.task_request e.fetches r

theorem outcome?_fetch (e : Engine) (r : Text) (u : Task) :
    (e.fetch r).2.fetches.outcome? u =
      if u = e.fetches.task r then some (e.peek r) else e.fetches.outcome? u := by
  rw [fetch, outcome?_await, request, Fetches.outcome?_request]
  rfl

theorem peek_eq (e : Engine) (r : Text) :
    e.peek r = (e.fetches.outcome? (e.fetches.task r)).getD (e.evaluate (e.fetches.task r)) := by
  rw [peek, fetch, await_fst, evaluate_request, request, Fetches.outcome?_request]
  rfl

/-- A fetch does not change what any fetch of this moment would come to. -/
theorem peek_fetch (e : Engine) (r s : Text) : (e.fetch r).2.peek s = e.peek s := by
  rw [peek_eq, outcome?_fetch, task_fetch]
  by_cases h : e.fetches.task s = e.fetches.task r
  · rw [h, if_pos rfl, Option.getD_some, peek_eq, peek_eq, h]
  · rw [if_neg h, fetch, evaluate_await, evaluate_request, ← peek_eq]

def fetchAll (e : Engine) (rs : List Text) : Engine :=
  rs.foldl (fun e r => (e.fetch r).2) e

theorem loaded_eq (e : Engine) (s : Scope) (loads : List Text) :
    e.loaded s loads = e.fetchAll (loads.filter fun r =>
      !s.partials.contains r && Reference.isRemote r) := by
  unfold loaded fetchAll
  rw [List.foldl_filter]
  congr 1
  funext e r
  cases s.partials.contains r <;> cases Reference.isRemote r <;> rfl

/-! ### Operations on scopes -/

/-- The engines have the same content service and the same record of tasks. -/
def SameSources (e e' : Engine) : Prop :=
  e'.content = e.content ∧ e'.fetches = e.fetches

theorem SameSources.refl (e : Engine) : SameSources e e :=
  ⟨rfl, rfl⟩

theorem sameSources_setScope (e : Engine) (n : Nat) (s : Scope) : SameSources e (e.setScope n s) := by
  cases n <;> exact ⟨rfl, rfl⟩

/-- What a resolution wants, its loader answers as a fetch would. -/
theorem answer_of_wanted {s : Scope} {source r : Text} (h : r ∈ e.wanted s source) :
    (e.loader s).answer r = e.peek r := by
  unfold wanted at h
  split at h
  · simp at h
  · have hr := (List.mem_filter.1 h).2
    simp only [Bool.and_eq_true, Bool.not_eq_true', Table.contains, Option.isSome_eq_false_iff,
      Option.isNone_iff_eq_none] at hr
    simp only [loader, hr.1, hr.2, if_true]

theorem snd_resolve (e : Engine) (s : Scope) (root : Template) :
    (e.resolve s root).2 = e.fetchAll ((e.resolution s root).loads.filter fun r =>
      !s.partials.contains r && Reference.isRemote r) :=
  loaded_eq e s _

theorem snd_resolve_of_parse {s : Scope} {source : Text} {root : Template}
    (h : e.parse source = .ok root) : (e.resolve s root).2 = e.fetchAll (e.wanted s source) := by
  rw [wanted, h, snd_resolve]

/-- Resolution with the partials of the scope alone. -/
def resolveLocal (e : Engine) (s : Scope) (root : Template) :
    Except TemplateError (Table Instance) × Engine :=
  (Resolution.within Instance.references s.partials ⟨.given, root⟩, e)

theorem isFresh_eq_true_iff {s : Scope} {source : Text} :
    isFresh s source = true ↔ source ≠ [] ∧ s.compiled.find? source = none := by
  simp [isFresh, Table.contains]

/-- A source that is empty or on record is looked up. -/
theorem compileBy_of_stale {n : Nat} {s : Scope} {source : Text}
    {resolve : Scope → Template → Except TemplateError (Table Instance) × Engine}
    (hs : e.scope? n = some s) (hf : isFresh s source = false) :
    e.compileBy n source resolve =
      some (.ok (if source = [] then none else s.compiled.find? source), e) := by
  rw [compileBy, hs, Option.map_some]
  cases source with
  | nil => rfl
  | cons c r =>
    cases hc : s.compiled.find? (c :: r) with
    | some k => rfl
    | none => exact nomatch hf.symm.trans (isFresh_eq_true_iff.2 ⟨List.cons_ne_nil c r, hc⟩)

/-- A source that is new to the scope is compiled anew. -/
theorem compileBy_of_fresh {n : Nat} {s : Scope} {source : Text}
    {resolve : Scope → Template → Except TemplateError (Table Instance) × Engine}
    (hs : e.scope? n = some s) (hf : isFresh s source = true) :
    e.compileBy n source resolve = some (e.compileNew n s source (resolve s)) := by
  obtain ⟨hne, hnone⟩ := isFresh_eq_true_iff.1 hf
  rw [compileBy, hs, Option.map_some, if_neg (by rwa [List.isEmpty_iff]), hnone]

/-- What a compilation in the scope `s` of number `n` answers, and the engine that it leaves. -/
inductive Compiles (e : Engine) (n : Nat) (s : Scope) (source : Text)
    (resolve : Scope → Template → Except TemplateError (Table Instance) × Engine) :
    Compilation → Engine → Prop
  | stale {c : Option Compiled} : isFresh s source = false → Compiles e n s source resolve (.ok c) e
  | unreadable {err : TemplateError} : isFresh s source = true → e.parse source = .error err →
      Compiles e n s source resolve (.error err) e
  | unresolved {root : Template} {err : TemplateError} : isFresh s source = true →
      e.parse source = .ok root → (resolve s root).1 = .error err →
      Compiles e n s source resolve (.error err) (resolve s root).2
  | installed {root : Template} {deps : Table Instance} : isFresh s source = true →
      e.parse source = .ok root → (resolve s root).1 = .ok deps →
      Compiles e n s source resolve ((s.install (resolve s root).2.objection root deps).1.map some)
        ((resolve s root).2.setScope n (s.install (resolve s root).2.objection root deps).2)

theorem compiles_of_compileBy {n : Nat} {source : Text} {a : Compilation} {e' : Engine}
    {resolve : Scope → Template → Except TemplateError (Table Instance) × Engine}
    (h : e.compileBy n source resolve = some (a, e')) :
    ∃ s, e.scope? n = some s ∧ Compiles e n s source resolve a e' := by
  obtain ⟨s, hs, -⟩ := Option.map_eq_some_iff.1 h
  refine ⟨s, hs, ?_⟩
  cases hf : isFresh s source with
  | false =>
    rw [compileBy_of_stale hs hf] at h
    obtain ⟨rfl, rfl⟩ := Prod.mk.inj (Option.some.inj h)
    exact .stale hf
  | true =>
    rw [compileBy_of_fresh hs hf, Option.some.injEq, compileNew] at h
    split at h
    · next err hp =>
      obtain ⟨rfl, rfl⟩ := Prod.mk.inj h
      exact .unreadable hf hp
    · next root hp =>
      split at h
      · next err e'' hr =>
        obtain ⟨rfl, rfl⟩ := Prod.mk.inj h
        have hu := Compiles.unresolved (n := n) hf hp (congrArg Prod.fst hr)
        rwa [hr] at hu
      · next deps e'' hr =>
        obtain ⟨rfl, rfl⟩ := Prod.mk.inj h
        have hi := Compiles.installed (n := n) hf hp (congrArg Prod.fst hr)
        rwa [hr] at hi

theorem sameSources_compile {n : Nat} {s : Scope} {source : Text} {a : Compilation} {e' : Engine}
    (hs : e.scope? n = some s) (h : e.compile n source = some (a, e')) :
    SameSources (e.fetchAll (if isFresh s source then e.wanted s source else [])) e' := by
  obtain ⟨s', hs', hc⟩ := compiles_of_compileBy h
  obtain rfl := Option.some.inj (hs.symm.trans hs')
  cases hc with
  | stale hf =>
    rw [hf]
    exact .refl e
  | unreadable hf hp =>
    rw [hf, wanted, hp]
    exact .refl e
  | unresolved hf hp _ =>
    rw [hf, snd_resolve_of_parse hp]
    exact .refl _
  | installed hf hp _ =>
    rw [hf, snd_resolve_of_parse hp]
    exact sameSources_setScope _ n _

theorem sameSources_compileLocal {n : Nat} {source : Text} {a : Compilation} {e' : Engine}
    (h : e.compileLocal n source = some (a, e')) : SameSources e e' := by
  have h : e.compileBy n source e.resolveLocal = some (a, e') := h
  obtain ⟨s, -, hc⟩ := compiles_of_compileBy h
  cases hc with
  | stale _ => exact .refl e
  | unreadable _ _ => exact .refl e
  | unresolved _ _ _ => exact .refl e
  | installed _ _ _ => exact sameSources_setScope e n _

theorem sameSources_dependencies {n : Nat} {s : Scope} {source : Text}
    {a : Except TemplateError (Table Instance)} {e' : Engine} (hs : e.scope? n = some s)
    (h : e.dependencies n source = some (a, e')) :
    SameSources (e.fetchAll (e.wanted s source)) e' := by
  unfold dependencies at h
  rw [hs, Option.map_some, Option.some.injEq] at h
  split at h
  · next err hp =>
    rw [wanted, hp, ← (Prod.mk.inj h).2]
    exact .refl e
  · next root hp =>
    rw [← snd_resolve_of_parse hp, h]
    exact .refl e'

/-- An engine starts with the scope of its partials, no other scopes and nothing fetched. -/
theorem of_start {expander : Expander} {escaper : Escaper} {helpers : Table Helper}
    {objection : Objection} {service : Service} {shelf partials : Table Text}
    (h : Engine.start expander escaper helpers objection service shelf partials = .ok e) :
    ∃ d main, (Draft.empty.withHelpers helpers).registerAll expander
        (partials.map fun p => (p.1, .markup p.2)) = .ok d ∧
      Scope.ofDraft objection d = .ok main ∧
      e = ⟨expander, escaper, helpers, objection, ⟨service, shelf, []⟩, .empty, main, []⟩ := by
  obtain ⟨d, hd, h⟩ := Except.bind_eq_ok_iff.1 h
  obtain ⟨main, hm, h⟩ := Except.bind_eq_ok_iff.1 h
  exact ⟨d, main, hd, hm, (Except.ok.inj h).symm⟩

theorem sameSources_build {d : Draft} {n : Nat} {e' : Engine} (h : e.build d = .ok (n, e')) :
    SameSources e e' := by
  obtain ⟨s, -, hs⟩ := Except.map_eq_ok_iff.1 h
  rw [← (Prod.mk.inj hs).2]
  exact ⟨rfl, rfl⟩

end Engine

namespace Session

def fetchAll (s : Session) (rs : List Text) : Session :=
  rs.foldl fetch s

theorem fetch_eq (s : Session) (r : Text) :
    s.fetch r = { s with
      engine := (s.engine.fetch r).2
      answers := s.answers ++ [((s.engine.request r).1, s.engine.peek r)]
      requests := s.requests ++ [(r, (s.engine.request r).1)] } :=
  rfl

/-- Fetches in a row come to what each of them would have come to at the outset. -/
theorem fetchAll_eq (s : Session) (rs : List Text) :
    s.fetchAll rs = { s with
      engine := s.engine.fetchAll rs
      answers := s.answers ++ rs.map fun r => ((s.engine.request r).1, s.engine.peek r)
      requests := s.requests ++ rs.map fun r => (r, (s.engine.request r).1) } := by
  induction rs generalizing s with
  | nil => simp [fetchAll, Engine.fetchAll]
  | cons r rs ih =>
    have ht (q : Text) : ((s.engine.fetch r).2.request q).1 = (s.engine.request q).1 :=
      congrFun (Engine.task_fetch s.engine r) q
    rw [show s.fetchAll (r :: rs) = (s.fetch r).fetchAll rs from rfl, ih, fetch_eq]
    simp only [ht, Engine.peek_fetch]
    simp [Engine.fetchAll]

end Session

end Stencil
