import Stencil.Engine
/-!
Sessions: what a client does with an engine, one step after the other.

A session keeps the tasks that the client holds and records what it has seen: which tasks it has waited
for and what they came to, and what it has requested since the last purge.  A compilation waits for
tasks too; what it is told is what its loader answers.
-/

namespace Stencil

/-- A partial as a client gives it: markup, or a template that was parsed before, with any expander. -/
inductive Given
  | markup (source : Text)
  | parsed (expander : Expander) (source : Text)

namespace Given

def partial? : Given → Option Partial
  | markup source => some (.markup source)
  | parsed x source => (Template.parse x source).toOption.map .parsed

end Given

/-- What the draft of a scope begins with. -/
inductive Base
  | nothing
  | engine
  | scope (number : Nat)

/-- What a client can do.  Scopes go by their numbers, held tasks by their places. -/
inductive Step
  | build (base : Base) (partials : List (Text × Given)) (helpers : Table Helper) (owner : Option Owner)
  | compile (scope : Nat) (source : Text)
  | compileLocal (scope : Nat) (source : Text)
  | dependencies (scope : Nat) (source : Text)
  | clear (scope : Nat)
  | fetch (identifier : Text)
  | hold (identifier : Text)
  | await (place : Nat)
  | put (identifier markup : Text)
  | remove (identifier : Text)
  | purge
  | purgeAll

namespace Step

def isPurge : Step → Bool
  | purge => true
  | purgeAll => true
  | _ => false

end Step

/-! ## Requests of a resolution -/

namespace Engine

/-- The walk through all that a root template depends on. -/
def resolution (e : Engine) (s : Scope) (root : Template) : Resolution Instance :=
  Resolution.run Instance.references (e.loader s) ⟨.given, root⟩

/-- The identifiers that resolving a source in a scope requests, in order. -/
def wanted (e : Engine) (s : Scope) (source : Text) : List Text :=
  match e.parse source with
  | .error _ => []
  | .ok root => (e.resolution s root).loads.filter fun r =>
      !s.partials.contains r && Reference.isRemote r

/-- Whether compiling a source in a scope is more than a look-up. -/
def isFresh (s : Scope) (source : Text) : Bool :=
  !source.isEmpty && !s.compiled.contains source

/-- The draft that a client begins with. -/
def base? (e : Engine) : Base → Option Draft
  | .nothing => some .empty
  | .engine => some e.draft
  | .scope n => (e.scope? n).map Scope.draft

/-- The draft of a client's partials, helpers and owner. -/
def draft? (e : Engine) (base : Base) (partials : List (Text × Given)) (helpers : Table Helper)
    (owner : Option Owner) : Option Draft := do
  let d ← e.base? base
  let given ← partials.mapM fun p => p.2.partial?.map (p.1, ·)
  let d ← (d.registerAll e.expander given).toOption
  return { d.withHelpers helpers with owner := owner.or d.owner }

end Engine

/-! ## Sessions -/

structure Session where
  engine : Engine
  held : List Task
  /-- The tasks waited for, each with what it came to for the one who waited. -/
  answers : List (Task × Outcome)
  /-- The identifiers requested since the last purge, each with the task that was given for it. -/
  requests : List (Text × Task)
  purges : Nat

namespace Session

def start (e : Engine) : Session :=
  ⟨e, [], [], [], 0⟩

/-- The session after a request. -/
def request (s : Session) (identifier : Text) : Session :=
  { s with
    engine := (s.engine.request identifier).2
    requests := s.requests ++ [(identifier, (s.engine.request identifier).1)] }

/-- The session after a task has been waited for. -/
def await (s : Session) (t : Task) : Session :=
  { s with engine := (s.engine.await t).2, answers := s.answers ++ [(t, (s.engine.await t).1)] }

def fetch (s : Session) (identifier : Text) : Session :=
  (s.request identifier).await (s.engine.request identifier).1

/-- The session after an operation on a scope that has requested `wanted` and left the engine `e`. -/
def resolved (s : Session) (sc : Scope) (wanted : List Text) (e : Engine) : Session :=
  { s with
    engine := e
    answers := s.answers ++ wanted.map fun r =>
      ((s.engine.request r).1, (s.engine.loader sc).answer r)
    requests := s.requests ++ wanted.map fun r => (r, (s.engine.request r).1) }

/-- The session after a purge that left the engine `e`. -/
def purged (s : Session) (e : Engine) : Session :=
  { s with engine := e, requests := [], purges := s.purges + 1 }

/-- The session after a step; a step that names what does not exist changes nothing. -/
def step (s : Session) : Step → Session
  | .build base partials helpers owner =>
    match s.engine.draft? base partials helpers owner with
    | none => s
    | some d =>
      match s.engine.build d with
      | .error _ => s
      | .ok (_, e) => { s with engine := e }
  | .compile n source =>
    match s.engine.scope? n, s.engine.compile n source with
    | some sc, some (_, e) =>
      s.resolved sc (if Engine.isFresh sc source then s.engine.wanted sc source else []) e
    | _, _ => s
  | .compileLocal n source =>
    match s.engine.compileLocal n source with
    | some (_, e) => { s with engine := e }
    | none => s
  | .dependencies n source =>
    match s.engine.scope? n, s.engine.dependencies n source with
    | some sc, some (_, e) => s.resolved sc (s.engine.wanted sc source) e
    | _, _ => s
  | .clear n =>
    match s.engine.scope? n with
    | some sc => { s with engine := s.engine.setScope n sc.clear }
    | none => s
  | .fetch identifier => s.fetch identifier
  | .hold identifier => { s.request identifier with held := s.held ++ [(s.engine.request identifier).1] }
  | .await place =>
    match s.held[place]? with
    | some t => s.await t
    | none => s
  | .put identifier markup => { s with engine := s.engine.put identifier markup }
  | .remove identifier => { s with engine := s.engine.remove identifier }
  | .purge => s.purged s.engine.purge
  | .purgeAll => s.purged s.engine.purgeAll

def run (s : Session) (steps : List Step) : Session :=
  steps.foldl step s

@[simp] theorem run_cons (s : Session) (a : Step) (steps : List Step) :
    s.run (a :: steps) = (s.step a).run steps := rfl

theorem run_append (s : Session) (a b : List Step) : s.run (a ++ b) = (s.run a).run b :=
  List.foldl_append

end Session

end Stencil
