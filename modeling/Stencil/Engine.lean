import Stencil.Content
import Stencil.Escaper
import Stencil.Resolution.DepthFirst
import Stencil.Scope
/-!
The engine: a content service, the record of fetched templates, and the scopes that share them.

Every operation gives its answer and the engine after it.  A fetch asks the service, escapes the markup
and parses it, once for each task.  Compiling a source resolves what it depends on, through the partials
of the scope and then through fetches, and installs it in the scope.
-/

namespace Stencil

structure Engine where
  expander : Expander
  escaper : Escaper
  helpers : Table Helper
  /-- What the runtime objects to. -/
  objection : Objection
  content : Content
  fetches : Fetches
  /-- The scope used when none is named. -/
  main : Scope
  /-- The scopes built later, the newest first. -/
  others : List Scope

namespace Engine

/-! ## Fetching -/

/-- What a task would come to now. -/
def evaluate (e : Engine) (t : Task) : Outcome :=
  let failed (messages : List Text) : TemplateError := .fetch t.identifier messages
  match e.content.markup t.identifier with
  | .error messages => .error (failed messages)
  | .ok markup =>
    match e.escaper.escape markup with
    | .error d => .error (failed [(TemplateError.disallowed d).message])
    | .ok source =>
      match Template.parse e.expander source with
      | .error err => .error (failed [(TemplateError.ofSyntax source err).message])
      | .ok template => .ok ⟨.fetched t, template⟩

/-- The outcome of a task, which settles it. -/
def await (e : Engine) (t : Task) : Outcome × Engine :=
  match e.fetches.outcome? t with
  | some o => (o, e)
  | none =>
    let o := e.evaluate t
    (o, { e with content := e.content.asked t.identifier, fetches := e.fetches.settle t o })

/-- The task for an identifier, not yet begun. -/
def request (e : Engine) (identifier : Text) : Task × Engine :=
  let p := e.fetches.request identifier
  (p.1, { e with fetches := p.2 })

def fetch (e : Engine) (identifier : Text) : Outcome × Engine :=
  let p := e.request identifier
  p.2.await p.1

/-- What fetching an identifier would come to now. -/
def peek (e : Engine) (identifier : Text) : Outcome :=
  (e.fetch identifier).1

theorem markup_of_evaluate {e : Engine} {t : Task} {i : Instance} (h : e.evaluate t = .ok i) :
    ∃ m, e.content.markup t.identifier = .ok m := by
  unfold evaluate at h
  simp only at h
  split at h
  · simp at h
  · next m hm => exact ⟨m, hm⟩

theorem peek_finite (e : Engine) :
    ∃ known : List Text, ∀ r t, e.peek r = .ok t → r ∈ known := by
  obtain ⟨known, hk⟩ := e.content.service.markup_finite e.content.shelf
  refine ⟨e.fetches.entries.keys ++ (e.fetches.settled.map (fun p => p.1.identifier) ++ known),
    fun r t h => ?_⟩
  rcases e.fetches.request_fst r with ⟨u, hu, -⟩ | ⟨-, hr⟩
  · exact List.mem_append_left _ (Table.mem_keys_of_find? hu)
  · refine List.mem_append_right _ ?_
    simp only [peek, fetch, request, await, Fetches.outcome?_request, hr] at h
    split at h
    · next o ho =>
      exact List.mem_append_left _ (List.mem_map.2 ⟨_, Fetches.mem_settled ho, rfl⟩)
    · obtain ⟨m, hm⟩ := markup_of_evaluate h
      exact List.mem_append_right _ (hk r m hm)

/-! ## Scopes -/

/-- The scope of a number: zero is the main one, others are numbered as they were built. -/
def scope? (e : Engine) (n : Nat) : Option Scope :=
  match n with
  | 0 => some e.main
  | n + 1 => e.others.reverse[n]?

def setScope (e : Engine) (n : Nat) (s : Scope) : Engine :=
  match n with
  | 0 => { e with main := s }
  | n + 1 => { e with others := (e.others.reverse.set n s).reverse }

/-- A draft with the helpers of the engine. -/
def draft (e : Engine) : Draft :=
  Draft.empty.withHelpers e.helpers

/-- Builds the scope of a draft and gives its number. -/
def build (e : Engine) (d : Draft) : Except TemplateError (Nat × Engine) :=
  (Scope.ofDraft e.objection d).map fun s =>
    (e.others.length + 1, { e with others := s :: e.others })

/-- Builds the scope of named markup. -/
def createScope (e : Engine) (sources : Table Text) : Except TemplateError (Nat × Engine) := do
  let d ← e.draft.registerAll e.expander (sources.map fun p => (p.1, .markup p.2))
  e.build d

/-- An engine with its main scope. -/
def start (expander : Expander) (escaper : Escaper) (helpers : Table Helper) (objection : Objection)
    (service : Service) (shelf : Table Text) (partials : Table Text) :
    Except TemplateError Engine := do
  let d ← (Draft.empty.withHelpers helpers).registerAll expander
    (partials.map fun p => (p.1, .markup p.2))
  let main ← Scope.ofDraft objection d
  return {
    expander, escaper, helpers, objection
    content := ⟨service, shelf, []⟩
    fetches := .empty
    main
    others := [] }

/-! ## Compiling -/

/-- Answers from the partials of a scope, then by fetching what is remote. -/
def loader (e : Engine) (s : Scope) : Loader Instance where
  answer r :=
    match s.partials.find? r with
    | some p => .ok p
    | none => if Reference.isRemote r then e.peek r else .error (.notFound r s.partials.keys)
  finite := by
    obtain ⟨known, hk⟩ := e.peek_finite
    refine ⟨s.partials.keys ++ known, fun r t h => ?_⟩
    split at h
    · next hp => exact List.mem_append_left _ (Table.mem_keys_of_find? hp)
    · split at h
      · exact List.mem_append_right _ (hk r t h)
      · simp at h

/-- The engine after the fetches that a list of loads makes. -/
def loaded (e : Engine) (s : Scope) (loads : List Text) : Engine :=
  loads.foldl (fun e r =>
    if s.partials.contains r || !Reference.isRemote r then e else (e.fetch r).2) e

def parse (e : Engine) (source : Text) : Except TemplateError Template :=
  (Template.parse e.expander source).mapError (TemplateError.ofSyntax source)

/-- The templates that a root template depends on. -/
def resolve (e : Engine) (s : Scope) (root : Template) :
    Except TemplateError (Table Instance) × Engine :=
  let r := Resolution.run Instance.references (e.loader s) ⟨.given, root⟩
  (r.result, e.loaded s r.loads)

/-- The templates that a source compiled in the scope of number `n` depends on. -/
def dependencies (e : Engine) (n : Nat) (source : Text) :
    Option (Except TemplateError (Table Instance) × Engine) :=
  (e.scope? n).map fun s =>
    match e.parse source with
    | .error err => (.error err, e)
    | .ok root => e.resolve s root

/-- The answer to a compilation; the empty source compiles to nothing. -/
abbrev Compilation := Except TemplateError (Option Compiled)

/-- Compiles a source that is not empty and has not been compiled; `resolve` finds what it depends
on. -/
def compileNew (e : Engine) (n : Nat) (s : Scope) (source : Text)
    (resolve : Template → Except TemplateError (Table Instance) × Engine) : Compilation × Engine :=
  match e.parse source with
  | .error err => (.error err, e)
  | .ok root =>
    match resolve root with
    | (.error err, e) => (.error err, e)
    | (.ok deps, e) =>
      let p := s.install e.objection root deps
      (p.1.map some, e.setScope n p.2)

/-- Compiles a source in the scope of number `n`, unless it is empty or has been compiled. -/
def compileBy (e : Engine) (n : Nat) (source : Text)
    (resolve : Scope → Template → Except TemplateError (Table Instance) × Engine) :
    Option (Compilation × Engine) :=
  (e.scope? n).map fun s =>
    if source.isEmpty then (.ok none, e)
    else
      match s.compiled.find? source with
      | some c => (.ok (some c), e)
      | none => e.compileNew n s source (resolve s)

/-- Compiles a source, with all that it depends on. -/
def compile (e : Engine) (n : Nat) (source : Text) : Option (Compilation × Engine) :=
  e.compileBy n source e.resolve

/-- Compiles a source with the partials of the scope alone. -/
def compileLocal (e : Engine) (n : Nat) (source : Text) : Option (Compilation × Engine) :=
  e.compileBy n source fun s root =>
    (Resolution.within Instance.references s.partials ⟨.given, root⟩, e)

/-! ## Content and caches -/

def put (e : Engine) (identifier markup : Text) : Engine :=
  { e with content := e.content.put identifier markup }

def remove (e : Engine) (identifier : Text) : Engine :=
  { e with content := e.content.remove identifier }

/-- Forgets what was fetched. -/
def purge (e : Engine) : Engine :=
  { e with fetches := e.fetches.purge }

/-- Forgets what was fetched and what the main scope has compiled. -/
def purgeAll (e : Engine) : Engine :=
  { e.purge with main := e.main.clear }

/-! ## Diagnostics -/

/-- The record of fetched templates as diagnostics show it. -/
def shownFetches (e : Engine) : Text :=
  Text.shownRecord "TemplateSourceCache".toList
    [("entries".toList, Text.ofNat e.fetches.size),
      ("rewriter".toList, Text.shownRecord "EscapingRewriter".toList
        [("local_template_tag".toList, Text.shown e.escaper.tag)])]

def shown (e : Engine) : Text :=
  Text.shownRecord "TemplateEngine".toList
    [("sources".toList, e.shownFetches),
      ("helpers".toList, Helper.shownTable e.helpers),
      ("default_scope".toList, e.main.shown)]

end Engine

end Stencil
