import Stencil.Proofs.Identifier
import Stencil.Proofs.Session.Frame
/-!
Whether what is written as a remote reference is fetched.

A reference is told to be remote by its colon, once as it is written and once more when it has been
expanded.  A namespace that has no colon takes the colon of a compact identifier away
(`Namespaces.isRemote_expand_iff`).  Any other remote name is fetched under just the identifier that it is
expanded to, unless that is a partial of the scope (`Engine.fetch_of_collected`).
-/

namespace Stencil

/-! ## Expansion -/

namespace Namespaces

variable {ns : Namespaces} {name head base rest : Text}

/-- The namespace that a prefix stands for; the empty one stands for the default. -/
def base? (ns : Namespaces) (head : Text) : Option Text :=
  if head = [] then ns.fallback else ns.prefixes.find? head

/-- The name is a compact identifier, and there is no colon in the namespace that its prefix stands for,
nor in the rest of it. -/
def LosesColon (ns : Namespaces) (name : Text) : Prop :=
  inBrackets? (Text.trim name) = none ∧ ∃ head base rest, Text.trim name = head ++ ':' :: rest ∧
    ':' ∉ head ∧ ¬ "//".toList <+: rest ∧ ns.base? head = some base ∧ ':' ∉ base ++ rest

theorem mem_inBrackets? {s inner : Text} (h : inBrackets? s = some inner) (hc : ':' ∈ s) :
    ':' ∈ inner := by
  unfold inBrackets? at h
  split at h
  · next r =>
    split at h
    · next hl =>
      obtain rfl := Option.some.inj h
      obtain ⟨r, rfl⟩ := List.getLast?_eq_some_iff.1 hl
      simpa using hc
    · exact nomatch h
  · exact nomatch h

/-- A text with one colon is cut there only. -/
theorem cut_scheme_eq_none (hh : ':' ∉ head) (hr : ':' ∉ rest) (hs : ¬ "//".toList <+: rest) :
    Text.cut "://".toList (head ++ ':' :: rest) = none := by
  rw [Text.cut_eq_none_iff]
  intro a b he
  change head ++ ':' :: rest = a ++ [':', '/', '/'] ++ b at he
  rw [List.append_assoc] at he
  rcases List.append_eq_append_iff.1 he with ⟨w, rfl, hw⟩ | ⟨w, rfl, hw⟩
  · cases w with
    | nil => exact hs ⟨b, (List.cons.inj hw).2.symm⟩
    | cons c w =>
      obtain ⟨rfl, rfl⟩ := List.cons.inj hw
      simp at hr
  · cases w with
    | nil => exact hs ⟨b, (List.cons.inj hw).2⟩
    | cons c w =>
      obtain ⟨rfl, -⟩ := List.cons.inj hw
      simp at hh

/-- A compact identifier is its namespace and the rest of it, if its prefix stands for one. -/
theorem expand_of_split (hb : inBrackets? (Text.trim name) = none)
    (hc : Text.cut "://".toList (Text.trim name) = none) (ht : Text.trim name = head ++ ':' :: rest)
    (hh : ':' ∉ head) :
    ns.expand name = ((ns.base? head).map (· ++ rest)).getD (Text.trim name) := by
  have hs : Text.splitOnce ':' (Text.trim name) = some (head, rest) := by
    rw [ht]
    exact Text.cut_of_notMem hh rest
  simp only [expand, base?, hb, hc, hs]
  cases head with
  | nil => rfl
  | cons c head => rfl

theorem expand_of_losesColon (h : ns.LosesColon name) : ':' ∉ ns.expand name := by
  obtain ⟨hb, head, base, rest, ht, hh, hs, hbase, hc⟩ := h
  have hr : ':' ∉ rest := fun hm => hc (List.mem_append_right _ hm)
  rw [expand_of_split hb (ht ▸ cut_scheme_eq_none hh hr hs) ht hh, hbase]
  exact hc

theorem losesColon_of_expand (hname : ':' ∈ name) (h : ':' ∉ ns.expand name) : ns.LosesColon name := by
  have htrim : ':' ∈ Text.trim name := Text.mem_trimBy hname (by decide)
  cases hb : inBrackets? (Text.trim name) with
  | some inner =>
    simp only [expand, hb] at h
    exact absurd (mem_inBrackets? hb htrim) h
  | none =>
    cases hc : Text.cut "://".toList (Text.trim name) with
    | some p =>
      simp only [expand, hb, hc] at h
      exact absurd htrim h
    | none =>
      obtain ⟨head, rest, ht, hh⟩ := List.eq_append_cons_of_mem htrim
      rw [expand_of_split hb hc ht hh] at h
      cases hbase : ns.base? head with
      | none =>
        rw [hbase] at h
        exact absurd htrim h
      | some base =>
        rw [hbase] at h
        refine ⟨hb, head, base, rest, ht, hh, ?_, hbase, h⟩
        rintro ⟨b, rfl⟩
        exact Text.not_infix_of_cut hc ⟨head, b, by rw [ht]; simp⟩

/-- What is written as a remote name is a local one when it has been expanded, if it loses its colon. -/
theorem isRemote_expand_iff (h : Reference.isRemote name = true) :
    Reference.isRemote (ns.expand name) = false ↔ ns.LosesColon name := by
  rw [Reference.isRemote, List.contains_iff_mem] at h
  rw [← Bool.not_eq_true, Reference.isRemote, List.contains_iff_mem]
  exact ⟨losesColon_of_expand h, expand_of_losesColon⟩

end Namespaces

/-! ## Loading -/

namespace Engine

variable {e : Engine} {sc : Scope} {root : Template} {id : Text}

/-- What is remote and no partial of the scope is answered by one fetch, of just that identifier. -/
theorem load_of_isRemote (hown : sc.partials.find? id = none) (hr : Reference.isRemote id = true) :
    ((e.loader sc).answer id, e.loaded sc [id]) = e.fetch id := by
  simp only [loader, loaded, List.foldl, Table.contains, hown, hr]
  rfl

/-- What is not remote and no partial of the scope is not found, and no fetch is made. -/
theorem load_of_not_isRemote (hown : sc.partials.find? id = none)
    (hr : Reference.isRemote id = false) :
    ((e.loader sc).answer id, e.loaded sc [id]) = (.error (.notFound id sc.partials.keys), e) := by
  simp only [loader, loaded, List.foldl, Table.contains, hown, hr]
  rfl

theorem mem_loads_of_mem_references (hk : id ∈ root.references) :
    id ∈ (e.resolution sc root).loads := by
  have hends : Resolution.Ends Instance.references (e.loader sc).answer .empty [⟨[], ⟨.given, root⟩⟩]
      (e.resolution sc root) := Resolution.ends_run
  exact hends.mem_loads List.mem_cons_self hk (Roster.contains_empty id)

/-- After a resolution what the root refers to has been fetched, if it is remote and no partial of the
scope. -/
theorem settled_of_mem_references (hown : sc.partials.find? id = none)
    (hr : Reference.isRemote id = true) (hk : id ∈ root.references) :
    (e.resolve sc root).2.fetches.outcome? (e.fetches.task id) = some (e.peek id) := by
  rw [snd_resolve]
  apply outcome?_fetchAll
  rw [List.mem_filter, Table.contains, hown, hr]
  exact ⟨mem_loads_of_mem_references hk, rfl⟩

/-- A resolution fails if the loader has no answer for what the root refers to. -/
theorem resolve_error (hk : id ∈ root.references) {err : TemplateError}
    (ha : (e.loader sc).answer id = .error err) : ∃ err', (e.resolve sc root).1 = .error err' := by
  cases hd : (e.resolve sc root).1 with
  | error err' => exact ⟨err', rfl⟩
  | ok deps =>
    obtain ⟨hok, -⟩ := Resolution.result_eq_ok_iff.1 hd
    obtain ⟨t, ht⟩ := Resolution.failure_eq_none_iff.1 hok id (.direct hk)
    exact nomatch ht.symm.trans ha

/-- A collected name with a colon is a reference of the template, under the identifier that it is expanded
to.  If that is no partial of a scope, the loader of the scope answers it with one fetch of just that
identifier, and the resolution of the template makes this fetch; unless the name loses its colon.  A name
that does is answered as not found, and nothing is fetched for it. -/
theorem fetch_of_collected {ns : Namespaces} {source : Text} {t : Template}
    (ht : Template.parse (.namespaces ns) source = .ok t) {name : Text}
    (hn : name ∈ Node.collected t.nodes) (hr : Reference.isRemote name = true) (e : Engine) (sc : Scope)
    (hown : sc.partials.find? (ns.expand name) = none) :
    ns.expand name ∈ t.references ∧
    (Reference.isRemote (ns.expand name) = false ↔ ns.LosesColon name) ∧
    (¬ ns.LosesColon name →
      ((e.loader sc).answer (ns.expand name), e.loaded sc [ns.expand name]) =
        e.fetch (ns.expand name) ∧
      ns.expand name ∈ (e.resolution sc t).loads ∧
      (e.resolve sc t).2.fetches.outcome? (e.fetches.task (ns.expand name)) =
        some (e.peek (ns.expand name))) ∧
    (ns.LosesColon name →
      ((e.loader sc).answer (ns.expand name), e.loaded sc [ns.expand name]) =
        (.error (.notFound (ns.expand name) sc.partials.keys), e) ∧
      ∃ err, (e.resolve sc t).1 = .error err) := by
  have hk : ns.expand name ∈ t.references := by
    rw [(Template.isParsed_of_parse ht).references_eq, Template.mem_dependencyKeys_iff]
    exact ⟨name, hn, if_pos hr⟩
  have hiff : Reference.isRemote (ns.expand name) = false ↔ ns.LosesColon name :=
    Namespaces.isRemote_expand_iff hr
  refine ⟨hk, hiff, ?_, ?_⟩
  · intro hkeep
    rw [← hiff, Bool.not_eq_false] at hkeep
    exact ⟨load_of_isRemote hown hkeep, mem_loads_of_mem_references hk,
      settled_of_mem_references hown hkeep hk⟩
  · intro hlose
    have hload := load_of_not_isRemote (e := e) hown (hiff.2 hlose)
    exact ⟨hload, resolve_error hk (congrArg Prod.fst hload)⟩

/-! ### Two namespaces -/

/-- One prefix for a namespace that is a full identifier, and one for a namespace that is relative. -/
def mixedNamespaces : Namespaces :=
  ⟨[("ex".toList, "parts/".toList), ("web".toList, "http://x/".toList)], none⟩

/-- An engine with these namespaces, and markup for what both of them make of `a`. -/
def mixedEngine : Engine where
  expander := .namespaces mixedNamespaces
  escaper := .default
  helpers := []
  objection := fun _ => none
  content := ⟨.memory, [("http://x/a".toList, ['y']), ("parts/a".toList, ['y'])], []⟩
  fetches := .empty
  main := ⟨[], [], none, [], [], 0⟩
  others := []

theorem start_mixedEngine : Engine.start (.namespaces mixedNamespaces) .default [] (fun _ => none) .memory
    [("http://x/a".toList, ['y']), ("parts/a".toList, ['y'])] [] = .ok mixedEngine := rfl

/-- A source that inserts one partial. -/
def mixedRoot (name key : Text) : Template :=
  ⟨open2 ++ '>' :: name ++ close2, [.invocation (.fixed ⟨3, name⟩) []], [key],
    open2 ++ '>' :: Alias.ofReference key ++ close2⟩

theorem parse_webRoot : Template.parse (.namespaces mixedNamespaces) "{{>web:a}}".toList =
    .ok (mixedRoot "web:a".toList "http://x/a".toList) := by cbv

theorem parse_relativeRoot : Template.parse (.namespaces mixedNamespaces) "{{>ex:a}}".toList =
    .ok (mixedRoot "ex:a".toList "parts/a".toList) := by cbv

theorem expand_web : mixedNamespaces.expand "web:a".toList = "http://x/a".toList := by cbv

theorem expand_relative : mixedNamespaces.expand "ex:a".toList = "parts/a".toList := by cbv

theorem fetch_of_collected_web :
    ((mixedEngine.loader mixedEngine.main).answer "http://x/a".toList,
      mixedEngine.loaded mixedEngine.main ["http://x/a".toList]) =
        mixedEngine.fetch "http://x/a".toList ∧
    (mixedEngine.resolve mixedEngine.main (mixedRoot "web:a".toList "http://x/a".toList)).2.fetches.outcome?
      ⟨"http://x/a".toList, 0, 0⟩ = some (mixedEngine.peek "http://x/a".toList) := by
  have hn : "web:a".toList ∈ Node.collected (mixedRoot "web:a".toList "http://x/a".toList).nodes := by
    decide
  obtain ⟨-, hiff, hfetch, -⟩ :=
    fetch_of_collected parse_webRoot hn (by decide) mixedEngine mixedEngine.main rfl
  rw [expand_web] at hiff hfetch
  obtain ⟨hload, -, hset⟩ := hfetch fun h => nomatch hiff.2 h
  exact ⟨hload, hset⟩

/-- A name is written with a colon and is collected, there is markup for what it is expanded to, and no
partial of the scope hides it; but the loader says that it is not found, and does not ask for it. -/
theorem relative_not_fetched :
    Engine.start (.namespaces mixedNamespaces) .default [] (fun _ => none) .memory
      [("http://x/a".toList, ['y']), ("parts/a".toList, ['y'])] [] = .ok mixedEngine ∧
    ∃ t, Template.parse (.namespaces mixedNamespaces) "{{>ex:a}}".toList = .ok t ∧
      "ex:a".toList ∈ Node.collected t.nodes ∧ ':' ∈ "ex:a".toList ∧
      mixedNamespaces.expand "ex:a".toList = "parts/a".toList ∧
      mixedEngine.main.partials.find? "parts/a".toList = none ∧
      mixedEngine.content.markup "parts/a".toList = .ok ['y'] ∧
      (mixedEngine.loader mixedEngine.main).answer "parts/a".toList =
        .error (.notFound "parts/a".toList []) ∧
      mixedEngine.loaded mixedEngine.main ["parts/a".toList] = mixedEngine :=
  ⟨start_mixedEngine, _, parse_relativeRoot, by decide, by decide, expand_relative, rfl, rfl, rfl, rfl⟩

end Engine

end Stencil
