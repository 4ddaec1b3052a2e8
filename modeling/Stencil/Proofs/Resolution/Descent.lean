import Mathlib
import Stencil.Proofs.Resolution.Closure
import Stencil.Proofs.Resolution.DepthFirst
import Stencil.Proofs.Session.Fetching
/-!
Resolution against a table finds what resolution through a loader finds.

`Descends` is the search as a recursion: the whole level of a template is claimed and looked up before
the first of its templates is followed to its end.  `walk` is the same search on a stack (`descends_iff`),
so the recursion comes to one end on every table, also where references run in circles.  Both searches
succeed just when everything that the root needs is answered, and find exactly that (`IsClosure`), in
whatever order they go.  So they agree, and a scope that finds all it needs among its partials fetches
nothing (`within_agrees`).
-/

namespace Stencil

namespace Resolution

variable {α : Type} {references : α → List Text} {answer answer' : Text → Except TemplateError α}

/-! ## The search as a recursion -/

/-- The search that begins with a roster and visits these templates, each to its end, comes to this. -/
inductive Descends (references : α → List Text) (answer : Text → Except TemplateError α) :
    Roster α → List (Visit α) → Except TemplateError (Roster α) → Prop
  | done {w : Roster α} : Descends references answer w [] (.ok w)
  /-- A reference of the first template is not answered. -/
  | refused {w w' : Roster α} {v : Visit α} {rest : List (Visit α)} {e : TemplateError} :
      settleLevel answer (discover references w [v]).2 (discover references w [v]).1 =
        (w', .error e) →
      Descends references answer w (v :: rest) (.error e)
  /-- The search fails below the first template. -/
  | failed {w w' : Roster α} {v : Visit α} {rest next : List (Visit α)} {e : TemplateError} :
      settleLevel answer (discover references w [v]).2 (discover references w [v]).1 =
        (w', .ok next) →
      Descends references answer w' next (.error e) →
      Descends references answer w (v :: rest) (.error e)
  | further {w w' w'' : Roster α} {v : Visit α} {rest next : List (Visit α)}
      {o : Except TemplateError (Roster α)} :
      settleLevel answer (discover references w [v]).2 (discover references w [v]).1 =
        (w', .ok next) →
      Descends references answer w' next (.ok w'') →
      Descends references answer w'' rest o →
      Descends references answer w (v :: rest) o

namespace Descends

variable {w : Roster α} {vs us : List (Visit α)} {o o' : Except TemplateError (Roster α)}

/-- A search through two lists fails in the first, or goes on with the second where that ends. -/
theorem of_append (h : Descends references answer w (vs ++ us) o) :
    (∃ e, o = .error e ∧ Descends references answer w vs (.error e)) ∨
      ∃ w', Descends references answer w vs (.ok w') ∧ Descends references answer w' us o := by
  generalize hl : vs ++ us = l at h
  induction h generalizing vs with
  | done =>
    obtain ⟨rfl, rfl⟩ := List.append_eq_nil_iff.1 hl
    exact .inr ⟨_, .done, .done⟩
  | refused hs =>
    rcases List.append_eq_cons_iff.1 hl with ⟨rfl, rfl⟩ | ⟨vs, rfl, rfl⟩
    · exact .inr ⟨_, .done, .refused hs⟩
    · exact .inl ⟨_, rfl, .refused hs⟩
  | failed hs hb _ =>
    rcases List.append_eq_cons_iff.1 hl with ⟨rfl, rfl⟩ | ⟨vs, rfl, rfl⟩
    · exact .inr ⟨_, .done, .failed hs hb⟩
    · exact .inl ⟨_, rfl, .failed hs hb⟩
  | further hs hb hr _ ih =>
    rcases List.append_eq_cons_iff.1 hl with ⟨rfl, rfl⟩ | ⟨vs, rfl, rfl⟩
    · exact .inr ⟨_, .done, .further hs hb hr⟩
    · rcases ih rfl with ⟨e, rfl, he⟩ | ⟨w', hv, hu⟩
      · exact .inl ⟨e, rfl, .further hs hb he⟩
      · exact .inr ⟨w', .further hs hb hv, hu⟩

theorem unique (h : Descends references answer w vs o) (h' : Descends references answer w vs o') :
    o = o' := by
  induction h generalizing o' with
  | done => cases h'; rfl
  | refused hs =>
    cases h' with
    | refused hs' => rw [Except.error.inj (Prod.mk.inj (hs.symm.trans hs')).2]
    | failed hs' _ => cases (Prod.mk.inj (hs.symm.trans hs')).2
    | further hs' _ _ => cases (Prod.mk.inj (hs.symm.trans hs')).2
  | failed hs _ ih =>
    cases h' with
    | refused hs' => cases (Prod.mk.inj (hs.symm.trans hs')).2
    | failed hs' hb' =>
      obtain ⟨rfl, hn⟩ := Prod.mk.inj (hs.symm.trans hs')
      obtain rfl := Except.ok.inj hn
      rw [Except.error.inj (ih hb')]
    | further hs' hb' _ =>
      obtain ⟨rfl, hn⟩ := Prod.mk.inj (hs.symm.trans hs')
      obtain rfl := Except.ok.inj hn
      cases ih hb'
  | further hs _ _ ihb ihr =>
    cases h' with
    | refused hs' => cases (Prod.mk.inj (hs.symm.trans hs')).2
    | failed hs' hb' =>
      obtain ⟨rfl, hn⟩ := Prod.mk.inj (hs.symm.trans hs')
      obtain rfl := Except.ok.inj hn
      cases ihb hb'
    | further hs' hb' hr' =>
      obtain ⟨rfl, hn⟩ := Prod.mk.inj (hs.symm.trans hs')
      obtain rfl := Except.ok.inj hn
      obtain rfl := Except.ok.inj (ihb hb')
      exact ihr hr'

end Descends

/-- The stack holds what the recursion has still to visit. -/
theorem descends_walk (loader : Loader α) (w : Roster α) (stack : List (Visit α)) :
    Descends references loader.answer w stack (walk references loader w stack) := by
  fun_induction walk references loader w stack with
  | case1 w => exact .done
  | case2 w v stack found w' e hs => exact .refused hs
  | case3 w v stack found w' next hs ih =>
    rcases ih.of_append with ⟨e, he, hb⟩ | ⟨w'', hb, hr⟩
    · rw [he]
      exact .failed hs hb
    · exact .further hs hb hr

/-- With a loader the recursion comes to one end, on any roster and for any templates. -/
theorem descends_iff (loader : Loader α) {w : Roster α} {stack : List (Visit α)}
    {o : Except TemplateError (Roster α)} :
    Descends references loader.answer w stack o ↔ o = walk references loader w stack := by
  constructor
  · intro h
    exact h.unique (descends_walk loader w stack)
  · rintro rfl
    exact descends_walk loader w stack

/-! ## The closure of a root -/

/-- All that the root needs is answered, and the table has just that. -/
structure IsClosure (references : α → List Text) (answer : Text → Except TemplateError α) (root : α)
    (deps : Table α) : Prop where
  sorted : deps.Sorted
  answered : ∀ s, Reachable references answer root s → ∃ t, answer s = .ok t
  find?_iff : ∀ s t, deps.find? s = some t ↔ Reachable references answer root s ∧ answer s = .ok t

variable {root : α} {deps deps' : Table α}

theorem IsClosure.unique (h : IsClosure references answer root deps)
    (h' : IsClosure references answer root deps') : deps = deps' :=
  Table.ext_of_sorted h.sorted h'.sorted fun s =>
    Option.ext fun t => (h.find?_iff s t).trans (h'.find?_iff s t).symm

/-- A reference that more answers lead to is one that the root needs already, if that is all answered. -/
theorem Reachable.of_extends (ha : ∀ s, Reachable references answer root s → ∃ t, answer s = .ok t)
    (hle : ∀ s t, answer s = .ok t → answer' s = .ok t) {s : Text}
    (h : Reachable references answer' root s) : Reachable references answer root s := by
  induction h with
  | direct hs => exact .direct hs
  | through _ ht hs ih =>
    obtain ⟨u, hu⟩ := ha _ ih
    obtain rfl := Except.ok.inj ((hle _ _ hu).symm.trans ht)
    exact .through ih hu hs

theorem Reachable.mono (hle : ∀ s t, answer s = .ok t → answer' s = .ok t) {s : Text}
    (h : Reachable references answer root s) : Reachable references answer' root s := by
  induction h with
  | direct hs => exact .direct hs
  | through _ ht hs ih => exact .through ih (hle _ _ ht) hs

/-- Roots with the same references need the same. -/
theorem Reachable.congr_root {root' : α} (hroot : ∀ s, s ∈ references root ↔ s ∈ references root')
    {s : Text} (h : Reachable references answer root s) : Reachable references answer root' s := by
  induction h with
  | direct hs => exact .direct ((hroot _).1 hs)
  | through _ ha hs ih => exact .through ih ha hs

theorem IsClosure.congr_root {root' : α} (hroot : ∀ s, s ∈ references root ↔ s ∈ references root') :
    IsClosure references answer root deps ↔ IsClosure references answer root' deps := by
  have forth {root root' : α} (hroot : ∀ s, s ∈ references root ↔ s ∈ references root')
      (h : IsClosure references answer root deps) : IsClosure references answer root' deps := by
    have hr (s : Text) : Reachable references answer root' s ↔ Reachable references answer root s :=
      ⟨Reachable.congr_root fun s => (hroot s).symm, Reachable.congr_root hroot⟩
    exact ⟨h.sorted, fun s hs => h.answered s ((hr s).1 hs), fun s t => by rw [hr, h.find?_iff]⟩
  exact ⟨forth hroot, forth fun s => (hroot s).symm⟩

/-- More answers do not change a closure. -/
theorem IsClosure.of_extends (h : IsClosure references answer root deps)
    (hle : ∀ s t, answer s = .ok t → answer' s = .ok t) : IsClosure references answer' root deps := by
  have hr {s : Text} : Reachable references answer' root s ↔ Reachable references answer root s :=
    ⟨Reachable.of_extends h.answered hle, Reachable.mono hle⟩
  refine ⟨h.sorted, fun s hs => ?_, fun s t => ?_⟩
  · obtain ⟨t, ht⟩ := h.answered s (hr.1 hs)
    exact ⟨t, hle s t ht⟩
  · rw [h.find?_iff, hr]
    refine and_congr_right fun hs => ⟨hle s t, fun ht => ?_⟩
    obtain ⟨u, hu⟩ := h.answered s hs
    rwa [← Except.ok.inj ((hle s u hu).symm.trans ht)]

/-! ### Level by level -/

theorem result_run_eq_ok_iff {loader : Loader α} :
    (run references loader root).result = .ok deps ↔
      IsClosure references loader.answer root deps := by
  have closure (hok : (run references loader root).failure = none) :
      IsClosure references loader.answer root (run references loader root).roster.settled :=
    ⟨Roster.sorted_settled sorted_run, failure_eq_none_iff.1 hok, find?_settled_run hok⟩
  rw [result_eq_ok_iff]
  constructor
  · rintro ⟨hok, rfl⟩
    exact closure hok
  · intro h
    have hok := failure_eq_none_iff.2 h.answered
    exact ⟨hok, (closure hok).unique h⟩

/-! ### Depth first -/

/-- What visiting templates to their ends makes of a roster: it leaves what was there, adds all that the
templates refer to and what is needed further, and settles what it adds. -/
structure Explores (references : α → List Text) (answer : Text → Except TemplateError α)
    (w : Roster α) (stack : List (Visit α)) (w' : Roster α) : Prop where
  kept : ∀ s, w.contains s = true → w'.standing? s = w.standing? s
  visited : ∀ v ∈ stack, ∀ s ∈ references v.value, w'.contains s = true
  added : ∀ s, w.contains s = false → w'.contains s = true → ∃ t, answer s = .ok t ∧
    w'.standing? s = some (.settled t) ∧ (∀ r ∈ references t, w'.contains r = true) ∧
    ∃ v ∈ stack, Reachable references answer v.value s

theorem standing?_level {w w' : Roster α} {v : Visit α} {next : List (Visit α)}
    (h : settleLevel answer (discover references w [v]).2 (discover references w [v]).1 =
      (w', .ok next)) (s : Text) :
    w'.standing? s = if s ∈ references v.value ∧ w.contains s = false
      then (answer s).toOption.map .settled else w.standing? s := by
  have hd : ∀ q, q ∈ (discover references w [v]).1.map Request.reference ↔
      q ∈ references v.value ∧ w.contains q = false := by
    intro q
    rw [references_discover, Roster.mem_claim, List.flatMap_singleton]
  rw [(settleLevel_ok h).2, roster_discover, Roster.standing?_claim, ← references_discover]
  simp only [hd]
  split <;> rfl

/-- A level settles what is new to it. -/
theorem answered_of_level {w w' : Roster α} {v : Visit α} {next : List (Visit α)}
    (h : settleLevel answer (discover references w [v]).2 (discover references w [v]).1 =
      (w', .ok next)) {s : Text} (hs : s ∈ references v.value) (hw : w.contains s = false) :
    ∃ t, answer s = .ok t ∧ ∃ u ∈ next, u.value = t := by
  obtain ⟨q, hq, rfl⟩ : ∃ q ∈ (discover references w [v]).1, q.reference = s := by
    rw [← List.mem_map, references_discover, Roster.mem_claim, List.flatMap_singleton]
    exact ⟨hs, hw⟩
  have hm : answer q.reference ∈ next.map fun u => .ok u.value := by
    rw [← (settleLevel_ok h).1]
    exact List.mem_map_of_mem hq
  obtain ⟨u, hu, he⟩ := List.mem_map.1 hm
  exact ⟨u.value, he.symm, u, hu, rfl⟩

/-- A template of the next level is what a reference of the level is answered with. -/
theorem exists_reference_of_level {w w' : Roster α} {v u : Visit α} {next : List (Visit α)}
    (h : settleLevel answer (discover references w [v]).2 (discover references w [v]).1 =
      (w', .ok next)) (hu : u ∈ next) : ∃ r ∈ references v.value, answer r = .ok u.value := by
  obtain ⟨q, hq, ha⟩ := request_of_visit (settleLevel_ok h).1 hu
  obtain ⟨v', hv', hr⟩ := mem_of_discover (List.mem_map_of_mem hq)
  obtain rfl := List.mem_singleton.1 hv'
  exact ⟨_, hr, ha⟩

theorem explores_walk {loader : Loader α} {w w' : Roster α} {stack : List (Visit α)}
    (h : walk references loader w stack = .ok w') :
    Explores references loader.answer w stack w' := by
  fun_induction walk references loader w stack with
  | case1 w =>
    obtain rfl := Except.ok.inj h
    exact ⟨fun _ _ => rfl, fun _ hv => absurd hv List.not_mem_nil,
      fun s hn hc => absurd hc (by rw [hn]; exact Bool.false_ne_true)⟩
  | case2 w v stack found w₁ e hs => simp at h
  | case3 w v stack found w₁ next hs ih =>
    have hx := ih h
    have hlevel := standing?_level hs
    have hold {s : Text} (hc : w.contains s = true) : w₁.standing? s = w.standing? s := by
      rw [hlevel, if_neg fun hn => by simp [hc] at hn]
    have hnew {s : Text} (hr : s ∈ references v.value) (hn : w.contains s = false) {t : α}
        (ht : loader.answer s = .ok t) : w₁.standing? s = some (.settled t) := by
      rw [hlevel, if_pos ⟨hr, hn⟩, ht]
      rfl
    have hclaimed {s : Text} (hr : s ∈ references v.value) : w₁.contains s = true := by
      cases hn : w.contains s with
      | true => rw [Roster.contains_eq, hold hn, ← Roster.contains_eq, hn]
      | false =>
        obtain ⟨t, ht, -⟩ := answered_of_level hs hr hn
        rw [Roster.contains_eq, hnew hr hn ht]
        rfl
    have hstays {s : Text} (hc : w₁.contains s = true) : w'.contains s = true := by
      rw [Roster.contains_eq, hx.kept s hc, ← Roster.contains_eq, hc]
    refine ⟨fun s hc => ?_, fun u hu s hr => ?_, fun s hn hc => ?_⟩
    · rw [hx.kept s (by rw [Roster.contains_eq, hold hc, ← Roster.contains_eq, hc]), hold hc]
    · rcases List.mem_cons.1 hu with rfl | hu
      · exact hstays (hclaimed hr)
      · exact hx.visited u (List.mem_append_right _ hu) s hr
    · by_cases hr : s ∈ references v.value
      -- the level has settled it, and its template is on the stack
      · obtain ⟨t, ht, u, hu, rfl⟩ := answered_of_level hs hr hn
        refine ⟨_, ht, ?_, fun r hur => hx.visited u (List.mem_append_left _ hu) r hur,
          v, List.mem_cons_self, .direct hr⟩
        rw [hx.kept s (hclaimed hr), hnew hr hn ht]
      · have hn₁ : w₁.contains s = false := by
          rw [Roster.contains_eq, hlevel, if_neg fun h => hr h.1, ← Roster.contains_eq, hn]
        obtain ⟨t, ht, hst, hclosed, u, hu, hreach⟩ := hx.added s hn₁ hc
        refine ⟨t, ht, hst, hclosed, ?_⟩
        rcases List.mem_append.1 hu with hu | hu
        · obtain ⟨r, hvr, ha⟩ := exists_reference_of_level hs hu
          exact ⟨v, List.mem_cons_self, hreach.of_direct hvr ha⟩
        · exact ⟨u, List.mem_cons_of_mem _ hu, hreach⟩

/-- A search fails only over a reference that one of its templates needs. -/
theorem failing_walk {loader : Loader α} {w : Roster α} {stack : List (Visit α)} {e : TemplateError}
    (h : walk references loader w stack = .error e) :
    ∃ v ∈ stack, ∃ s, Reachable references loader.answer v.value s ∧
      ∃ e', loader.answer s = .error e' := by
  fun_induction walk references loader w stack with
  | case1 w => simp at h
  | case2 w v stack found w₁ e' hs =>
    obtain ⟨s, hm, he⟩ := settleLevel_error hs
    obtain ⟨u, hu, hr⟩ := mem_of_discover hm
    obtain rfl := List.mem_singleton.1 hu
    exact ⟨_, List.mem_cons_self, s, .direct hr, he⟩
  | case3 w v stack found w₁ next hs ih =>
    obtain ⟨u, hu, s, hr, he⟩ := ih h
    rcases List.mem_append.1 hu with hu | hu
    · obtain ⟨r, hvr, ha⟩ := exists_reference_of_level hs hu
      exact ⟨v, List.mem_cons_self, s, hr.of_direct hvr ha, he⟩
    · exact ⟨u, List.mem_cons_of_mem _ hu, s, hr, he⟩

/-- Visiting a root to its end, on the empty roster, settles what the root needs. -/
theorem isClosure_of_walk {loader : Loader α} {w : Roster α} {trail : List Text}
    (h : walk references loader Roster.empty [⟨trail, root⟩] = .ok w) :
    IsClosure references loader.answer root w.settled := by
  have hf := faithful_walk (faithful_empty _) h
  have hx := explores_walk h
  have hon {s : Text} (hr : Reachable references loader.answer root s) : w.contains s = true := by
    induction hr with
    | direct hs => exact hx.visited _ List.mem_cons_self _ hs
    | through _ ht hs ih =>
      obtain ⟨t, ht', -, hclosed, -⟩ := hx.added _ (Roster.contains_empty _) ih
      obtain rfl := Except.ok.inj (ht.symm.trans ht')
      exact hclosed _ hs
  refine ⟨Roster.sorted_settled hf.sorted, fun s hr => ?_, fun s t => ?_⟩
  · obtain ⟨t, ht, -⟩ := hx.added s (Roster.contains_empty s) (hon hr)
    exact ⟨t, ht⟩
  · rw [Roster.find?_settled hf.sorted]
    constructor
    · intro hst
      have hc : w.contains s = true := by rw [Roster.contains_eq, hst]; rfl
      obtain ⟨-, -, -, -, v, hv, hr⟩ := hx.added s (Roster.contains_empty s) hc
      obtain rfl := List.mem_singleton.1 hv
      exact ⟨hr, hf.settled s t hst⟩
    · rintro ⟨hr, ht⟩
      obtain ⟨u, hu, hst, -⟩ := hx.added s (Roster.contains_empty s) (hon hr)
      rwa [Except.ok.inj (ht.symm.trans hu)]

theorem within_eq_ok_iff {templates : Table α} :
    within references templates root = .ok deps ↔
      IsClosure references (Loader.ofTable templates).answer root deps := by
  rw [within, Except.map_eq_ok_iff]
  constructor
  · rintro ⟨w, hw, rfl⟩
    exact isClosure_of_walk hw
  · intro h
    cases hw : walk references (Loader.ofTable templates) Roster.empty [⟨[], root⟩] with
    | ok w => exact ⟨w, rfl, (isClosure_of_walk hw).unique h⟩
    | error e =>
      obtain ⟨v, hv, s, hr, e', he⟩ := failing_walk hw
      obtain rfl := List.mem_singleton.1 hv
      obtain ⟨t, ht⟩ := h.answered s hr
      cases he.symm.trans ht

/-! ## Loaders that answer from a table -/

/-- The loader has a template for a reference just when the table has it.  What it says of other
references is its own affair. -/
def AnswersFrom (loader : Loader α) (templates : Table α) : Prop :=
  ∀ r t, loader.answer r = .ok t ↔ templates.find? r = some t

theorem answersFrom_ofTable (templates : Table α) : AnswersFrom (Loader.ofTable templates) templates := by
  intro r t
  simp only [Loader.ofTable]
  cases templates.find? r <;> simp

end Resolution

/-- What a scope has for a partial, its loader answers with that. -/
theorem Engine.answer_of_partial {e : Engine} {sc : Scope} {r : Text} {i : Instance}
    (h : sc.partials.find? r = some i) : (e.loader sc).answer r = .ok i := by
  simp only [Engine.loader, h]

namespace Resolution

/-- Resolution against a table comes to one end.  It finds the same templates as a resolution through any
loader that answers from that table, and the one succeeds just when the other does.  If it succeeds with
the partials of a scope, then so does resolution through the loader of that scope, whatever has been
fetched so far and whatever the service has, and nothing is requested. -/
theorem within_agrees (templates : Table Instance) (root : Template) :
    (∃ o, (∀ o', Descends Instance.references (Loader.ofTable templates).answer Roster.empty
        [⟨[], ⟨.given, root⟩⟩] o' ↔ o' = o) ∧
      within Instance.references templates ⟨.given, root⟩ = o.map Roster.settled) ∧
    (∀ loader, AnswersFrom loader templates → ∀ deps,
      within Instance.references templates ⟨.given, root⟩ = .ok deps ↔
        (run Instance.references loader ⟨.given, root⟩).result = .ok deps) ∧
    ∀ (e : Engine) (sc : Scope) deps, sc.partials = templates →
      within Instance.references templates ⟨.given, root⟩ = .ok deps →
        e.resolve sc root = (.ok deps, e) ∧
        ∀ r ∈ (e.resolution sc root).loads, sc.partials.contains r = true := by
  refine ⟨⟨_, fun o' => descends_iff _, rfl⟩, fun loader hl deps => ?_, fun e sc deps hp hd => ?_⟩
  · have heq (r : Text) (t : Instance) :
        (Loader.ofTable templates).answer r = .ok t ↔ loader.answer r = .ok t :=
      (answersFrom_ofTable templates r t).trans (hl r t).symm
    rw [within_eq_ok_iff, result_run_eq_ok_iff]
    exact ⟨fun h => h.of_extends fun r t => (heq r t).1,
      fun h => h.of_extends fun r t => (heq r t).2⟩
  · subst hp
    have hle (r : Text) (t : Instance) (ht : (Loader.ofTable sc.partials).answer r = .ok t) :
        (e.loader sc).answer r = .ok t :=
      Engine.answer_of_partial ((answersFrom_ofTable sc.partials r t).1 ht)
    have hc := within_eq_ok_iff.1 hd
    have hloads : ∀ r ∈ (e.resolution sc root).loads, sc.partials.contains r = true := by
      intro r hr
      obtain ⟨t, ht⟩ := hc.answered r (Reachable.of_extends hc.answered hle (reachable_of_mem_loads hr))
      rw [Table.contains, (answersFrom_ofTable sc.partials r t).1 ht]
      rfl
    have hnone : (e.resolution sc root).loads.filter
        (fun r => !sc.partials.contains r && Reference.isRemote r) = [] := by
      rw [List.filter_eq_nil_iff]
      intro r hr
      simp [hloads r hr]
    have hsnd : (e.resolve sc root).2 = e := by
      rw [Engine.snd_resolve, hnone]
      rfl
    exact ⟨Prod.ext (result_run_eq_ok_iff.2 (hc.of_extends hle)) hsnd, hloads⟩

/-- Two partials, each of which inserts the other. -/
def ring : Table Instance :=
  [(['a'], ⟨.given, ⟨"{{>b}}".toList, [.invocation (.fixed ⟨3, ['b']⟩) []], [['b']],
      "{{>b}}".toList⟩⟩),
    (['b'], ⟨.given, ⟨"{{>a}}".toList, [.invocation (.fixed ⟨3, ['a']⟩) []], [['a']],
      "{{>a}}".toList⟩⟩)]

def ringRoot : Template :=
  ⟨"{{>a}}!".toList, [.invocation (.fixed ⟨3, ['a']⟩) [], .text ['!']], [['a']], "{{>a}}!".toList⟩

theorem within_agrees_ring : ∃ e : Engine,
    Engine.start .identity .default [] (fun _ => none) .memory []
      [(['a'], "{{>b}}".toList), (['b'], "{{>a}}".toList)] = .ok e ∧
    (run Instance.references (Loader.ofTable ring) ⟨.given, ringRoot⟩).result = .ok ring ∧
    e.resolve e.main ringRoot = (.ok ring, e) := by
  obtain ⟨e, he, hp⟩ : ∃ e, Engine.start .identity .default [] (fun _ => none) .memory []
      [(['a'], "{{>b}}".toList), (['b'], "{{>a}}".toList)] = .ok e ∧ e.main.partials = ring :=
    ⟨_, by cbv, by cbv⟩
  have hd : within Instance.references ring ⟨.given, ringRoot⟩ = .ok ring := by cbv
  obtain ⟨-, hl, hs⟩ := within_agrees ring ringRoot
  exact ⟨e, he, (hl _ (answersFrom_ofTable ring) ring).1 hd, (hs e e.main ring hp hd).1⟩

end Resolution

end Stencil
