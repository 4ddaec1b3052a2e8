import Stencil.Proofs.Resolution.Closure
/-!
One roster for several resolutions.

A resolution leaves alone what was on the roster before it, and a resolution that succeeds leaves all it
loaded settled, with everything that refers onward on the roster.  So a success is complete as long as
nothing that the root needs was claimed by an earlier resolution that failed
(`settled_of_reachable_reused`).  A failed resolution leaves its last level claimed and its loaded
templates unexplored, and a later one takes them for done (`reused_after_failure`).
-/

namespace Stencil.Resolution

variable {α : Type} {references : α → List Text} {answer : Text → Except TemplateError α}

/-! ## What a walk leaves alone -/

/-- Settling a level changes the standing of its requests only. -/
theorem standing?_settleLevel_of_notMem (answer : Text → Except TemplateError α) (w : Roster α)
    {qs : List Request} {s : Text} (h : s ∉ qs.map Request.reference) :
    (settleLevel answer w qs).1.standing? s = w.standing? s := by
  induction qs generalizing w with
  | nil => rfl
  | cons q qs ih =>
    rw [List.map_cons, List.mem_cons, not_or] at h
    unfold settleLevel
    split
    · rfl
    · rw [ih _ h.2, Roster.standing?_settle, if_neg h.1]

theorem standing?_discover_of_notMem {w : Roster α} {vs : List (Visit α)} {s : Text}
    (h : s ∉ (discover references w vs).1.map Request.reference) :
    (discover references w vs).2.standing? s = w.standing? s := by
  rw [references_discover] at h
  rw [roster_discover, Roster.standing?_claim, if_neg h]

/-- What is on the roster is not discovered again. -/
theorem notMem_discover_of_contains {w : Roster α} {vs : List (Visit α)} {s : Text}
    (h : w.contains s = true) : s ∉ (discover references w vs).1.map Request.reference := by
  rw [references_discover, Roster.mem_claim, h]
  exact fun hm => nomatch hm.2

namespace Ends

variable {w : Roster α} {level : List (Visit α)} {r : Resolution α} {s : Text}

/-- A walk, whether it fails or not, does not touch what it has not loaded. -/
theorem standing?_of_notMem (h : Ends references answer w level r) (hs : s ∉ r.loads) :
    r.roster.standing? s = w.standing? s := by
  induction h with
  | still hq => exact standing?_discover_of_notMem (hq ▸ hs)
  | @failed w w' level e _ hl =>
    have hw := standing?_settleLevel_of_notMem answer (discover references w level).2 hs
    rw [hl] at hw
    rw [hw, standing?_discover_of_notMem hs]
  | @further w w' level next r _ hl _ ih =>
    rw [List.mem_append, not_or] at hs
    have hw := standing?_settleLevel_of_notMem answer (discover references w level).2 hs.1
    rw [hl] at hw
    rw [ih hs.2, hw, standing?_discover_of_notMem hs.1]

/-- A walk loads nothing that was on the roster. -/
theorem notMem_loads (h : Ends references answer w level r) (hs : w.contains s = true) :
    s ∉ r.loads := by
  induction h with
  | still _ => exact List.not_mem_nil
  | failed _ _ => exact notMem_discover_of_contains hs
  | @further w w' level next r _ hl _ ih =>
    have hw := contains_settleLevel answer (discover references w level).2
      (discover references w level).1 (contains_discover references w level hs)
    rw [hl] at hw
    rw [List.mem_append, not_or]
    exact ⟨notMem_discover_of_contains hs, ih hw⟩

/-- What a walk that succeeds meets is on the roster in the end. -/
theorem contains_of_mentioned (h : Ends references answer w level r) (hok : r.failure = none)
    (hs : s ∈ level.flatMap (fun v => references v.value) ++
      r.loads.flatMap (onward references answer)) :
    r.roster.contains s = true := by
  rw [Roster.contains_eq, h.standing?_roster hok]
  split
  · next hm =>
    obtain ⟨t, ht⟩ := h.answered hok hm
    rw [ht]
    rfl
  · next hm =>
    rw [h.discovery hok, Roster.mem_claim, not_and, Bool.not_eq_false] at hm
    rw [← Roster.contains_eq]
    exact hm hs

end Ends

/-! ## Resolutions in a row -/

/-- Resolutions on one roster, the last one first, and the roster that they leave. -/
inductive Calls (references : α → List Text) (answer : Text → Except TemplateError α) :
    List (Resolution α) → Roster α → Prop
  | none : Calls references answer [] Roster.empty
  | call {rs : List (Resolution α)} {w : Roster α} {root : α} {r : Resolution α} :
      Calls references answer rs w → Ends references answer w [⟨[], root⟩] r →
      Calls references answer (r :: rs) r.roster

/-- The reference was loaded by a resolution that failed. -/
def Lost (rs : List (Resolution α)) (s : Text) : Prop :=
  ∃ r ∈ rs, r.failure ≠ none ∧ s ∈ r.loads

/-- The reference is settled with what it is answered with, and all that it leads to is on the roster. -/
def Explored (references : α → List Text) (answer : Text → Except TemplateError α) (w : Roster α)
    (s : Text) : Prop :=
  ∃ t, answer s = .ok t ∧ w.standing? s = some (.settled t) ∧ ∀ s' ∈ references t, w.contains s' = true

variable {rs : List (Resolution α)} {w : Roster α} {root : α} {r : Resolution α} {s : Text}

/-- A walk leaves explored what it has not loaded. -/
theorem Ends.explored {level : List (Visit α)} (h : Ends references answer w level r)
    (hs : Explored references answer w s) : Explored references answer r.roster s := by
  have keep {s : Text} (hc : w.contains s = true) : r.roster.standing? s = w.standing? s :=
    h.standing?_of_notMem (h.notMem_loads hc)
  obtain ⟨t, ha, hst, hon⟩ := hs
  refine ⟨t, ha, ?_, fun s' hs' => ?_⟩
  · rw [keep (by rw [Roster.contains_eq, hst]; rfl), hst]
  · rw [Roster.contains_eq, keep (hon s' hs'), ← Roster.contains_eq, hon s' hs']

/-- A walk that succeeds explores what it loads. -/
theorem Ends.explored_of_mem_loads {level : List (Visit α)} (h : Ends references answer w level r)
    (hok : r.failure = none) (hs : s ∈ r.loads) : Explored references answer r.roster s := by
  obtain ⟨t, ht⟩ := h.answered hok hs
  refine ⟨t, ht, ?_, fun s' hs' => ?_⟩
  · rw [h.standing?_roster hok, if_pos hs, ht]
    rfl
  · exact h.contains_of_mentioned hok
      (List.mem_append_right _ (List.mem_flatMap.2 ⟨s, hs, mem_onward.2 ⟨t, ht, hs'⟩⟩))

/-- What is on the roster and was not lost is explored. -/
theorem Calls.explored (h : Calls references answer rs w) (hs : w.contains s = true)
    (hl : ¬ Lost rs s) : Explored references answer w s := by
  induction h generalizing s with
  | none => exact nomatch hs
  | @call rs w root r _ he ih =>
    have hold : ¬ Lost rs s := fun ⟨f, hf, hlost⟩ => hl ⟨f, List.mem_cons_of_mem _ hf, hlost⟩
    by_cases hm : s ∈ r.loads
    · cases hf : r.failure with
      | none => exact he.explored_of_mem_loads hf hm
      | some e => exact absurd ⟨r, List.mem_cons_self, by simp [hf], hm⟩ hl
    · refine he.explored (ih ?_ hold)
      rwa [Roster.contains_eq, ← he.standing?_of_notMem hm, ← Roster.contains_eq]

theorem Calls.sorted (h : Calls references answer rs w) : w.Sorted := by
  induction h with
  | none => exact Roster.sorted_empty
  | call _ he ih => exact he.sorted ih

/-- A resolution on a roster that others have used, if it succeeds, has settled all that its root needs
with what the loader answers, provided that no resolution that failed had loaded any of it. -/
theorem settled_of_reachable_reused (hw : Calls references answer rs w)
    (hr : Ends references answer w [⟨[], root⟩] r)
    (hlost : ∀ s, Reachable references answer root s → ¬ Lost rs s) {deps : Table α}
    (hd : r.result = .ok deps) {s : Text} (hs : Reachable references answer root s) :
    ∃ t, answer s = .ok t ∧ deps.find? s = some t := by
  obtain ⟨hok, rfl⟩ := result_eq_ok_iff.1 hd
  have hcalls := hw.call hr
  have hlost' : ∀ s, Reachable references answer root s → ¬ Lost (r :: rs) s := by
    rintro s hs ⟨f, hf, hfail, hm⟩
    rcases List.mem_cons.1 hf with rfl | hf
    · exact hfail hok
    · exact hlost s hs ⟨f, hf, hfail, hm⟩
  have hon : r.roster.contains s = true := by
    induction hs with
    | direct hs =>
      refine hr.contains_of_mentioned hok (List.mem_append_left _ ?_)
      rwa [List.flatMap_singleton]
    | through hp ha hs ih =>
      obtain ⟨t, ht, -, hc⟩ := hcalls.explored ih (hlost' _ hp)
      obtain rfl := Except.ok.inj (ha.symm.trans ht)
      exact hc _ hs
  obtain ⟨t, ht, hst, -⟩ := hcalls.explored hon (hlost' s hs)
  exact ⟨t, ht, (Roster.find?_settled hcalls.sorted s t).2 hst⟩

/-- In the knot, `d` is resolved for one root and then found settled for another, that needs it through
`b`. -/
theorem settled_of_reachable_reused_knot :
    ∃ deps, (into id (Loader.ofTable knot) (run id (Loader.ofTable knot) [['d']]).roster [['b']]).result
        = .ok deps ∧
      (into id (Loader.ofTable knot) (run id (Loader.ofTable knot) [['d']]).roster [['b']]).loads
        = [['b']] ∧
      deps.find? ['d'] = some [['d']] := by
  have hf : (run id (Loader.ofTable knot) [['d']]).failure = none := by cbv
  have hl : (into id (Loader.ofTable knot) (run id (Loader.ofTable knot) [['d']]).roster [['b']]).loads
      = [['b']] := by cbv
  have hd : (into id (Loader.ofTable knot) (run id (Loader.ofTable knot) [['d']]).roster [['b']]).result
      = .ok [(['b'], [['d']]), (['d'], [['d']])] := by cbv
  have hs : Reachable id (Loader.ofTable knot).answer [['b']] ['d'] :=
    .through (.direct (List.mem_singleton.2 rfl)) (t := [['d']]) (by cbv) (List.mem_singleton.2 rfl)
  have hlost (s : Text) : ¬ Lost [run id (Loader.ofTable knot) [['d']]] s := by
    rintro ⟨r, hr, hfail, -⟩
    exact hfail (List.mem_singleton.1 hr ▸ hf)
  obtain ⟨t, ht, hfind⟩ := settled_of_reachable_reused (.call .none ends_run)
    (ends_fromLevel (Loader.ofTable knot) _ _) (fun s _ => hlost s) hd hs
  have ha : (Loader.ofTable knot).answer ['d'] = .ok [['d']] := by cbv
  obtain rfl := Except.ok.inj (ht.symm.trans ha)
  exact ⟨_, hd, hl, hfind⟩

/-- After a resolution that failed over `a`, one that needs nothing but `b` succeeds without it: `b` was
claimed on the same level as `a`, is answered with a template, and is neither settled nor asked for. -/
theorem reused_after_failure :
    Reachable id (Loader.ofTable [(['b'], ([] : List Text))]).answer [['b']] ['b'] ∧
    (Loader.ofTable [(['b'], ([] : List Text))]).answer ['b'] = .ok [] ∧
    (run id (Loader.ofTable [(['b'], [])]) [['a'], ['b']]).failure =
      some (.load ['a'] (.notFound ['a'] [['b']])) ∧
    (into id (Loader.ofTable [(['b'], [])])
      (run id (Loader.ofTable [(['b'], [])]) [['a'], ['b']]).roster [['b']]).result = .ok [] ∧
    (into id (Loader.ofTable [(['b'], [])])
      (run id (Loader.ofTable [(['b'], [])]) [['a'], ['b']]).roster [['b']]).loads = [] :=
  ⟨.direct (List.mem_singleton.2 rfl), by cbv, by cbv, by cbv, by cbv⟩

end Stencil.Resolution
