import Stencil.Proofs.Resolution.Reachable
/-!
The walk from level to level, for any loader.

`Ends` relates the roster and the level that a walk begins with to what it comes to.  It does not ask
that the loader knows finitely many references, so that an infinite walk has no end; with a `Loader`
every walk has exactly one (`ends_iff`).  What a walk does is shown for one level and then by induction
on its end: all it loads is reachable, it loads in the order of discovery, and on success what it loaded
is settled.
-/

namespace Stencil.Resolution

variable {α : Type} {references : α → List Text} {answer : Text → Except TemplateError α}

/-! ## One level -/

/-- Discovering a level claims what its templates refer to. -/
theorem discover_eq (w : Roster α) (vs : List (Visit α)) :
    ((discover references w vs).1.map Request.reference, (discover references w vs).2) =
      w.claim (vs.flatMap fun v => references v.value) := by
  induction vs generalizing w with
  | nil => rfl
  | cons v vs ih =>
    rw [List.flatMap_cons, Roster.claim_append, ← ih]
    simp [discover, Function.comp_def]

theorem references_discover (w : Roster α) (vs : List (Visit α)) :
    (discover references w vs).1.map Request.reference =
      (w.claim (vs.flatMap fun v => references v.value)).1 :=
  congrArg Prod.fst (discover_eq w vs)

theorem roster_discover (w : Roster α) (vs : List (Visit α)) :
    (discover references w vs).2 = (w.claim (vs.flatMap fun v => references v.value)).2 :=
  congrArg Prod.snd (discover_eq w vs)

/-- A discovered reference is one of a template of the level. -/
theorem mem_of_discover {w : Roster α} {vs : List (Visit α)} {s : Text}
    (h : s ∈ (discover references w vs).1.map Request.reference) :
    ∃ v ∈ vs, s ∈ references v.value := by
  rw [references_discover, Roster.mem_claim] at h
  exact List.mem_flatMap.1 h.1

/-- A level whose requests are all answered: each gives a visit of the template it is answered with, and
settles it. -/
theorem settleLevel_ok {w w' : Roster α} {qs : List Request} {vs : List (Visit α)}
    (h : settleLevel answer w qs = (w', .ok vs)) :
    qs.map (fun q => answer q.reference) = vs.map (fun v => .ok v.value) ∧
      ∀ s, w'.standing? s =
        if s ∈ qs.map Request.reference then (answer s).toOption.map .settled
        else w.standing? s := by
  induction qs generalizing w vs with
  | nil =>
    simp only [settleLevel, Prod.mk.injEq, Except.ok.injEq] at h
    obtain ⟨rfl, rfl⟩ := h
    exact ⟨rfl, fun s => by simp⟩
  | cons q qs ih =>
    unfold settleLevel at h
    split at h
    · simp at h
    · next t ht =>
      cases hp : settleLevel answer (w.settle q.reference t) qs with
      | mk w'' o =>
        cases o with
        | error e => simp [hp, Except.map] at h
        | ok us =>
          simp only [hp, Except.map, Prod.mk.injEq, Except.ok.injEq] at h
          obtain ⟨rfl, rfl⟩ := h
          obtain ⟨hv, hs⟩ := ih hp
          refine ⟨by simp [ht, hv], fun s => ?_⟩
          rw [hs, Roster.standing?_settle]
          by_cases hm : s ∈ qs.map Request.reference
          · simp [hm]
          · by_cases he : s = q.reference
            · simp [he, ht, Except.toOption]
            · simp [hm, he]

/-- A level that fails has a request that is answered with an error. -/
theorem settleLevel_error {w w' : Roster α} {qs : List Request} {e : TemplateError}
    (h : settleLevel answer w qs = (w', .error e)) :
    ∃ s ∈ qs.map Request.reference, ∃ e', answer s = .error e' := by
  induction qs generalizing w w' e with
  | nil => simp [settleLevel] at h
  | cons q qs ih =>
    unfold settleLevel at h
    split at h
    · next e' he => exact ⟨q.reference, by simp, e', he⟩
    · next t ht =>
      cases hp : settleLevel answer (w.settle q.reference t) qs with
      | mk w'' o =>
        cases o with
        | ok us => simp [hp, Except.map] at h
        | error e' =>
          obtain ⟨s, hs, hf⟩ := ih hp
          exact ⟨s, List.mem_cons_of_mem _ hs, hf⟩

/-- A visit of an answered level is of a template that a request is answered with. -/
theorem request_of_visit {qs : List Request} {vs : List (Visit α)}
    (h : qs.map (fun q => answer q.reference) = vs.map (fun v => .ok v.value)) {v : Visit α}
    (hv : v ∈ vs) : ∃ q ∈ qs, answer q.reference = .ok v.value := by
  have hm : (Except.ok v.value : Except TemplateError α) ∈ qs.map fun q => answer q.reference := by
    rw [h]
    exact List.mem_map.2 ⟨v, hv, rfl⟩
  exact List.mem_map.1 hm

/-- A level that is answered leaves what it has claimed on the roster, and no more. -/
theorem contains_answered {w w' : Roster α} {level next : List (Visit α)}
    (h : settleLevel answer (discover references w level).2 (discover references w level).1 =
      (w', .ok next)) (s : Text) :
    w'.contains s = (w.claim (level.flatMap fun v => references v.value)).2.contains s := by
  rw [Roster.contains_eq, (settleLevel_ok h).2, ← roster_discover]
  split
  · next hm =>
    obtain ⟨q, hq, rfl⟩ := List.mem_map.1 hm
    obtain ⟨t, ht⟩ := settleLevel_answers (by rw [h]) q hq
    simp [ht, Except.toOption, (discover_fresh references w level hq).2]
  · rfl

theorem sorted_settleLevel {w w' : Roster α} {qs : List Request}
    {o : Except TemplateError (List (Visit α))} (hw : w.Sorted)
    (h : settleLevel answer w qs = (w', o)) : w'.Sorted := by
  induction qs generalizing w w' o with
  | nil =>
    obtain ⟨rfl, -⟩ := Prod.mk.inj h
    exact hw
  | cons q qs ih =>
    unfold settleLevel at h
    split at h
    · obtain ⟨rfl, -⟩ := Prod.mk.inj h
      exact hw
    · obtain ⟨rfl, -⟩ := Prod.mk.inj h
      exact ih (Roster.sorted_settle hw _ _) rfl

theorem sorted_discover {w : Roster α} (hw : w.Sorted) (vs : List (Visit α)) :
    (discover references w vs).2.Sorted := by
  rw [roster_discover]
  exact Roster.sorted_claim hw _

/-- The templates that a level gives refer to what its requests lead on to. -/
theorem onward_of_settleLevel {qs : List Request} {vs : List (Visit α)}
    (h : qs.map (fun q => answer q.reference) = vs.map (fun v => .ok v.value)) :
    vs.flatMap (fun v => references v.value) =
      (qs.map Request.reference).flatMap (onward references answer) := by
  induction vs generalizing qs with
  | nil =>
    obtain rfl := List.map_eq_nil_iff.1 h
    rfl
  | cons v vs ih =>
    obtain ⟨q, qs, rfl, hq, hqs⟩ := List.map_eq_cons_iff.1 h
    rw [List.flatMap_cons, List.map_cons, List.flatMap_cons, ih hqs, onward, hq]

/-! ## The end of a walk -/

/-- The walk that begins with a roster and a level comes to an end, and to this one. -/
inductive Ends (references : α → List Text) (answer : Text → Except TemplateError α) :
    Roster α → List (Visit α) → Resolution α → Prop
  | still {w : Roster α} {level : List (Visit α)} :
      (discover references w level).1 = [] →
      Ends references answer w level ⟨(discover references w level).2, [], none⟩
  | failed {w w' : Roster α} {level : List (Visit α)} {e : TemplateError} :
      (discover references w level).1 ≠ [] →
      settleLevel answer (discover references w level).2 (discover references w level).1 =
        (w', .error e) →
      Ends references answer w level
        ⟨w', (discover references w level).1.map Request.reference, some e⟩
  | further {w w' : Roster α} {level next : List (Visit α)} {r : Resolution α} :
      (discover references w level).1 ≠ [] →
      settleLevel answer (discover references w level).2 (discover references w level).1 =
        (w', .ok next) →
      Ends references answer w' next r →
      Ends references answer w level
        { r with loads := (discover references w level).1.map Request.reference ++ r.loads }

theorem ends_fromLevel (loader : Loader α) (w : Roster α) (level : List (Visit α)) :
    Ends references loader.answer w level (fromLevel references loader w level) := by
  fun_induction fromLevel references loader w level with
  | case1 w level found hq => exact .still hq
  | case2 w level found hq w' e hs => exact .failed hq hs
  | case3 w level found hq w' next hs r ih => exact .further hq hs ih

theorem Ends.unique {w : Roster α} {level : List (Visit α)} {r r' : Resolution α}
    (h : Ends references answer w level r) (h' : Ends references answer w level r') : r = r' := by
  induction h generalizing r' with
  | still hq =>
    cases h' with
    | still _ => rfl
    | failed hq' _ => exact absurd hq hq'
    | further hq' _ _ => exact absurd hq hq'
  | failed hq hs =>
    cases h' with
    | still hq' => exact absurd hq' hq
    | failed _ hs' =>
      rw [hs] at hs'
      simp only [Prod.mk.injEq, Except.error.injEq] at hs'
      rw [hs'.1, hs'.2]
    | further _ hs' _ => simp [hs] at hs'
  | further hq hs _ ih =>
    cases h' with
    | still hq' => exact absurd hq' hq
    | failed _ hs' => simp [hs] at hs'
    | further _ hs' hr' =>
      rw [hs] at hs'
      simp only [Prod.mk.injEq, Except.ok.injEq] at hs'
      obtain ⟨rfl, rfl⟩ := hs'
      rw [ih hr']

/-- With a loader a walk has one end. -/
theorem ends_iff (loader : Loader α) {w : Roster α} {level : List (Visit α)} {r : Resolution α} :
    Ends references loader.answer w level r ↔ r = fromLevel references loader w level := by
  constructor
  · intro h
    exact h.unique (ends_fromLevel loader w level)
  · rintro rfl
    exact ends_fromLevel loader w level

/-! ## What a walk does -/

namespace Ends

variable {w : Roster α} {level : List (Visit α)} {r : Resolution α}

/-- All that a walk loads is needed by a template of its first level. -/
theorem reachable (h : Ends references answer w level r) {s : Text} (hs : s ∈ r.loads) :
    ∃ v ∈ level, Reachable references answer v.value s := by
  induction h with
  | still _ => simp at hs
  | failed _ _ =>
    obtain ⟨v, hv, hr⟩ := mem_of_discover hs
    exact ⟨v, hv, .direct hr⟩
  | further _ hl _ ih =>
    rcases List.mem_append.1 hs with hs | hs
    · obtain ⟨v, hv, hr⟩ := mem_of_discover hs
      exact ⟨v, hv, .direct hr⟩
    · obtain ⟨u, hu, hr⟩ := ih hs
      obtain ⟨q, hq, ha⟩ := request_of_visit (settleLevel_ok hl).1 hu
      obtain ⟨v, hv, hd⟩ := mem_of_discover (List.mem_map_of_mem hq)
      exact ⟨v, hv, hr.of_direct hd ha⟩

/-- A walk loads what a template of its first level refers to, unless that is on the roster. -/
theorem mem_loads (h : Ends references answer w level r) {v : Visit α} (hv : v ∈ level) {s : Text}
    (hs : s ∈ references v.value) (hw : w.contains s = false) : s ∈ r.loads := by
  have hm : s ∈ (discover references w level).1.map Request.reference := by
    rw [references_discover, Roster.mem_claim]
    exact ⟨List.mem_flatMap.2 ⟨v, hv, hs⟩, hw⟩
  cases h with
  | still hq =>
    rw [hq] at hm
    exact absurd hm List.not_mem_nil
  | failed _ _ => exact hm
  | further _ _ _ => exact List.mem_append_left _ hm

/-- A walk that fails has loaded a reference that is answered with an error. -/
theorem failing (h : Ends references answer w level r) (hf : r.failure ≠ none) :
    ∃ s ∈ r.loads, ∃ e, answer s = .error e := by
  induction h with
  | still _ => exact absurd rfl hf
  | failed _ hs => exact settleLevel_error hs
  | further _ _ _ ih =>
    obtain ⟨s, hs, he⟩ := ih hf
    exact ⟨s, List.mem_append_right _ hs, he⟩

theorem sorted (h : Ends references answer w level r) (hw : w.Sorted) : r.roster.Sorted := by
  induction h with
  | still _ => exact sorted_discover hw _
  | failed _ hs => exact sorted_settleLevel (sorted_discover hw _) hs
  | further _ hs _ ih => exact ih (sorted_settleLevel (sorted_discover hw _) hs)

/-- What a walk that succeeds loads is settled with what it is answered with, and nothing else on the
roster has changed. -/
theorem standing?_roster (h : Ends references answer w level r) (hok : r.failure = none) (s : Text) :
    r.roster.standing? s =
      if s ∈ r.loads then (answer s).toOption.map .settled else w.standing? s := by
  induction h with
  | still hq =>
    rw [roster_discover, Roster.standing?_claim, ← references_discover, hq]
    rfl
  | failed _ _ => simp at hok
  | further _ hs _ ih =>
    rw [ih hok, (settleLevel_ok hs).2, roster_discover, Roster.standing?_claim,
      ← references_discover]
    simp only [List.mem_append]
    split <;> split <;> simp_all

theorem answered (h : Ends references answer w level r) (hok : r.failure = none) {s : Text}
    (hs : s ∈ r.loads) : ∃ t, answer s = .ok t := by
  induction h with
  | still _ => simp at hs
  | failed _ _ => simp at hok
  | further _ hl _ ih =>
    rcases List.mem_append.1 hs with hs | hs
    · obtain ⟨q, hq, rfl⟩ := List.mem_map.1 hs
      exact settleLevel_answers (by rw [hl]) q hq
    · exact ih hok hs

/-- A walk that succeeds has loaded, in the order of discovery, what its first level refers to and what
the loaded templates refer to, less what was on the roster. -/
theorem discovery (h : Ends references answer w level r) (hok : r.failure = none) :
    r.loads = (w.claim (level.flatMap (fun v => references v.value) ++
      r.loads.flatMap (onward references answer))).1 := by
  induction h with
  | still hq =>
    rw [List.flatMap_nil, List.append_nil, ← references_discover, hq]
    rfl
  | failed _ _ => simp at hok
  | @further w w' level next r _ hs _ ih =>
    obtain ⟨hv, -⟩ := settleLevel_ok hs
    calc _ = (w.claim (level.flatMap fun v => references v.value)).1 ++ r.loads := by
          rw [← references_discover]
      _ = (w.claim (level.flatMap fun v => references v.value)).1 ++
          (w'.claim (next.flatMap (fun v => references v.value) ++
            r.loads.flatMap (onward references answer))).1 := by rw [← ih hok]
      _ = _ := by
          rw [List.flatMap_append, Roster.claim_append w, Roster.claim_congr (contains_answered hs),
            onward_of_settleLevel hv]

end Ends

end Stencil.Resolution
