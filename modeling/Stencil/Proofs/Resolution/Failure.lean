import Mathlib
import Stencil.Proofs.Resolution.Walk
import Stencil.Resolution.DepthFirst
/-!
Where a resolution fails, and what its error says about that.

`discovered n` lists the references of depth less than `n` in the order in which a breadth-first search
comes across them, and `IsPath` follows references from a template.  A walk that has come to its `n`th
level has claimed just these, and every template of the level carries a path of length `n` that leads
to it (`AtDepth`).  So a walk stops with the first nearest failure, and its error spells out a shortest
path from the root to it (`failsAt_of_result`).
-/

namespace Stencil.Resolution

variable {α : Type}

/-! ## Depths -/

/-- The references of depth less than `n`, in the order of discovery. -/
def discovered (references : α → List Text) (answer : Text → Except TemplateError α) (root : α) :
    Nat → List Text
  | 0 => []
  | n + 1 => (mentioned references answer root (discovered references answer root n)).eraseDups

/-- The references `ps` lead from the template to `r`: the first is one of its own, and each further one,
and `r` in the end, is one of the template that the one before it is answered with. -/
def IsPath (references : α → List Text) (answer : Text → Except TemplateError α) :
    α → List Text → Text → Prop
  | t, [], r => r ∈ references t
  | t, p :: ps, r => p ∈ references t ∧ ∃ u, answer p = .ok u ∧ IsPath references answer u ps r

/-- A shortest path from the root to `r` has length `k`. -/
structure HasDepth (references : α → List Text) (answer : Text → Except TemplateError α) (root : α)
    (r : Text) (k : Nat) : Prop where
  path : ∃ ps, IsPath references answer root ps r ∧ ps.length = k
  shortest : ∀ ps, IsPath references answer root ps r → k ≤ ps.length

/-- What it is to fail with the given loads and error: `q`, of depth `k`, is the first of its level that
is answered with an error, all of its level and nothing beyond it has been loaded, and the error names a
path from the root to `q`. -/
structure FailsAt (references : α → List Text) (answer : Text → Except TemplateError α) (root : α)
    (loads : List Text) (err : TemplateError) (k : Nat) (q : Text) (path : List Text) : Prop where
  levels : loads = discovered references answer root (k + 1)
  first : ∃ before after,
    loads = discovered references answer root k ++ before ++ q :: after ∧
      ∀ s ∈ discovered references answer root k ++ before, ∃ t, answer s = .ok t
  leads : IsPath references answer root path q
  length : path.length = k
  error : ∃ e, answer q = .error e ∧ err = path.foldr .dependency (.load q e)

variable {references : α → List Text} {answer : Text → Except TemplateError α} {root : α}

/-- A path may be extended at its end. -/
theorem isPath_concat {t : α} {ps : List Text} {p r : Text} :
    IsPath references answer t (ps ++ [p]) r ↔
      IsPath references answer t ps p ∧ ∃ u, answer p = .ok u ∧ r ∈ references u := by
  induction ps generalizing t with
  | nil => exact Iff.rfl
  | cons o ps ih =>
    simp only [List.cons_append, IsPath, ih]
    constructor
    · intro h
      obtain ⟨ho, u, hu, hp, hr⟩ := h
      exact ⟨⟨ho, u, hu, hp⟩, hr⟩
    · intro h
      obtain ⟨⟨ho, u, hu, hp⟩, hr⟩ := h
      exact ⟨ho, u, hu, hp, hr⟩

/-- What has been discovered is what a short path leads to. -/
theorem mem_discovered {n : Nat} {s : Text} :
    s ∈ discovered references answer root n ↔
      ∃ ps, IsPath references answer root ps s ∧ ps.length < n := by
  induction n generalizing s with
  | zero => simp [discovered]
  | succ n ih =>
    rw [discovered, List.mem_eraseDups, mentioned, List.mem_append, List.mem_flatMap]
    constructor
    · intro h
      rcases h with hs | ⟨p, hp, hs⟩
      · exact ⟨[], hs, n.succ_pos⟩
      · obtain ⟨ps, hps, hn⟩ := ih.1 hp
        refine ⟨ps ++ [p], isPath_concat.2 ⟨hps, mem_onward.1 hs⟩, ?_⟩
        rw [List.length_append, List.length_singleton]
        omega
    · intro h
      obtain ⟨ps, hps, hn⟩ := h
      rcases List.eq_nil_or_concat' ps with rfl | ⟨ps, p, rfl⟩
      · exact .inl hps
      · rw [isPath_concat] at hps
        rw [List.length_append, List.length_singleton] at hn
        exact .inr ⟨p, ih.2 ⟨ps, hps.1, by omega⟩, mem_onward.2 hps.2⟩

theorem mem_discovered_iff_depth {n : Nat} {s : Text} :
    s ∈ discovered references answer root n ↔ ∃ d < n, HasDepth references answer root s d := by
  constructor
  · intro h
    induction n with
    | zero => simp [discovered] at h
    | succ n ih =>
      by_cases hn : s ∈ discovered references answer root n
      · obtain ⟨d, hd, hs⟩ := ih hn
        exact ⟨d, Nat.lt_succ_of_lt hd, hs⟩
      -- no path is shorter than `n`, and one is no longer
      · have hle : ∀ ps, IsPath references answer root ps s → n ≤ ps.length := by
          intro ps hps
          by_contra hlt
          exact hn (mem_discovered.2 ⟨ps, hps, by omega⟩)
        obtain ⟨ps, hps, hlt⟩ := mem_discovered.1 h
        have := hle ps hps
        exact ⟨n, n.lt_succ_self, ⟨ps, hps, by omega⟩, hle⟩
  · intro h
    obtain ⟨d, hd, hs⟩ := h
    obtain ⟨ps, hps, rfl⟩ := hs.path
    exact mem_discovered.2 ⟨ps, hps, hd⟩

theorem nodup_discovered (n : Nat) : (discovered references answer root n).Nodup := by
  cases n with
  | zero => exact List.nodup_nil
  | succ n => exact nodup_eraseDups _

/-! ## One level -/

/-- A level that fails does so at the first request that is answered with an error, and the error names
the references that led to it. -/
theorem settleLevel_first {w w' : Roster α} {qs : List Request} {err : TemplateError}
    (h : settleLevel answer w qs = (w', .error err)) :
    ∃ before q after e, qs = before ++ q :: after ∧
      (∀ p ∈ before, ∃ t, answer p.reference = .ok t) ∧ answer q.reference = .error e ∧
      err = (TemplateError.load q.reference e).along q.ancestors := by
  induction qs generalizing w w' err with
  | nil => simp [settleLevel] at h
  | cons q qs ih =>
    unfold settleLevel at h
    split at h
    · next e he =>
      simp only [Prod.mk.injEq, Except.error.injEq] at h
      exact ⟨[], q, qs, e, rfl, by simp, he, h.2.symm⟩
    · next t ht =>
      cases hp : settleLevel answer (w.settle q.reference t) qs with
      | mk w'' o =>
        cases o with
        | ok us => simp [hp, Except.map] at h
        | error err' =>
          simp only [hp, Except.map, Prod.mk.injEq, Except.error.injEq] at h
          obtain ⟨-, rfl⟩ := h
          obtain ⟨before, q', after, e, rfl, hb, he, herr⟩ := ih hp
          refine ⟨q :: before, q', after, e, rfl, ?_, he, herr⟩
          intro p hp
          rcases List.mem_cons.1 hp with rfl | hp
          · exact ⟨t, ht⟩
          · exact hb p hp

/-- A visit of a settled level is of a request, whose reference has come to its trail. -/
theorem trail_of_settleLevel {w w' : Roster α} {qs : List Request} {vs : List (Visit α)}
    (h : settleLevel answer w qs = (w', .ok vs)) {v : Visit α} (hv : v ∈ vs) :
    ∃ q ∈ qs, answer q.reference = .ok v.value ∧ v.trail = q.reference :: q.ancestors := by
  induction qs generalizing w w' vs with
  | nil =>
    simp only [settleLevel, Prod.mk.injEq, Except.ok.injEq] at h
    simp [← h.2] at hv
  | cons q qs ih =>
    unfold settleLevel at h
    split at h
    · simp at h
    · next t ht =>
      cases hp : settleLevel answer (w.settle q.reference t) qs with
      | mk w'' o =>
        cases o with
        | error e => simp [hp, Except.map] at h
        | ok us =>
          simp only [hp, Except.map, Prod.mk.injEq, Except.ok.injEq] at h
          obtain ⟨-, rfl⟩ := h
          rcases List.mem_cons.1 hv with rfl | hv
          · exact ⟨q, List.mem_cons_self, ht, rfl⟩
          · obtain ⟨q', hq', h'⟩ := ih hp hv
            exact ⟨q', List.mem_cons_of_mem _ hq', h'⟩

/-- A request of a level carries the trail of a template that refers to it. -/
theorem ancestors_of_discover {w : Roster α} {vs : List (Visit α)} {q : Request}
    (h : q ∈ (discover references w vs).1) :
    ∃ v ∈ vs, q.reference ∈ references v.value ∧ q.ancestors = v.trail := by
  induction vs generalizing w with
  | nil => simp [discover] at h
  | cons v vs ih =>
    simp only [discover, List.mem_append, List.mem_map] at h
    rcases h with ⟨s, hs, rfl⟩ | h
    · exact ⟨v, List.mem_cons_self, (Roster.mem_claim.1 hs).1, rfl⟩
    · obtain ⟨u, hu, h'⟩ := ih h
      exact ⟨u, List.mem_cons_of_mem _ hu, h'⟩

/-! ## From level to level -/

/-- The walk has come to its `n`th level: it has claimed what is of less depth, all of which is answered
with a template, its templates refer to what comes next, and each carries a path of length `n` that its
references are at the end of. -/
structure AtDepth (references : α → List Text) (answer : Text → Except TemplateError α) (root : α)
    (n : Nat) (w : Roster α) (level : List (Visit α)) : Prop where
  contains : ∀ s, w.contains s = true ↔ s ∈ discovered references answer root n
  claims : discovered references answer root (n + 1) =
    discovered references answer root n ++ (w.claim (level.flatMap fun v => references v.value)).1
  answered : ∀ s ∈ discovered references answer root n, ∃ t, answer s = .ok t
  length : ∀ v ∈ level, v.trail.length = n
  path : ∀ v ∈ level, ∀ s ∈ references v.value, IsPath references answer root v.trail.reverse s

theorem atDepth_root : AtDepth references answer root 0 Roster.empty [⟨[], root⟩] where
  contains s := by simp [Roster.contains_empty, discovered]
  claims := by simp [discovered, mentioned, Roster.claim_empty]
  answered s hs := by simp [discovered] at hs
  length v hv := by simp [List.mem_singleton.1 hv]
  path v hv s hs := by
    obtain rfl := List.mem_singleton.1 hv
    exact hs

namespace AtDepth

variable {n : Nat} {w w' : Roster α} {level next : List (Visit α)}

/-- The references of the level are those of the next depth. -/
theorem discovered_succ (h : AtDepth references answer root n w level) :
    discovered references answer root (n + 1) = discovered references answer root n ++
      (discover references w level).1.map Request.reference := by
  rw [references_discover, h.claims]

/-- A request of the level is at the end of a path of length `n`. -/
theorem path_of_request (h : AtDepth references answer root n w level) {q : Request}
    (hq : q ∈ (discover references w level).1) :
    q.ancestors.length = n ∧ IsPath references answer root q.ancestors.reverse q.reference := by
  obtain ⟨v, hv, hs, ht⟩ := ancestors_of_discover hq
  rw [ht]
  exact ⟨h.length v hv, h.path v hv _ hs⟩

/-- A level that is answered is followed by the level of the next depth. -/
theorem step (h : AtDepth references answer root n w level)
    (hl : settleLevel answer (discover references w level).2 (discover references w level).1 =
      (w', .ok next)) : AtDepth references answer root (n + 1) w' next := by
  have hc : ∀ s, w'.contains s = true ↔ s ∈ discovered references answer root (n + 1) := by
    intro s
    rw [contains_answered hl, Roster.contains_claim, h.claims, List.mem_append, ← h.contains,
      Roster.mem_claim]
    by_cases hs : w.contains s = true <;> simp [hs]
  refine ⟨hc, ?_, ?_, ?_, ?_⟩
  -- what the next level refers to comes after all that has been mentioned before
  · have hm : mentioned references answer root (discovered references answer root (n + 1)) =
        mentioned references answer root (discovered references answer root n) ++
          next.flatMap fun v => references v.value := by
      rw [onward_of_settleLevel (settleLevel_ok hl).1, h.discovered_succ, mentioned, mentioned,
        List.flatMap_append, List.append_assoc]
    have hf : (next.flatMap fun v => references v.value).removeAll
          (mentioned references answer root (discovered references answer root n)) =
        (next.flatMap fun v => references v.value).filter fun s => !w'.contains s := by
      apply List.filter_congr
      intro s _
      rw [Bool.eq_iff_iff, Bool.not_eq_true', Bool.not_eq_true', ← Bool.not_eq_true,
        ← Bool.not_eq_true, hc, discovered, List.mem_eraseDups, List.elem_iff]
    rw [discovered, hm, List.eraseDups_append, hf, Roster.claim_eq]
    rfl
  · intro s hs
    rw [h.discovered_succ, List.mem_append] at hs
    rcases hs with hs | hs
    · exact h.answered s hs
    · obtain ⟨q, hq, rfl⟩ := List.mem_map.1 hs
      exact settleLevel_answers (by rw [hl]) q hq
  · intro v hv
    obtain ⟨q, hq, -, ht⟩ := trail_of_settleLevel hl hv
    rw [ht, List.length_cons, (h.path_of_request hq).1]
  · intro v hv s hs
    obtain ⟨q, hq, ha, ht⟩ := trail_of_settleLevel hl hv
    rw [ht, List.reverse_cons]
    exact isPath_concat.2 ⟨(h.path_of_request hq).2, v.value, ha, hs⟩

end AtDepth

/-- A walk that fails from its `n`th level on fails at that level or a later one. -/
theorem Ends.failsAt {n : Nat} {w : Roster α} {level : List (Visit α)} {r : Resolution α}
    {err : TemplateError} (h : Ends references answer w level r)
    (ha : AtDepth references answer root n w level) (hf : r.failure = some err) :
    ∃ k q path, FailsAt references answer root (discovered references answer root n ++ r.loads) err
      k q path := by
  induction h generalizing n with
  | still _ => simp at hf
  | @failed w w' level e _ hl =>
    obtain ⟨before, q, after, e', hq, hb, he, herr⟩ := settleLevel_first hl
    have hqm : q ∈ (discover references w level).1 := by
      rw [hq]
      exact List.mem_append_right _ List.mem_cons_self
    obtain ⟨hn, hp⟩ := ha.path_of_request hqm
    refine ⟨n, q.reference, q.ancestors.reverse, ha.discovered_succ.symm, ?_, hp, ?_, e', he, ?_⟩
    · refine ⟨before.map Request.reference, after.map Request.reference, ?_, ?_⟩
      · simp [hq]
      · intro s hs
        rcases List.mem_append.1 hs with hs | hs
        · exact ha.answered s hs
        · obtain ⟨p, hp, rfl⟩ := List.mem_map.1 hs
          exact hb p hp
    · rw [List.length_reverse, hn]
    · obtain rfl := Option.some.inj hf
      rw [herr, TemplateError.along, List.foldr_reverse]
  | @further w w' level next r _ hl _ ih =>
    rw [← List.append_assoc, ← ha.discovered_succ]
    exact ih (ha.step hl) hf

theorem FailsAt.hasDepth {loads : List Text} {err : TemplateError} {k : Nat} {q : Text}
    {path : List Text} (h : FailsAt references answer root loads err k q path) :
    HasDepth references answer root q k := by
  refine ⟨⟨path, h.leads, h.length⟩, ?_⟩
  intro ps hps
  by_contra hk
  have hq : q ∈ discovered references answer root k := mem_discovered.2 ⟨ps, hps, by omega⟩
  obtain ⟨before, after, -, ha⟩ := h.first
  obtain ⟨t, ht⟩ := ha q (List.mem_append_left _ hq)
  obtain ⟨e, he, -⟩ := h.error
  simp [ht] at he

/-- A resolution that fails has a nearest failing reference `q`, the first of its depth `k` to be
discovered.  It has loaded all references up to that depth, each once, and its error is the loader's
error for `q` below the references of a path of length `k` from the root to it; there is no shorter
one. -/
theorem failsAt_of_result {r : Resolution α} {err : TemplateError}
    (h : Ends references answer Roster.empty [⟨[], root⟩] r) (hr : r.result = .error err) :
    (∀ loader : Loader α, loader.answer = answer → run references loader root = r) ∧
    ∃ k q path, FailsAt references answer root r.loads err k q path ∧
      HasDepth references answer root q k ∧
      r.loads.Nodup ∧
      ∀ s, s ∈ r.loads ↔ ∃ d ≤ k, HasDepth references answer root s d := by
  have hf : r.failure = some err := by
    unfold result at hr
    split at hr
    · next e he => rw [he, Except.error.inj hr]
    · simp at hr
  obtain ⟨k, q, path, hq⟩ := h.failsAt atDepth_root hf
  rw [discovered, List.nil_append] at hq
  refine ⟨?_, k, q, path, hq, hq.hasDepth, ?_, ?_⟩
  · intro loader hl
    subst hl
    exact ((ends_iff loader).1 h).symm
  · rw [hq.levels]
    exact nodup_discovered _
  · intro s
    rw [hq.levels, mem_discovered_iff_depth]
    simp only [Nat.lt_succ_iff]

/-- Three levels: `b` and `c` both lead to `e`, which has no template, as `g` has none. -/
def frayed : Table (List Text) :=
  [(['a'], [['b'], ['c']]), (['b'], [['d'], ['e']]), (['c'], [['e'], ['a'], ['g']]), (['d'], [['h']])]

theorem failsAt_of_result_frayed :
    (run id (Loader.ofTable frayed) [['a']]).result =
      .error (.dependency ['a'] (.dependency ['b'] (.load ['e'] (.notFound ['e'] frayed.keys)))) ∧
    ∃ k q path, FailsAt id (Loader.ofTable frayed).answer [['a']]
      [['a'], ['b'], ['c'], ['d'], ['e'], ['g']]
      (.dependency ['a'] (.dependency ['b'] (.load ['e'] (.notFound ['e'] frayed.keys)))) k q path := by
  have hr : (run id (Loader.ofTable frayed) [['a']]).result =
      .error (.dependency ['a'] (.dependency ['b'] (.load ['e'] (.notFound ['e'] frayed.keys)))) := by
    cbv
  have hl : (run id (Loader.ofTable frayed) [['a']]).loads =
      [['a'], ['b'], ['c'], ['d'], ['e'], ['g']] := by cbv
  have he : Ends id (Loader.ofTable frayed).answer Roster.empty [⟨[], [['a']]⟩]
      (run id (Loader.ofTable frayed) [['a']]) := ends_fromLevel _ _ _
  obtain ⟨-, k, q, path, h, -⟩ := failsAt_of_result he hr
  exact ⟨hr, k, q, path, hl ▸ h⟩

end Stencil.Resolution
