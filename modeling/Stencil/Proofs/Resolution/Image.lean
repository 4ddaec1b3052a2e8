import Stencil.Proofs.Except
import Stencil.Proofs.Resolution.Closure
/-!
Walks whose templates are seen through a function.

A walk looks at a template only for its references.  So if one loader answers as another does, its
templates seen through a function that keeps references, then so does the walk: `run_map`.  It is enough
that the two agree on what the walk loads.
-/

namespace Stencil

variable {α β : Type}

def Standing.map (f : α → β) : Standing α → Standing β
  | awaited => awaited
  | settled value => settled (f value)

def Visit.map (f : α → β) (v : Visit α) : Visit β :=
  ⟨v.trail, f v.value⟩

/-- The loader that answers with images. -/
def Loader.map (f : α → β) (l : Loader α) : Loader β where
  answer r := (l.answer r).map f
  finite := by
    obtain ⟨known, hk⟩ := l.finite
    refine ⟨known, fun r t h => ?_⟩
    obtain ⟨t', ht', -⟩ := Except.map_eq_ok_iff.1 h
    exact hk r t' ht'

namespace Roster

variable (f : α → β) (w : Roster α)

def map : Roster β :=
  ⟨w.entries.map fun p => (p.1, p.2.map f)⟩

theorem contains_map (r : Text) : (w.map f).contains r = w.contains r := by
  simp [map, contains, Table.contains, Table.find?_map]

theorem await_map (r : Text) : (w.map f).await r = (w.await r).map f :=
  congrArg Roster.mk (Table.insert_map (Standing.map f) r .awaited w.entries)

theorem settle_map (r : Text) (value : α) :
    (w.map f).settle r (f value) = (w.settle r value).map f :=
  congrArg Roster.mk (Table.insert_map (Standing.map f) r (.settled value) w.entries)

theorem settled_map : (w.map f).settled = w.settled.map fun p => (p.1, f p.2) := by
  simp only [settled, map, List.filterMap_map, List.map_filterMap]
  congr 1
  funext p
  obtain ⟨r, s⟩ := p
  cases s <;> rfl

theorem claim_map (rs : List Text) :
    (w.map f).claim rs = ((w.claim rs).1, (w.claim rs).2.map f) := by
  induction rs generalizing w with
  | nil => rfl
  | cons r rs ih =>
    unfold claim
    rw [contains_map]
    split
    · exact ih w
    · rw [await_map, ih]

end Roster

namespace Resolution

def map (f : α → β) (r : Resolution α) : Resolution β :=
  ⟨r.roster.map f, r.loads, r.failure⟩

variable {references : α → List Text} {references' : β → List Text} {f : α → β}
  {answer : Text → Except TemplateError α} {answer' : Text → Except TemplateError β}

theorem result_map (r : Resolution α) :
    (r.map f).result = r.result.map fun deps => deps.map fun p => (p.1, f p.2) := by
  simp only [result, map]
  cases r.failure with
  | none => exact congrArg Except.ok (Roster.settled_map f r.roster)
  | some e => rfl

/-! ## Levels -/

theorem discover_map (hr : ∀ t, references' (f t) = references t) (w : Roster α)
    (vs : List (Visit α)) :
    discover references' (w.map f) (vs.map (Visit.map f)) =
      ((discover references w vs).1, (discover references w vs).2.map f) := by
  induction vs generalizing w with
  | nil => rfl
  | cons v vs ih =>
    have hv : references' (v.map f).value = references v.value := hr v.value
    simp only [List.map_cons, discover, hv, Roster.claim_map, ih]
    rfl

theorem settleLevel_map {qs : List Request}
    (ha : ∀ q ∈ qs, answer' q.reference = (answer q.reference).map f) (w : Roster α) :
    settleLevel answer' (w.map f) qs =
      ((settleLevel answer w qs).1.map f,
        (settleLevel answer w qs).2.map (List.map (Visit.map f))) := by
  induction qs generalizing w with
  | nil => rfl
  | cons q qs ih =>
    have hq := ha q List.mem_cons_self
    have hrest := ih fun q' hq' => ha q' (List.mem_cons_of_mem _ hq')
    unfold settleLevel
    cases h : answer q.reference with
    | error e => simp [hq, h, Except.map]
    | ok t =>
      simp only [hq, h, Except.map, Roster.settle_map, hrest]
      cases (settleLevel answer (w.settle q.reference t) qs).2 <;> rfl

/-! ## Walks -/

/-- The image of a walk is a walk with the loader of the image. -/
theorem Ends.map {w : Roster α} {level : List (Visit α)} {r : Resolution α}
    (h : Ends references answer w level r) (hr : ∀ t, references' (f t) = references t)
    (ha : ∀ s ∈ r.loads, answer' s = (answer s).map f) :
    Ends references' answer' (w.map f) (level.map (Visit.map f)) (r.map f) := by
  induction h with
  | @still w level hq =>
    have hd := discover_map hr w level
    have he : Ends references' answer' (w.map f) (level.map (Visit.map f)) _ :=
      .still (by rw [hd]; exact hq)
    rw [hd] at he
    exact he
  | @failed w w' level e hq hs =>
    have hd := discover_map hr w level
    have hl := settleLevel_map (fun q hm => ha q.reference (List.mem_map_of_mem hm))
      (discover references w level).2
    rw [hs] at hl
    have he : Ends references' answer' (w.map f) (level.map (Visit.map f)) _ :=
      .failed (by rw [hd]; exact hq) (by rw [hd]; exact hl)
    rw [hd] at he
    exact he
  | @further w w' level next r hq hs _ ih =>
    have hd := discover_map hr w level
    have hl := settleLevel_map
      (fun q hm => ha q.reference (List.mem_append_left _ (List.mem_map_of_mem hm)))
      (discover references w level).2
    rw [hs] at hl
    have he : Ends references' answer' (w.map f) (level.map (Visit.map f)) _ :=
      .further (by rw [hd]; exact hq) (by rw [hd]; exact hl)
        (ih fun s hm => ha s (List.mem_append_right _ hm))
    rw [hd] at he
    exact he

/-- A resolution whose loader answers with images, at least for what it loads, comes to the image. -/
theorem run_map {loader : Loader α} {loader' : Loader β} {root : α}
    (hr : ∀ t, references' (f t) = references t)
    (ha : ∀ s ∈ (run references loader root).loads, loader'.answer s = (loader.answer s).map f) :
    run references' loader' (f root) = (run references loader root).map f := by
  have hends : Ends references' loader'.answer (Roster.empty.map f) [⟨[], f root⟩]
      ((run references loader root).map f) := ends_run.map hr ha
  exact ((ends_iff loader').1 hends).symm

/-- Loaders that answer alike, their templates seen through a function, have resolutions that are alike so. -/
theorem map_run_congr {loader loader' : Loader α} {root root' : α}
    (hr : ∀ t, references' (f t) = references t) (hroot : f root' = f root)
    (ha : ∀ s, (loader'.answer s).map f = (loader.answer s).map f) :
    (run references loader' root').map f = (run references loader root).map f := by
  have himage : run references' (loader.map f) (f root) = (run references loader root).map f :=
    run_map hr fun _ _ => rfl
  have himage' : run references' (loader.map f) (f root') = (run references loader' root').map f :=
    run_map hr fun s _ => (ha s).symm
  rw [← himage, ← himage', hroot]

theorem map_id (r : Resolution α) : r.map id = r := by
  have hs : (fun p : Text × Standing α => (p.1, p.2.map id)) = id := by
    funext p
    obtain ⟨r, s⟩ := p
    cases s <;> rfl
  simp only [map, Roster.map, hs, List.map_id]

/-- A resolution depends on what it loads, and on nothing else of its loader. -/
theorem run_congr {loader loader' : Loader α} {root : α}
    (ha : ∀ s ∈ (run references loader root).loads, loader'.answer s = loader.answer s) :
    run references loader' root = run references loader root := by
  have hm : run references loader' (id root) = (run references loader root).map id := by
    refine run_map (fun _ => rfl) fun s hs => ?_
    rw [ha s hs]
    cases loader.answer s <;> rfl
  exact hm.trans (map_id _)

end Resolution

end Stencil
