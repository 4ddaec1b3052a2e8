import Stencil.Resolution.Roster
import Stencil.TemplateError
/-!
Transitive resolution of references, breadth first.

Every reference is loaded at most once.  The references met at one distance from the root form a level:
the whole level is loaded, and only then are its outcomes taken up in order, so a failure is the first
of the nearest level that has one.  The walk ends because a loader knows finitely many references and
every level that loads claims one of them.
-/

namespace Stencil

/-- A source of templates: it answers every request, and with a template only for finitely many
references. -/
structure Loader (α : Type) where
  answer : Text → Except TemplateError α
  finite : ∃ known : List Text, ∀ r t, answer r = .ok t → r ∈ known

namespace Loader

variable {α : Type}

/-- The references that are answered with a template, perhaps among others. -/
noncomputable def known (l : Loader α) : List Text :=
  Classical.choose l.finite

theorem mem_known (l : Loader α) {r : Text} {t : α} (h : l.answer r = .ok t) : r ∈ l.known :=
  Classical.choose_spec l.finite r t h

end Loader

namespace TemplateError

/-- The error with the references that led to it around it, the nearest first. -/
def along (e : TemplateError) (ancestors : List Text) : TemplateError :=
  ancestors.foldl (fun e p => dependency p e) e

end TemplateError

/-- A reference waiting to be loaded, with the references that led to it, the nearest first. -/
structure Request where
  reference : Text
  ancestors : List Text
  deriving DecidableEq, Repr

/-- A loaded template, with the reference it was loaded for and those that led to it, the nearest
first; the root has none. -/
structure Visit (α : Type) where
  trail : List Text
  value : α
  deriving Repr

namespace Resolution

variable {α : Type}

/-- Claims what the templates of a level refer to. -/
def discover (references : α → List Text) (w : Roster α) :
    List (Visit α) → List Request × Roster α
  | [] => ([], w)
  | v :: vs =>
    let p := w.claim (references v.value)
    let q := discover references p.2 vs
    (p.1.map (⟨·, v.trail⟩) ++ q.1, q.2)

/-- Takes up the outcomes of a level, up to the first failure. -/
def settleLevel (answer : Text → Except TemplateError α) (w : Roster α) :
    List Request → Roster α × Except TemplateError (List (Visit α))
  | [] => (w, .ok [])
  | q :: qs =>
    match answer q.reference with
    | .error e => (w, .error ((TemplateError.load q.reference e).along q.ancestors))
    | .ok t =>
      let p := settleLevel answer (w.settle q.reference t) qs
      (p.1, p.2.map (⟨q.reference :: q.ancestors, t⟩ :: ·))

/-- The known references that have not been claimed. -/
def unclaimed (known : List Text) (w : Roster α) : Nat :=
  known.countP fun r => !w.contains r

theorem contains_discover (references : α → List Text) (w : Roster α) (vs : List (Visit α))
    {s : Text} (h : w.contains s = true) : (discover references w vs).2.contains s = true := by
  induction vs generalizing w with
  | nil => exact h
  | cons v vs ih => exact ih _ (by simp [Roster.contains_claim, h])

/-- A discovered reference was new, and is claimed. -/
theorem discover_fresh (references : α → List Text) (w : Roster α) (vs : List (Visit α))
    {q : Request} (h : q ∈ (discover references w vs).1) :
    w.contains q.reference = false ∧
      (discover references w vs).2.contains q.reference = true := by
  induction vs generalizing w with
  | nil => simp [discover] at h
  | cons v vs ih =>
    simp only [discover, List.mem_append, List.mem_map] at h
    rcases h with ⟨r, hr, rfl⟩ | h
    · have hf := Roster.claim_fresh w _ hr
      exact ⟨hf.2, contains_discover references _ vs (by simp [Roster.contains_claim, hf.1])⟩
    · have hf := ih _ h
      rw [Roster.contains_claim] at hf
      exact ⟨by simp_all, hf.2⟩

theorem contains_settleLevel (answer : Text → Except TemplateError α) (w : Roster α)
    (qs : List Request) {s : Text} (h : w.contains s = true) :
    (settleLevel answer w qs).1.contains s = true := by
  induction qs generalizing w with
  | nil => exact h
  | cons q qs ih =>
    unfold settleLevel
    split
    · exact h
    · exact ih _ (by simp [Roster.contains_settle, h])

theorem settleLevel_answers {answer : Text → Except TemplateError α} {w : Roster α}
    {qs : List Request} {vs : List (Visit α)} (h : (settleLevel answer w qs).2 = .ok vs) :
    ∀ q ∈ qs, ∃ t, answer q.reference = .ok t := by
  induction qs generalizing w vs with
  | nil => simp
  | cons q qs ih =>
    unfold settleLevel at h
    split at h
    · simp at h
    · next t ht =>
      cases hp : (settleLevel answer (w.settle q.reference t) qs).2 with
      | error e => simp [hp, Except.map] at h
      | ok us =>
        intro q' hq'
        rcases List.mem_cons.1 hq' with rfl | hq'
        · exact ⟨t, ht⟩
        · exact ih hp q' hq'

/-- Fewer references are unclaimed when a known one has been claimed and none given up. -/
theorem unclaimed_lt {known : List Text} {w w' : Roster α} {r : Text} (hk : r ∈ known)
    (hr : w.contains r = false) (hr' : w'.contains r = true)
    (hw : ∀ s, w.contains s = true → w'.contains s = true) :
    unclaimed known w' < unclaimed known w := by
  have mono : ∀ ks : List Text, ks.countP (fun r => !w'.contains r) ≤
      ks.countP (fun r => !w.contains r) := by
    intro ks
    apply List.countP_mono_left
    intro s _ hs
    cases h : w.contains s
    · rfl
    · simp [hw s h] at hs
  unfold unclaimed
  induction known with
  | nil => simp at hk
  | cons k ks ih =>
    have := mono ks
    simp only [List.countP_cons]
    rcases List.mem_cons.1 hk with rfl | hk
    · simp only [hr, hr', Bool.not_false, Bool.not_true, if_true, Bool.false_eq_true, if_false]
      omega
    · have := ih hk
      cases h : w.contains k
      · split <;> simp <;> omega
      · simp [hw k h]
        omega

end Resolution

/-- How a resolution went: the roster it left, the references loaded, in order, and the failure that
ended it, if one did. -/
structure Resolution (α : Type) where
  roster : Roster α
  loads : List Text
  failure : Option TemplateError

namespace Resolution

variable {α : Type}

/-- Resolves what the templates of a level refer to, and so on from level to level. -/
def fromLevel (references : α → List Text) (loader : Loader α) (w : Roster α)
    (level : List (Visit α)) : Resolution α :=
  let found := discover references w level
  if _hq : found.1 = [] then ⟨found.2, [], none⟩
  else
    match _hs : settleLevel loader.answer found.2 found.1 with
    | (w', .error e) => ⟨w', found.1.map Request.reference, some e⟩
    | (w', .ok next) =>
      let r := fromLevel references loader w' next
      { r with loads := found.1.map Request.reference ++ r.loads }
termination_by unclaimed loader.known w
decreasing_by
  obtain ⟨q, hq⟩ := List.exists_mem_of_ne_nil _ _hq
  have hf := discover_fresh references w level hq
  have hok : (settleLevel loader.answer found.2 found.1).2 = .ok next := by rw [_hs]
  obtain ⟨t, ht⟩ := settleLevel_answers hok q hq
  have hw : ∀ s, found.2.contains s = true → w'.contains s = true := by
    intro s hs
    have := contains_settleLevel loader.answer found.2 found.1 hs
    rwa [_hs] at this
  exact unclaimed_lt (loader.mem_known ht) hf.1 (hw _ hf.2)
    fun s hs => hw s (contains_discover _ _ _ hs)

/-- Resolves what `root` refers to, on a roster that may already have entries. -/
def into (references : α → List Text) (loader : Loader α) (w : Roster α) (root : α) :
    Resolution α :=
  fromLevel references loader w [⟨[], root⟩]

/-- The templates that `root` needs, directly or through others, by reference. -/
def result (r : Resolution α) : Except TemplateError (Table α) :=
  match r.failure with
  | some e => .error e
  | none => .ok r.roster.settled

/-- Resolves what `root` refers to. -/
def run (references : α → List Text) (loader : Loader α) (root : α) : Resolution α :=
  into references loader Roster.empty root

end Resolution

end Stencil
