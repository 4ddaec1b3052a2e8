import Stencil.Proofs.Session.Copy
import Stencil.Proofs.Session.Rejection
import Stencil.Proofs.Template.Names
/-!
Which reference an entry of a registry belongs to.

A plain reference is registered as it stands and any other one under its alias.  Two references have one
name only if their digests collide or one of them is spelled as the alias of the other
(`Alias.ofReference_eq_iff`).  Every entry of a registry is that of a root or of a reference that the scope
has a template for (`Session.entry_run`), and no entry is given up.  So a reference whose name no other one
has keeps an entry of its own (`Session.entry_of_reference`).  A reference that is spelled as the alias of
another takes over its entry (`Session.entry_of_forged`).
-/

namespace Stencil

/-! ## Names -/

namespace Alias

variable {r s : Text}

/-- The first reference is spelled as the alias of the second. -/
def Forges (r s : Text) : Prop :=
  isPlain s = false ∧ r = ofReference s

instance (r s : Text) : Decidable (Forges r s) :=
  inferInstanceAs (Decidable (_ ∧ _))

theorem isPlain_ofReference (r : Text) : isPlain (ofReference r) = true := by
  rw [isPlain, Bool.and_eq_true, Bool.not_eq_true', List.isEmpty_eq_false_iff, List.all_eq_true]
  exact ⟨ofReference_ne_nil r, fun _ hc => isPlainChar_of_mem hc⟩

theorem ofReference_of_isPlain (h : isPlain r = true) : ofReference r = r :=
  if_pos h

theorem ofReference_of_not_isPlain (h : isPlain r = false) : ofReference r = mark ++ shortDigest r :=
  if_neg (by simp [h])

theorem Forges.ofReference_eq (h : Forges r s) : ofReference r = ofReference s := by
  rw [h.2, ofReference_of_isPlain (isPlain_ofReference s)]

/-- The ways in which references come to have one name. -/
theorem ofReference_eq_iff : ofReference r = ofReference s ↔ r = s ∨
    isPlain r = false ∧ isPlain s = false ∧ shortDigest r = shortDigest s ∨
    Forges r s ∨ Forges s r := by
  constructor
  · intro h
    cases hr : isPlain r with
    | true =>
      rw [ofReference_of_isPlain hr] at h
      cases hs : isPlain s with
      | true => exact .inl (h.trans (ofReference_of_isPlain hs))
      | false => exact .inr (.inr (.inl ⟨hs, h⟩))
    | false =>
      cases hs : isPlain s with
      | true => exact .inr (.inr (.inr ⟨hr, (h.trans (ofReference_of_isPlain hs)).symm⟩))
      | false =>
        rw [ofReference_of_not_isPlain hr, ofReference_of_not_isPlain hs] at h
        exact .inr (.inl ⟨rfl, rfl, List.append_cancel_left h⟩)
  · intro h
    rcases h with rfl | ⟨hr, hs, hd⟩ | h | h
    · rfl
    · rw [ofReference_of_not_isPlain hr, ofReference_of_not_isPlain hs, hd]
    · exact h.ofReference_eq
    · exact h.ofReference_eq.symm

end Alias

/-! ## Registering -/

namespace Registry

variable {objection : Objection} {g g' : Registry} {m : Text}

theorem isSome_addAll (objection : Objection) (h : (g.find? m).isSome = true) (t : Table Template) :
    ((g.addAll objection t).1.find? m).isSome = true := by
  rcases find?_addAll_or objection g t m with he | ⟨k, v, -, -, he⟩
  · rw [he, h]
  · rw [he]
    rfl

/-- Templates that have all been registered have entries under their names, be they their own or not. -/
theorem isSome_of_addAll {t : Table Template} (h : g.addAll objection t = (g', .ok ())) {k : Text}
    (hk : k ∈ t.keys) : (g'.find? (Alias.ofReference k)).isSome = true := by
  induction t generalizing g with
  | nil => exact absurd hk List.not_mem_nil
  | cons p t ih =>
    unfold addAll at h
    split at h
    · exact nomatch (Prod.mk.inj h).2
    · next g₁ hp =>
      rcases List.mem_cons.1 hk with rfl | hk
      · have hg : (g₁.find? (Alias.ofReference p.1)).isSome = true := by
          rw [find?_add hp, if_pos rfl]
          rfl
        have hall := isSome_addAll objection hg t
        rwa [h] at hall
      · exact ih h hk

end Registry

namespace Scope

variable {objection : Objection} {sc : Scope} {d : Draft} {root : Template} {deps : Table Instance}
  {m k : Text}

/-- An entry of a scope that has just been built is that of a partial. -/
theorem exists_of_ofDraft (h : ofDraft objection d = .ok sc) {c : Callable}
    (hc : sc.registry.find? m = some c) :
    ∃ k i, (k, i) ∈ sc.partials ∧ m = Alias.ofReference k ∧ c = ⟨i.template.runtimeSource, false⟩ := by
  have ho := Registry.find?_addAll_or objection [] (d.partials.map fun p => (p.1, p.2.template)) m
  unfold ofDraft at h
  split at h
  · exact nomatch h
  · next g hg =>
    obtain rfl := Except.ok.inj h
    rw [hg, hc] at ho
    rcases ho with ho | ⟨k, v, hk, hm, he⟩
    · exact nomatch ho
    · obtain ⟨⟨k', i⟩, hi, hp⟩ := List.mem_map.1 hk
      obtain ⟨rfl, rfl⟩ := Prod.mk.inj hp
      exact ⟨k', i, hi, hm, Option.some.inj he⟩

theorem isSome_of_ofDraft (h : ofDraft objection d = .ok sc) (hk : k ∈ sc.partials.keys) :
    (sc.registry.find? (Alias.ofReference k)).isSome = true := by
  unfold ofDraft at h
  split at h
  · exact nomatch h
  · next g hg =>
    obtain rfl := Except.ok.inj h
    apply Registry.isSome_of_addAll hg
    rwa [Table.keys, List.map_map]

/-- An entry after a compilation, whether it fails or not, is what it was or what the compilation has
registered. -/
theorem find?_install_or (objection : Objection) (sc : Scope) (root : Template) (deps : Table Instance)
    (m : Text) : (sc.install objection root deps).2.registry.find? m = sc.registry.find? m ∨
      ∃ c, sc.Installs root deps m c ∧
        (sc.install objection root deps).2.registry.find? m = some c := by
  have hadd : (sc.registry.addAll objection (sc.foreign deps)).1.find? m = sc.registry.find? m ∨
      ∃ c, sc.Installs root deps m c ∧
        (sc.registry.addAll objection (sc.foreign deps)).1.find? m = some c := by
    refine (Registry.find?_addAll_or objection sc.registry (sc.foreign deps) m).imp_right ?_
    rintro ⟨k, v, hk, rfl, he⟩
    obtain ⟨i, hi, rfl, hown⟩ := mem_foreign hk
    exact ⟨_, .dependency hi hown, he⟩
  have hi := installed_install objection sc root deps
  generalize sc.install objection root deps = p at hi ⊢
  cases hi with
  | failed e => exact hadd
  | done g hroot =>
    rw [Registry.find?_add hroot]
    split
    · next hm => exact .inr ⟨_, hm ▸ .root, rfl⟩
    · exact hadd

theorem isSome_install (h : (sc.registry.find? m).isSome = true) (objection : Objection)
    (root : Template) (deps : Table Instance) :
    ((sc.install objection root deps).2.registry.find? m).isSome = true := by
  rcases find?_install_or objection sc root deps m with he | ⟨c, -, he⟩
  · rw [he, h]
  · rw [he]
    rfl

/-- After a compilation that succeeds, what it depends on has an entry. -/
theorem isSome_of_install {c : Compiled} (h : (sc.install objection root deps).1 = .ok c)
    (hk : k ∈ deps.keys) (hown : sc.partials.contains k = false) :
    ((sc.install objection root deps).2.registry.find? (Alias.ofReference k)).isSome = true := by
  unfold install at h ⊢
  split at h
  · exact nomatch h
  · next g hg =>
    have hsome : (g.find? (Alias.ofReference k)).isSome = true := by
      apply Registry.isSome_of_addAll hg
      rw [keys_foreign, List.mem_filter, hown]
      exact ⟨hk, rfl⟩
    simp only at h ⊢
    split at h
    · exact nomatch h
    · next g' hg' =>
      change (g'.find? (Alias.ofReference k)).isSome = true
      rw [Registry.find?_add hg']
      split
      · rfl
      · exact hsome

end Scope

/-! ## Runs -/

namespace Session

variable {s : Session} {n : Nat} {a : Step} {steps : List Step} {root : Template} {deps : Table Instance}
  {sc sc' : Scope} {m k : Text} {i : Instance}

/-- The scope of number `n` has the template for the reference: it is a partial of the scope, or a
compilation of the run has found it there for want of one. -/
inductive Provides (s : Session) (steps : List Step) (n : Nat) (sc : Scope) (k : Text) (i : Instance) :
    Prop
  | own : sc.partials.find? k = some i → Provides s steps n sc k i
  | found {first rest : List Step} {a : Step} {root : Template} {deps : Table Instance} :
      steps = first ++ a :: rest → (s.run first).Finds n a root deps →
      sc.partials.contains k = false → deps.find? k = some i → Provides s steps n sc k i

theorem Provides.mono (h : Provides s steps n sc k i) (more : List Step)
    (hp : sc'.partials = sc.partials) : Provides s (steps ++ more) n sc' k i := by
  cases h with
  | own hk => exact .own (hp ▸ hk)
  | found he hf hown hk => exact .found (by rw [he, List.append_assoc]; rfl) hf (hp ▸ hown) hk

/-- What a scope has a template for is met in the run. -/
theorem Provides.mem_metAll (h : Provides s steps n sc k i)
    (hs : (s.run steps).engine.scope? n = some sc) : k ∈ s.metAll steps := by
  cases h with
  | own hk =>
    have hkeys := Engine.keys_subset_partialKeys hs (Table.mem_keys_of_find? hk)
    have hlast := metAll_append_right s steps []
    rw [List.append_nil] at hlast
    exact hlast hkeys
  | found he hf _ hk => exact hf.keys_subset_metAll he (Table.mem_keys_of_find? hk)

/-- The entry is that of a root, or of a reference that the scope has a template for. -/
def Belongs (s : Session) (steps : List Step) (n : Nat) (sc : Scope) (m : Text) (c : Callable) : Prop :=
  c.isRoot = true ∨ ∃ k i, Provides s steps n sc k i ∧ m = Alias.ofReference k ∧
    c = ⟨i.template.runtimeSource, false⟩

theorem Belongs.mono {c : Callable} (h : Belongs s steps n sc m c) (more : List Step)
    (hp : sc'.partials = sc.partials) : Belongs s (steps ++ more) n sc' m c := by
  refine h.imp_right ?_
  rintro ⟨k, i, hk, hm, hc⟩
  exact ⟨k, i, hk.mono more hp, hm, hc⟩

/-- One more step leaves entries that belong to references, old ones and new ones. -/
theorem Next.belongs {c : Callable} (h : (s.run steps).Next n a sc sc')
    (hold : ∀ c, sc.registry.find? m = some c → Belongs s steps n sc m c)
    (hc : sc'.registry.find? m = some c) : Belongs s (steps ++ [a]) n sc' m c := by
  have hp : sc'.partials = sc.partials := congrArg Draft.partials h.draft_eq
  cases h with
  | same => exact (hold c hc).mono [a] hp
  | cleared => exact (hold c hc).mono [a] hp
  | @installed root deps objection hf _ =>
    rcases Scope.find?_install_or objection sc root deps m with he | ⟨c', hi, he⟩
    · exact (hold c (he ▸ hc)).mono [a] hp
    · obtain rfl := Option.some.inj (hc.symm.trans he)
      cases hi with
      | @dependency k i hi hown =>
        have hfind := (Table.mem_iff_find? hf.sorted).1 hi
        exact .inr ⟨k, i, .found rfl hf (hp ▸ hown) hfind, rfl, rfl⟩
      | root => exact .inl rfl

theorem Next.isSome (h : s.Next n a sc sc') (hm : (sc.registry.find? m).isSome = true) :
    (sc'.registry.find? m).isSome = true := by
  cases h with
  | same => exact hm
  | cleared => exact hm
  | installed objection _ _ => exact Scope.isSome_install hm objection _ _

theorem isSome_run (steps : List Step) (hs : s.engine.scope? n = some sc)
    (hm : (sc.registry.find? m).isSome = true) (hs' : (s.run steps).engine.scope? n = some sc') :
    (sc'.registry.find? m).isSome = true := by
  induction steps generalizing s sc with
  | nil => exact Option.some.inj (hs.symm.trans hs') ▸ hm
  | cons a steps ih =>
    obtain ⟨sc₁, hs₁, hnext⟩ := exists_next a hs
    exact ih hs₁ (hnext.isSome hm) hs'

variable {e₀ : Engine} {expander : Expander} {escaper : Escaper} {helpers : Table Helper}
  {objection : Objection} {service : Service} {shelf partials : Table Text}

/-- Every entry of a scope is that of a root, or of a reference that the scope has a template for. -/
theorem entry_run
    (h₀ : Engine.start expander escaper helpers objection service shelf partials = .ok e₀)
    (steps : List Step) (hs : ((start e₀).run steps).engine.scope? n = some sc) {c : Callable}
    (hc : sc.registry.find? m = some c) : Belongs (start e₀) steps n sc m c := by
  induction steps using List.reverseRecOn generalizing n sc c with
  | nil =>
    obtain ⟨d, hd⟩ := ofDraft_of_start h₀ hs
    have hsort : sc.partials.Sorted := (madeOf_run h₀ [] hs).sound.sorted
    obtain ⟨k, i, hi, hm, rfl⟩ := Scope.exists_of_ofDraft hd hc
    exact .inr ⟨k, i, .own ((Table.mem_iff_find? hsort).1 hi), hm, rfl⟩
  | append_singleton steps a ih =>
    have hsort : sc.partials.Sorted := (madeOf_run h₀ (steps ++ [a]) hs).sound.sorted
    rw [run_append] at hs
    rcases next_step hs with ⟨old, hold, hnext⟩ | ⟨-, -, hd⟩
    · exact hnext.belongs (fun c' hc' => ih hold hc') hc
    · obtain ⟨k, i, hi, hm, rfl⟩ := Scope.exists_of_ofDraft hd hc
      exact .inr ⟨k, i, .own ((Table.mem_iff_find? hsort).1 hi), hm, rfl⟩

/-- The partials of a scope have entries throughout. -/
theorem isSome_of_partial
    (h₀ : Engine.start expander escaper helpers objection service shelf partials = .ok e₀)
    (steps : List Step) (hs : ((start e₀).run steps).engine.scope? n = some sc)
    (hk : k ∈ sc.partials.keys) : (sc.registry.find? (Alias.ofReference k)).isSome = true := by
  refine scope_run_of_ofDraft h₀ (P := fun sc => ∀ k ∈ sc.partials.keys,
    (sc.registry.find? (Alias.ofReference k)).isSome = true) ?_ ?_ steps hs k hk
  · intro d born hd k hk
    exact Scope.isSome_of_ofDraft hd hk
  · intro t m b old new hnext hold k hk
    have hp : new.partials = old.partials := congrArg Draft.partials hnext.draft_eq
    exact hnext.isSome (hold k (hp ▸ hk))

/-- What a compilation that succeeds has found has an entry from then on. -/
theorem isSome_of_found
    (h₀ : Engine.start expander escaper helpers objection service shelf partials = .ok e₀)
    {first rest : List Step} {c : Compiled} (hf : ((start e₀).run first).Finds n a root deps)
    (hr : ((start e₀).run first).Returns n a (.ok (some c))) (hk : k ∈ deps.keys)
    (hs : ((start e₀).run (first ++ a :: rest)).engine.scope? n = some sc) :
    (sc.registry.find? (Alias.ofReference k)).isSome = true := by
  obtain ⟨old, objection', hold, hi, hs₁⟩ := hf.installed hr
  rw [run_append, run_cons] at hs
  refine isSome_run rest hs₁ ?_ hs
  cases hown : old.partials.contains k with
  | false => exact Scope.isSome_of_install hi hk hown
  | true =>
    rw [Table.contains, Option.isSome_iff_exists] at hown
    exact Scope.isSome_install (isSome_of_partial h₀ first hold (Table.mem_keys_iff.2 hown)) _ _ _

/-- Two references with different digests have one name only if one is spelled as the alias of the other.
In any run, if that is so with no other reference that a scope has a template for, and no digests collide,
the entry of a reference in that scope is its own, unless a root has taken its name.  A partial has an
entry from the first, and a dependency since a compilation has succeeded that needs it. -/
theorem entry_of_reference
    (h₀ : Engine.start expander escaper helpers objection service shelf partials = .ok e₀)
    (steps : List Step) (hs : ((start e₀).run steps).engine.scope? n = some sc) :
    (∀ r t, r ≠ t → Alias.shortDigest r ≠ Alias.shortDigest t →
      (Alias.ofReference r = Alias.ofReference t ↔ Alias.Forges r t ∨ Alias.Forges t r)) ∧
    ∀ k, (∀ k' i, Provides (start e₀) steps n sc k' i →
        (k ≠ k' → Alias.shortDigest k ≠ Alias.shortDigest k') ∧
          ¬ Alias.Forges k k' ∧ ¬ Alias.Forges k' k) →
      (∀ c, sc.registry.find? (Alias.ofReference k) = some c → c.isRoot = true ∨
        ∃ i, Provides (start e₀) steps n sc k i ∧ c = ⟨i.template.runtimeSource, false⟩) ∧
      (k ∈ sc.partials.keys ∨ (∃ first a rest root deps c, steps = first ++ a :: rest ∧
          ((start e₀).run first).Finds n a root deps ∧
          ((start e₀).run first).Returns n a (.ok (some c)) ∧ k ∈ deps.keys) →
        ∃ c, sc.registry.find? (Alias.ofReference k) = some c) := by
  constructor
  · intro r t hne hd
    rw [Alias.ofReference_eq_iff]
    simp [hne, hd]
  · intro k hk
    constructor
    · intro c hc
      rcases entry_run h₀ steps hs hc with hroot | ⟨k', i, hi, hname, rfl⟩
      · exact .inl hroot
      · obtain ⟨hdigest, hf, hf'⟩ := hk k' i hi
        rcases Alias.ofReference_eq_iff.1 hname with rfl | ⟨-, -, hd⟩ | h | h
        · exact .inr ⟨i, hi, rfl⟩
        · obtain rfl := not_not.1 fun hne => hdigest hne hd
          exact .inr ⟨i, hi, rfl⟩
        · exact absurd h hf
        · exact absurd h hf'
    · intro h
      rw [← Option.isSome_iff_exists]
      rcases h with h | ⟨first, a, rest, root, deps, c, rfl, hf, hr, hd⟩
      · exact isSome_of_partial h₀ steps hs h
      · exact isSome_of_found h₀ hf hr hd hs

theorem entry_of_reference_fetched : ∃ sc c,
    ((start smallEngine).run [.compile 0 "{{>a:}}".toList]).engine.scope? 0 = some sc ∧
    sc.registry.find? (Alias.ofReference ['a', ':']) = some c ∧
    (c.isRoot = true ∨ ∃ i, Provides (start smallEngine) [.compile 0 "{{>a:}}".toList] 0 sc ['a', ':'] i ∧
      c = ⟨i.template.runtimeSource, false⟩) := by
  have he : ((start smallEngine).run [.compile 0 "{{>a:}}".toList]).engine = smallAfter :=
    step_smallEngine
  have hs : ((start smallEngine).run [.compile 0 "{{>a:}}".toList]).engine.scope? 0 =
      some smallAfter.main := congrArg (Engine.scope? · 0) he
  obtain ⟨-, hk⟩ := entry_of_reference start_smallEngine _ hs
  have hapart : ∀ k ∈ [['p'], ['a', ':'], ['p'], ['p']],
      (['a', ':'] ≠ k → Alias.shortDigest ['a', ':'] ≠ Alias.shortDigest k) ∧
        ¬ Alias.Forges ['a', ':'] k ∧ ¬ Alias.Forges k ['a', ':'] := by decide +kernel
  obtain ⟨hown, hsome⟩ := hk ['a', ':'] fun k' i hi =>
    hapart k' (metAll_smallEngine ▸ hi.mem_metAll hs)
  obtain ⟨c, hc⟩ := hsome (.inr ⟨[], _, [], smallRoot, smallRoster.settled, _, rfl,
    .intro (.compile 0 _) rfl rfl parse_smallRoot (congrArg Prod.fst resolve_smallRoot),
    .intro (.compile 0 _) compile_smallRoot, List.mem_cons_self⟩)
  exact ⟨_, c, hs, hc, hown c hc⟩

/-! ### A reference that is spelled as an alias -/

/-- Partials for `a:` and for its alias. -/
def forgedPartials : Table Instance :=
  [(['a', ':'], page .given ['y']), (pageName, page .given ['w'])]

def forgedEngine : Engine := pageEngine forgedPartials [(pageName, ⟨['w'], false⟩)]

theorem start_forgedEngine : Engine.start .identity .default [] (fun _ => none) .memory
    [(['a', ':'], ['y'])] [(['a', ':'], ['y']), (pageName, ['w'])] = .ok forgedEngine := by cbv

theorem succeeds_forged :
    Succeeds forgedEngine "{{>a:}}".toList pageRoot [(['a', ':'], page .given ['y'])] where
  fresh := rfl
  parsed := congrArg (Except.mapError _) parse_pageRoot
  resolved := resolve_of_resolution (resolution_page rfl)
  accepted := rfl

/-- Two partials of a scope have one name though their digests differ.  The one that is registered last
takes over the entry, and a source that inserts the other one is compiled to one that inserts it. -/
theorem entry_of_forged :
    pageName ≠ ['a', ':'] ∧ Alias.shortDigest pageName ≠ Alias.shortDigest ['a', ':'] ∧
    Alias.ofReference pageName = Alias.ofReference ['a', ':'] ∧
    Engine.start .identity .default [] (fun _ => none) .memory
      [(['a', ':'], ['y'])] [(['a', ':'], ['y']), (pageName, ['w'])] = .ok forgedEngine ∧
    forgedEngine.main.partials.find? ['a', ':'] = some (page .given ['y']) ∧
    forgedEngine.main.registry.find? (Alias.ofReference ['a', ':']) = some ⟨['w'], false⟩ ∧
    ∃ c sc, (start forgedEngine).Returns 0 (.compile 0 "{{>a:}}".toList) (.ok (some c)) ∧
      ((start forgedEngine).step (.compile 0 "{{>a:}}".toList)).engine.scope? 0 = some sc ∧
      sc.registry.find? c.name = some ⟨open2 ++ '>' :: pageName ++ close2, true⟩ ∧
      sc.registry.find? pageName = some ⟨['w'], false⟩ := by
  refine ⟨by decide, by decide +kernel, ?_, start_forgedEngine, rfl, ?_, ?_⟩
  · rw [ofReference_page]
    rfl
  · rw [ofReference_page]
    rfl
  · refine ⟨_, (installed forgedEngine pageRoot [(['a', ':'], page .given ['y'])]).main,
      succeeds_forged.returns rfl, ?_, ?_, ?_⟩
    · rw [succeeds_forged.engine_step rfl]
      rfl
    · decide +kernel
    · decide +kernel

end Session

end Stencil
