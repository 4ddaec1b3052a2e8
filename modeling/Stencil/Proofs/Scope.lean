import Stencil.Proofs.Except
import Stencil.Proofs.Table
import Stencil.Scope
/-!
What a scope has registered.

Registering changes the entries of the names that it registers and no others, and a compilation registers
only what is not a partial of the scope.  So, as long as names do not collide (`Alias.Apart`), a scope
keeps what building it registered (`KeepsPartials.install`).
-/

namespace Stencil

/-- No two of the references have one name in the registry, and none has that of a root. -/
structure Alias.Apart (references sources : List Text) : Prop where
  injective : ∀ a ∈ references, ∀ b ∈ references, Alias.ofReference a = Alias.ofReference b → a = b
  rootless : ∀ a ∈ references, ∀ b ∈ sources, Alias.ofReference a ≠ Alias.ofRoot b

theorem Alias.Apart.mono {references references' sources sources' : List Text}
    (h : Apart references' sources') (hr : references ⊆ references') (hs : sources ⊆ sources') :
    Apart references sources :=
  ⟨fun a ha b hb => h.injective a (hr ha) b (hr hb),
    fun a ha b hb => h.rootless a (hr ha) b (hs hb)⟩

/-! ## The registry -/

namespace Registry

variable {objection : Objection} {g g' : Registry}

theorem find?_add {name shown : Text} {c : Callable} (h : g.add objection name c shown = .ok g')
    (m : Text) : g'.find? m = if m = name then some c else g.find? m := by
  unfold add at h
  split at h
  · exact nomatch h
  · rw [← Except.ok.inj h, Table.find?_insert]

/-- Templates that are registered, all or some of them, change no other names. -/
theorem find?_addAll_of_ne (objection : Objection) (g : Registry) {t : Table Template} {m : Text}
    (h : ∀ k ∈ t.keys, Alias.ofReference k ≠ m) : (g.addAll objection t).1.find? m = g.find? m := by
  induction t generalizing g with
  | nil => rfl
  | cons p t ih =>
    have hp : m ≠ Alias.ofReference p.1 := (h p.1 List.mem_cons_self).symm
    unfold addAll
    split
    · rfl
    · next g₁ ha =>
      rw [ih g₁ fun k hk => h k (List.mem_cons_of_mem _ hk), find?_add ha, if_neg hp]

/-- Templates that have all been registered are found under their names. -/
theorem find?_addAll {t : Table Template} (h : g.addAll objection t = (g', .ok ()))
    (hn : t.keys.Nodup) (ha : Alias.Apart t.keys []) {k : Text} {v : Template}
    (hk : t.find? k = some v) :
    g'.find? (Alias.ofReference k) = some ⟨v.runtimeSource, false⟩ := by
  induction t generalizing g with
  | nil => exact nomatch hk
  | cons p t ih =>
    obtain ⟨r, w⟩ := p
    obtain ⟨hr, hn⟩ := List.nodup_cons.1 hn
    unfold addAll at h
    split at h
    · exact nomatch (Prod.mk.inj h).2
    · next g₁ hp =>
      unfold Table.find? at hk
      by_cases he : k = r
      -- what follows has other references, hence other names
      · rw [if_pos he] at hk
        obtain rfl := Option.some.inj hk
        have hne : ∀ k' ∈ Table.keys t, Alias.ofReference k' ≠ Alias.ofReference k := by
          intro k' hk' hc
          have := ha.injective k' (List.mem_cons_of_mem _ hk') r List.mem_cons_self (he ▸ hc)
          exact hr (this ▸ hk')
        have hg := find?_addAll_of_ne objection g₁ hne
        rw [h] at hg
        rw [hg, find?_add hp, if_pos (congrArg _ he)]
      · rw [if_neg he] at hk
        exact ih h hn (ha.mono (List.subset_cons_self _ _) (List.Subset.refl _)) hk

/-- Templates that are registered leave an entry that is the same as theirs. -/
theorem find?_addAll_of_same (objection : Objection) (g : Registry) {t : Table Template} {m : Text}
    (h : ∀ k v, (k, v) ∈ t → Alias.ofReference k = m → g.find? m = some ⟨v.runtimeSource, false⟩) :
    (g.addAll objection t).1.find? m = g.find? m := by
  induction t generalizing g with
  | nil => rfl
  | cons p t ih =>
    unfold addAll
    split
    · rfl
    · next g₁ ha =>
      have hg : g₁.find? m = g.find? m := by
        rw [find?_add ha]
        split
        · next hm => exact (h p.1 p.2 List.mem_cons_self hm.symm).symm
        · rfl
      rw [ih g₁ fun k v hk hm => hg.trans (h k v (List.mem_cons_of_mem _ hk) hm), hg]

theorem sorted_add {name shown : Text} {c : Callable} (hg : g.Sorted)
    (h : g.add objection name c shown = .ok g') : g'.Sorted := by
  unfold add at h
  split at h
  · exact nomatch h
  · exact Except.ok.inj h ▸ Table.sorted_insert hg name c

theorem sorted_addAll (objection : Objection) (hg : g.Sorted) (t : Table Template) :
    (g.addAll objection t).1.Sorted := by
  induction t generalizing g with
  | nil => exact hg
  | cons p t ih =>
    unfold addAll
    split
    · exact hg
    · next g₁ h => exact ih (sorted_add hg h)

end Registry

/-! ## Parsed templates -/

namespace Template

/-- The template is what its source is parsed to. -/
def IsParsed (x : Expander) (t : Template) : Prop :=
  parse x t.source = .ok t

theorem source_of_parse {x : Expander} {source : Text} {t : Template} (h : parse x source = .ok t) :
    t.source = source := by
  obtain ⟨nodes, -, ht⟩ := Except.bind_eq_ok_iff.1 h
  rw [← Except.ok.inj ht]

theorem isParsed_of_parse {x : Expander} {source : Text} {t : Template} (h : parse x source = .ok t) :
    t.IsParsed x := by
  rw [IsParsed, source_of_parse h]
  exact h

theorem IsParsed.references_eq {x : Expander} {t : Template} (h : t.IsParsed x) :
    t.references = dependencyKeys x t.nodes := by
  obtain ⟨nodes, -, ht⟩ := Except.bind_eq_ok_iff.1 h
  rw [← Except.ok.inj ht]

/-- The dependencies of a tree are the collected names, under their keys. -/
theorem mem_dependencyKeys_iff {x : Expander} {nodes : List Node} {k : Text} :
    k ∈ dependencyKeys x nodes ↔ ∃ name ∈ Node.collected nodes, key x name = k := by
  rw [dependencyKeys, List.mem_eraseDups, List.mem_append, List.mem_map]
  constructor
  · rintro (hk | ⟨name, hk, rfl⟩)
    · obtain ⟨hk, hr⟩ := List.mem_filter.1 (List.mem_eraseDups.1 hk)
      rw [Bool.not_eq_true'] at hr
      exact ⟨k, hk, if_neg (by rw [hr]; exact Bool.false_ne_true)⟩
    · obtain ⟨hk, hr⟩ := List.mem_filter.1 hk
      exact ⟨name, hk, if_pos hr⟩
  · rintro ⟨name, hc, rfl⟩
    unfold key
    cases hr : Reference.isRemote name with
    | true =>
      rw [if_pos rfl]
      exact .inr ⟨name, List.mem_filter.2 ⟨hc, hr⟩, rfl⟩
    | false =>
      rw [if_neg Bool.false_ne_true]
      refine .inl (List.mem_eraseDups.2 (List.mem_filter.2 ⟨hc, ?_⟩))
      rw [hr]
      rfl

/-- A name that the tree invokes and does not bind itself is a dependency, under its key. -/
theorem key_mem_dependencyKeys (x : Expander) {nodes : List Node} {p : PartialName} {name : Text}
    (hp : p ∈ Node.invokedNames nodes) (hn : p.fixed? = some name)
    (hm : Reference.isMeta name = false) (hd : name ∉ Node.declaredNames nodes) :
    key x name ∈ dependencyKeys x nodes := by
  have hfree : Node.isFree (Node.declaredNames nodes) name = true := by
    simp [Node.isFree, hm, hd]
  have hc : name ∈ Node.collected nodes :=
    List.mem_filter.2 ⟨List.mem_filterMap.2 ⟨p, hp, hn⟩, hfree⟩
  exact mem_dependencyKeys_iff.2 ⟨name, hc, rfl⟩

end Template

/-! ## Drafts -/

/-- What registering partials one by one makes of a draft. -/
structure Draft.Sound (d : Draft) : Prop where
  sorted : d.partials.Sorted
  parsed : ∀ k i, d.partials.find? k = some i → ∃ x, i.template.IsParsed x

namespace Draft.Sound

variable {d d' : Draft} {e : Expander}

theorem empty : Draft.empty.Sound :=
  ⟨Table.sorted_nil, fun _ _ h => nomatch h⟩

theorem of_partials (h : d.Sound) (he : d'.partials = d.partials) : d'.Sound :=
  ⟨he ▸ h.sorted, he ▸ h.parsed⟩

theorem withHelpers (h : d.Sound) (helpers : Table Helper) : (d.withHelpers helpers).Sound :=
  h.of_partials rfl

theorem register (h : d.Sound) {name : Text} {p : Partial}
    (hp : ∀ t, p.template e = .ok t → ∃ x, t.IsParsed x) (hr : d.register e name p = .ok d') :
    d'.Sound := by
  unfold Draft.register at hr
  simp only at hr
  split at hr
  · exact nomatch hr
  · obtain ⟨t, ht, rfl⟩ := Except.map_eq_ok_iff.1 hr
    refine ⟨Table.sorted_insert h.sorted _ _, fun k i hk => ?_⟩
    rw [Table.find?_insert] at hk
    split at hk
    · rw [← Option.some.inj hk]
      exact hp t ht
    · exact h.parsed k i hk

theorem registerAll {given : List (Text × Partial)} (h : d.Sound)
    (hp : ∀ p ∈ given, ∀ t, p.2.template e = .ok t → ∃ x, t.IsParsed x)
    (hr : d.registerAll e given = .ok d') : d'.Sound := by
  induction given generalizing d with
  | nil => exact Except.ok.inj hr ▸ h
  | cons p given ih =>
    unfold Draft.registerAll at hr
    split at hr
    · exact nomatch hr
    · next d₁ h₁ =>
      have hs := h.register (hp p List.mem_cons_self) h₁
      exact ih hs (fun q hq => hp q (List.mem_cons_of_mem _ hq)) hr

end Draft.Sound

theorem Partial.isParsed_of_markup {e : Expander} {source : Text} {t : Template}
    (h : (Partial.markup source).template e = .ok t) : t.IsParsed e :=
  Template.isParsed_of_parse (Except.mapError_eq_ok_iff.1 h)

/-! ## Scopes -/

namespace Scope

variable {objection : Objection} {s s' : Scope}

/-- The registry has for each partial of the scope what building the scope has registered. -/
def KeepsPartials (objection : Objection) (s : Scope) : Prop :=
  ∃ born, ofDraft objection s.draft = .ok born ∧
    ∀ k i, s.partials.find? k = some i →
      born.registry.find? (Alias.ofReference k) = some ⟨i.template.runtimeSource, false⟩ ∧
      s.registry.find? (Alias.ofReference k) = born.registry.find? (Alias.ofReference k)

theorem KeepsPartials.find? (h : s.KeepsPartials objection) {k : Text} {i : Instance}
    (hk : s.partials.find? k = some i) :
    s.registry.find? (Alias.ofReference k) = some ⟨i.template.runtimeSource, false⟩ := by
  obtain ⟨born, -, hb⟩ := h
  rw [(hb k i hk).2, (hb k i hk).1]

theorem draft_ofDraft {d : Draft} (h : ofDraft objection d = .ok s) : s.draft = d := by
  unfold ofDraft at h
  split at h
  · exact nomatch h
  · rw [← Except.ok.inj h]
    rfl

theorem sorted_ofDraft {d : Draft} (h : ofDraft objection d = .ok s) : s.registry.Sorted := by
  have hg := Registry.sorted_addAll objection Table.sorted_nil
    (d.partials.map fun p => (p.1, p.2.template))
  unfold ofDraft at h
  split at h
  · exact nomatch h
  · next g hadd =>
    rw [hadd] at hg
    exact Except.ok.inj h ▸ hg

theorem compiled_ofDraft {d : Draft} (h : ofDraft objection d = .ok s) : s.compiled = [] := by
  unfold ofDraft at h
  split at h
  · exact nomatch h
  · exact Except.ok.inj h ▸ rfl

theorem keepsPartials_ofDraft {d : Draft} (h : ofDraft objection d = .ok s) (hd : d.Sound)
    (ha : Alias.Apart d.partials.keys []) : s.KeepsPartials objection := by
  have hs := draft_ofDraft h
  refine ⟨s, hs.symm ▸ h, fun k i hk => ⟨?_, rfl⟩⟩
  have hk : d.partials.find? k = some i := hs ▸ hk
  have hkeys : Table.keys (d.partials.map fun p => (p.1, p.2.template)) = d.partials.keys := by
    simp [Table.keys]
  unfold ofDraft at h
  split at h
  · cases h
  · next g hg =>
    rw [← Except.ok.inj h]
    refine Registry.find?_addAll hg (hkeys ▸ Table.nodup_keys hd.sorted) (hkeys ▸ ha) ?_
    rw [Table.find?_map, hk]
    rfl

/-! ### Compiling -/

section

variable {root : Template} {deps : Table Instance}

theorem keys_foreign (s : Scope) (deps : Table Instance) :
    (s.foreign deps).keys = deps.keys.filter fun k => !s.partials.contains k := by
  simp [foreign, Table.keys, List.filter_map, Function.comp_def]

theorem draft_install (objection : Objection) (s : Scope) (root : Template) (deps : Table Instance) :
    (s.install objection root deps).2.draft = s.draft := by
  unfold install
  split
  · rfl
  · simp only
    split <;> rfl

/-- A compilation, whether it fails or not, changes the names of the root and of dependencies that are
not partials of the scope. -/
theorem find?_install_of_ne {m : Text}
    (hk : ∀ k ∈ deps.keys, s.partials.contains k = false → Alias.ofReference k ≠ m)
    (hr : Alias.ofRoot root.source ≠ m) :
    (s.install objection root deps).2.registry.find? m = s.registry.find? m := by
  have hf : ∀ k ∈ (s.foreign deps).keys, Alias.ofReference k ≠ m := by
    intro k hm
    rw [keys_foreign, List.mem_filter, Bool.not_eq_true'] at hm
    exact hk k hm.1 hm.2
  have hg := Registry.find?_addAll_of_ne objection s.registry hf
  unfold install
  split
  · next g err h =>
    rw [h] at hg
    exact hg
  · next g h =>
    rw [h] at hg
    simp only
    split
    · exact hg
    · next g' h' =>
      rw [Registry.find?_add h', if_neg hr.symm]
      exact hg

/-- After a compilation the dependencies that are not partials of the scope are registered. -/
theorem find?_install {c : Compiled} (h : s.install objection root deps = (.ok c, s'))
    (hn : deps.keys.Nodup) (ha : Alias.Apart deps.keys [root.source]) {k : Text} {i : Instance}
    (hk : deps.find? k = some i) (hs : s.partials.contains k = false) :
    s'.registry.find? (Alias.ofReference k) = some ⟨i.template.runtimeSource, false⟩ := by
  have hsub : (s.foreign deps).keys ⊆ deps.keys := by
    rw [keys_foreign]
    exact (List.filter_sublist).subset
  have hfind : (s.foreign deps).find? k = some i.template := by
    unfold foreign
    rw [Table.find?_map, Table.find?_filter (fun k => !s.partials.contains k), hs]
    simp [hk]
  have hne := ha.rootless k (Table.mem_keys_of_find? hk) root.source List.mem_cons_self
  unfold install at h
  split at h
  · exact nomatch (Prod.mk.inj h).1
  · next g hg =>
    have hreg := Registry.find?_addAll hg (keys_foreign s deps ▸ hn.filter _)
      (ha.mono hsub (List.nil_subset _)) hfind
    simp only at h
    split at h
    · exact nomatch (Prod.mk.inj h).1
    · next g' hg' =>
      rw [← (Prod.mk.inj h).2, Registry.find?_add hg', if_neg hne, hreg]

/-- What a compilation registers, if the runtime objects to nothing. -/
inductive Installs (s : Scope) (root : Template) (deps : Table Instance) : Text → Callable → Prop
  | dependency {k : Text} {i : Instance} : (k, i) ∈ deps → s.partials.contains k = false →
      Installs s root deps (Alias.ofReference k) ⟨i.template.runtimeSource, false⟩
  | root : Installs s root deps (Alias.ofRoot root.source) ⟨root.runtimeSource, true⟩

/-- What a compilation answers, with the scope that it leaves: the registry has all dependencies or a part
of them, and the root only if all went well. -/
inductive Installed (objection : Objection) (s : Scope) (root : Template) (deps : Table Instance) :
    Except TemplateError Compiled × Scope → Prop
  | failed (e : TemplateError) : Installed objection s root deps
      (.error e, { s with registry := (s.registry.addAll objection (s.foreign deps)).1 })
  | done (g : Registry) :
      (s.registry.addAll objection (s.foreign deps)).1.add objection (Alias.ofRoot root.source)
        ⟨root.runtimeSource, true⟩ (Alias.ofRoot root.source) = .ok g →
      Installed objection s root deps
        (.ok ⟨Alias.ofRoot root.source, s.made⟩,
          { s with
            registry := g
            compiled := s.compiled.insert root.source ⟨Alias.ofRoot root.source, s.made⟩
            made := s.made + 1 })

theorem installed_install (objection : Objection) (s : Scope) (root : Template) (deps : Table Instance) :
    Installed objection s root deps (s.install objection root deps) := by
  have hf := @Installed.failed objection s root deps
  have hd := @Installed.done objection s root deps
  unfold install
  split
  · next g e hadd =>
    rw [hadd] at hf
    exact hf e
  · next g hadd =>
    rw [hadd] at hf hd
    simp only
    split
    · next e _ => exact hf e
    · next g' hroot => exact hd g' hroot

/-- A compilation, whether it fails or not, leaves an entry that is the same as what it registers. -/
theorem find?_install_of_same (objection : Objection) {m : Text}
    (h : ∀ c, s.Installs root deps m c → s.registry.find? m = some c) :
    (s.install objection root deps).2.registry.find? m = s.registry.find? m := by
  have hg : (s.registry.addAll objection (s.foreign deps)).1.find? m = s.registry.find? m := by
    refine Registry.find?_addAll_of_same objection s.registry ?_
    rintro k v hm rfl
    obtain ⟨⟨k', i⟩, hi, he⟩ := List.mem_map.1 hm
    obtain ⟨rfl, rfl⟩ := Prod.mk.inj he
    obtain ⟨hi, hk⟩ := List.mem_filter.1 hi
    exact h _ (.dependency hi (Bool.not_eq_true' _ ▸ hk))
  have hi := installed_install objection s root deps
  generalize s.install objection root deps = p at hi ⊢
  cases hi with
  | failed e => exact hg
  | done g hroot =>
    rw [Registry.find?_add hroot]
    split
    · next hm =>
      subst hm
      exact (h _ .root).symm
    · exact hg

/-- After a compilation the root is registered, under the name of the compiled template. -/
theorem find?_install_root {c : Compiled} (h : s.install objection root deps = (.ok c, s')) :
    c.name = Alias.ofRoot root.source ∧
      s'.registry.find? c.name = some ⟨root.runtimeSource, true⟩ := by
  have hi := installed_install objection s root deps
  rw [h] at hi
  cases hi with
  | done g hroot => exact ⟨rfl, by rw [Registry.find?_add hroot, if_pos rfl]⟩

/-- What is on record after a compilation was on record before, or is its answer. -/
theorem find?_compiled_install {source : Text} {c : Compiled}
    (h : (s.install objection root deps).2.compiled.find? source = some c) :
    s.compiled.find? source = some c ∨ (s.install objection root deps).1 = .ok c := by
  have hi := installed_install objection s root deps
  generalize s.install objection root deps = p at hi h ⊢
  cases hi with
  | failed e => exact .inl h
  | done g hroot =>
    rw [Table.find?_insert] at h
    split at h
    · exact .inr (congrArg _ (Option.some.inj h))
    · exact .inl h

theorem sorted_install (objection : Objection) (hs : s.registry.Sorted) (root : Template)
    (deps : Table Instance) : (s.install objection root deps).2.registry.Sorted := by
  have hg := Registry.sorted_addAll objection hs (s.foreign deps)
  have hi := installed_install objection s root deps
  generalize s.install objection root deps = p at hi ⊢
  cases hi with
  | failed e => exact hg
  | done g hroot => exact Registry.sorted_add hg hroot

theorem KeepsPartials.install (h : s.KeepsPartials objection)
    (ha : Alias.Apart (s.partials.keys ++ deps.keys) [root.source]) :
    (s.install objection root deps).2.KeepsPartials objection := by
  obtain ⟨born, hb, hkeep⟩ := h
  have hd := draft_install objection s root deps
  refine ⟨born, hd ▸ hb, fun k i hk => ?_⟩
  have hk : s.partials.find? k = some i := by
    rw [← hk]
    exact congrArg (Table.find? k) (congrArg Draft.partials hd).symm
  refine ⟨(hkeep k i hk).1, ?_⟩
  have hmem : k ∈ s.partials.keys ++ deps.keys :=
    List.mem_append_left _ (Table.mem_keys_of_find? hk)
  rw [← (hkeep k i hk).2]
  refine find?_install_of_ne (fun k' hk' hs' hc => ?_) ?_
  · have := ha.injective k' (List.mem_append_right _ hk') k hmem hc
    rw [Table.contains, this, hk] at hs'
    exact nomatch hs'
  · exact (ha.rootless k hmem _ List.mem_cons_self).symm

end

end Scope

end Stencil
