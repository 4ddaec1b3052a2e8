import Stencil.Proofs.Table
import Stencil.Scope
/-!
What is assumed of a runtime.

Sources insert each other by name.  A runtime is `Local` if what it renders depends on the sources under the
names that it can come across, as long as none of these names is computed and no helper looks at what is
registered.  Then a compiled template is rendered alike in scopes that have the same entries under these
names (`Scope.render_congr`).  What else is assumed is what a runtime does with sources that only call a
helper (`Calls`) or insert another source (`Inserts`).
-/

namespace Stencil

namespace Runtime

variable {rt : Runtime} {g : Registry} {names : List Text} {name m : Text}

/-! ## Names that a rendering comes across -/

/-- The names that a rendering can come across which begins with a name. -/
inductive Reaches (rt : Runtime) (g : Registry) (name : Text) : Text → Prop
  | refl : Reaches rt g name name
  | step {m n : Text} {c : Callable} {ns : List Text} : Reaches rt g name m → g.find? m = some c →
      rt.callees? c = some ns → n ∈ ns → Reaches rt g name n

/-- No source that a rendering can come across computes a name. -/
def IsFixed (rt : Runtime) (g : Registry) (name : Text) : Prop :=
  ∀ m c, rt.Reaches g name m → g.find? m = some c → ∃ ns, rt.callees? c = some ns

/-- The sources of these names name what they insert, and lead to none but these. -/
def Closed (rt : Runtime) (g : Registry) (names : List Text) : Prop :=
  ∀ n ∈ names, ∀ c ∈ g.find? n, ∃ ns ∈ rt.callees? c, ns ⊆ names

instance : Decidable (rt.Closed g names) :=
  inferInstanceAs (Decidable (∀ n ∈ names, ∀ c ∈ g.find? n, ∃ ns ∈ rt.callees? c, ns ⊆ names))

namespace Closed

variable (h : rt.Closed g names) (hname : name ∈ names)

include h hname

theorem mem_of_reaches (hm : rt.Reaches g name m) : m ∈ names := by
  induction hm with
  | refl => exact hname
  | step _ hc hns hn ih =>
    obtain ⟨ns, hns', hsub⟩ := h _ ih _ hc
    obtain rfl := Option.some.inj (hns.symm.trans hns')
    exact hsub hn

theorem isFixed : rt.IsFixed g name := by
  intro m c hm hc
  obtain ⟨ns, hns, -⟩ := h m (h.mem_of_reaches hname hm) c hc
  exact ⟨ns, hns⟩

end Closed

/-! ## Assumptions -/

/-- What is rendered with helpers that do not look at the registry depends on the sources under the names
that the rendering can come across, provided that none of these is computed. -/
def Local (rt : Runtime) : Prop :=
  ∀ (helpers : Table Helper) (g g' : Registry) (name : Text) (data : Json), g.Sorted → g'.Sorted →
    (∀ p ∈ helpers, Helper.Blind p.2) → rt.IsFixed g name →
    (∀ m, rt.Reaches g name m → g'.find? m = g.find? m) →
    rt.render helpers g' name data = rt.render helpers g name data

/-- A source that is one call of a helper comes to what the helper answers. -/
def Calls (rt : Runtime) (c : Callable) (helper : Text) (params : List Json) : Prop :=
  ∀ (helpers : Table Helper) (g : Registry) (name : Text) (f : Helper) (data : Json),
    helpers.find? helper = some f → g.find? name = some c →
    rt.render helpers g name data = f g ⟨params, [], data, data, none, none⟩

/-- Calls of the helper for raw blocks are run. -/
def RunsCalls (rt : Runtime) : Prop :=
  ∀ (argument : Text) (isRoot : Bool), (∀ c ∈ argument, c.isAlphanum = true) →
    rt.Calls ⟨Lowering.callOf argument, isRoot⟩ Lowering.literalHelper [.string argument]

/-- Over these data a root with this source comes to what is registered under a name, if that is letters and
digits, and fails if nothing is.  No helper is called as the one that looks up fields. -/
def Inserts (rt : Runtime) (source name : Text) (data : Json) : Prop :=
  ∀ (helpers : Table Helper) (g : Registry) (root : Text), helpers.find? "lookup".toList = none →
    g.find? root = some ⟨source, true⟩ →
    (∀ (t : Text) (isRoot : Bool), (∀ c ∈ t, c.isAlphanum = true) → g.find? name = some ⟨t, isRoot⟩ →
      rt.render helpers g root data = .ok t) ∧
    (g.find? name = none → ∃ reason, rt.render helpers g root data = .error reason)

end Runtime

/-! ## Scopes -/

namespace Scope

variable {rt : Runtime} {s s' : Scope} {c : Compiled}

theorem blind_runtimeHelpers (h : ∀ p ∈ s.helpers, Helper.Blind p.2) :
    ∀ p ∈ s.runtimeHelpers, Helper.Blind p.2 := by
  intro p hp
  rcases Table.mem_of_mem_merge hp with hp | hp
  · rw [List.mem_singleton.1 hp]
    exact fun _ _ => rfl
  · exact h p hp

/-- A compiled template is rendered alike in two scopes with the same helpers and the same entries under
the names that rendering it can come across. -/
theorem render_congr (hrt : rt.Local) (hs : s.registry.Sorted) (hs' : s'.registry.Sorted)
    (hh : s'.helpers = s.helpers) (hb : ∀ p ∈ s.helpers, Helper.Blind p.2)
    (hf : rt.IsFixed s.registry c.name)
    (he : ∀ m, rt.Reaches s.registry c.name m → s'.registry.find? m = s.registry.find? m)
    (data : Json) : s'.render rt (some c) data = s.render rt (some c) data := by
  have hr := hrt s.runtimeHelpers s.registry s'.registry c.name data hs hs' (blind_runtimeHelpers hb) hf he
  have hsame : s'.runtimeHelpers = s.runtimeHelpers := by rw [runtimeHelpers, runtimeHelpers, hh]
  rw [render, render, hsame, hr]

end Scope

end Stencil
