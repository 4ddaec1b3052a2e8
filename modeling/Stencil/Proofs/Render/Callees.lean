import Stencil.Proofs.Except
import Stencil.Proofs.Runtime
import Stencil.Render
/-!
What the text of a page depends on.

A page inserts other pages by name.  A run over two tables of pages which agree on a set of names, and whose
pages under these names insert nothing else, gives the same text (`run_congr`).  So the runtime of the program
is local (`local_runtime`).
-/

namespace Stencil.Render

/-! ## Names of inserted pages -/

/-- The terms spell fixed names, all of them in `N`. -/
def Spells (N : Text → Prop) (ts : List Term) : Prop :=
  ∀ t ∈ ts, ∃ n, t.fixedName? = some n ∧ N n

theorem Spells.mono {N : Text → Prop} {ts ts' : List Term} (h : Spells N ts') (hs : ts ⊆ ts') :
    Spells N ts :=
  fun t ht => h t (hs ht)

/-! ## Terms -/

namespace Setting

variable (e : Setting) (pages' : Table Page)

/-- The setting with another table of pages. -/
def withPages : Setting :=
  { e with pages := pages' }

@[simp] theorem helpers_withPages : (e.withPages pages').helpers = e.helpers := rfl

@[simp] theorem within_withPages (p : Progress) (b : Block) :
    (e.withPages pages').within p b = (e.within p b).withPages pages' := rfl

@[simp] theorem put_withPages (p : Progress) (s : Text) :
    (e.withPages pages').put p s = e.put p s := rfl

@[simp] theorem putAnswer_withPages (p : Progress) (escapes : Bool) (a : Answer) :
    (e.withPages pages').putAnswer p escapes a = e.putAnswer p escapes a := rfl

@[simp] theorem call_withPages (other name : Text) (params : List Json) (options : Table Json)
    (body inverse : Option Body) :
    (e.withPages pages').call other name params options body inverse =
      e.call other name params options body inverse := rfl

mutual

/-- Terms do not depend on the pages. -/
@[simp] theorem evaluate_withPages : ∀ t, (e.withPages pages').evaluate t = e.evaluate t
  | .literal _ => rfl
  | .path _ _ => rfl
  | .call name params options => by
    simp only [evaluate]
    rw [evaluateAll_withPages params, evaluateFields_withPages options]
    rfl

@[simp] theorem evaluateAll_withPages : ∀ ts, (e.withPages pages').evaluateAll ts = e.evaluateAll ts
  | [] => rfl
  | t :: rest => by
    simp only [evaluateAll]
    rw [evaluate_withPages t, evaluateAll_withPages rest]

@[simp] theorem evaluateFields_withPages :
    ∀ fields, (e.withPages pages').evaluateFields fields = e.evaluateFields fields
  | [] => rfl
  | (k, t) :: rest => by
    simp only [evaluateFields]
    rw [evaluate_withPages t, evaluateFields_withPages rest]

end

@[simp] theorem argumentValues_withPages (a : Arguments) :
    (e.withPages pages').argumentValues a = e.argumentValues a := by
  unfold argumentValues
  rw [evaluateAll_withPages, evaluateFields_withPages]

@[simp] theorem spelledName_withPages (t : Term) :
    (e.withPages pages').spelledName t = e.spelledName t := by
  cases t <;> simp only [spelledName, evaluate_withPages]

@[simp] theorem runSubject_withPages (p : Progress) (t : Term) (escapes : Bool) :
    (e.withPages pages').runSubject p t escapes = e.runSubject p t escapes := by
  unfold runSubject
  rw [spelledName_withPages, evaluate_withPages]
  rfl

@[simp] theorem declare_withPages (p : Progress) (l : Line) (body : Option Page) :
    (e.withPages pages').declare p l body = e.declare p l body := by
  unfold declare
  rw [argumentValues_withPages]

@[simp] theorem declareAll_withPages (p : Progress) (page : Page) :
    (e.withPages pages').declareAll p page = e.declareAll p page := by
  fun_induction declareAll e p page <;> simp_all [declareAll, declare_withPages]

/-! Putting out text declares nothing. -/

@[simp] theorem declared_put (p : Progress) (s : Text) : (e.put p s).2.declared = p.declared := by
  unfold put
  split <;> rfl

@[simp] theorem declared_putValue (p : Progress) (escapes : Bool) (v : Option Json) :
    (e.putValue p escapes v).2.declared = p.declared :=
  declared_put e p _

@[simp] theorem declared_putAnswer (p : Progress) (escapes : Bool) (a : Answer) :
    (e.putAnswer p escapes a).2.declared = p.declared := by
  cases a with
  | written s => rfl
  | value v => exact declared_putValue e p escapes _

theorem spelledName_of_fixedName? {t : Term} {n : Text} (h : t.fixedName? = some n) :
    e.spelledName t = .ok n := by
  cases t with
  | literal v => exact congrArg _ (Option.some.inj h)
  | path spelling route => exact congrArg _ (Option.some.inj h)
  | call _ _ _ => exact nomatch h

end Setting

/-! ## Runs over two tables -/

section

variable {pages pages' : Table Page} {N : Text → Prop} {e : Setting} {p q : Progress}

/-- What a run can insert under the names in `N`: of the table, and of what has been declared. -/
structure Setting.Over (pages : Table Page) (N : Text → Prop) (e : Setting) (p : Progress) : Prop where
  pages_eq : e.pages = pages
  declared : ∀ t ∈ p.declared :: e.outer, ∀ name page, t.find? name = some page →
    Spells N (Page.callees page)

namespace Setting.Over

/-- What a run can insert depends on what has been declared and on no other progress. -/
theorem of_declared (h : e.Over pages N p) (hq : q.declared = p.declared) : e.Over pages N q :=
  ⟨h.pages_eq, hq ▸ h.declared⟩

theorem within (h : e.Over pages N p) (b : Block) (hq : q.declared = []) :
    (e.within p b).Over pages N q := by
  refine ⟨h.pages_eq, fun t ht => ?_⟩
  rcases List.mem_cons.1 ht with rfl | ht
  · intro name page hf
    rw [hq] at hf
    exact nomatch hf
  · exact h.declared t ht

/-- What a run can insert does not depend on the block that it is in. -/
theorem within_other {b b' : Block} (h : (e.within p b).Over pages N q) :
    (e.within p b').Over pages N q :=
  ⟨h.pages_eq, h.declared⟩

theorem declare (h : e.Over pages N p) {l : Line} {body : Option Page}
    (hb : ∀ page, body = some page → Spells N (Page.callees page))
    (hd : e.declare p l body = .ok q) : e.Over pages N q := by
  unfold Setting.declare at hd
  obtain ⟨⟨params, options⟩, -, hd⟩ := Except.bind_eq_ok_iff.1 hd
  simp only at hd
  split at hd
  · exact nomatch hd
  · split at hd
    · next name page _ _ =>
      obtain rfl := Except.ok.inj hd
      refine ⟨h.pages_eq, fun t ht => ?_⟩
      rcases List.mem_cons.1 ht with rfl | ht
      · intro m other hf
        simp only [Progress.declare] at hf
        rw [Table.find?_insert] at hf
        split at hf
        · exact Option.some.inj hf ▸ hb page rfl
        · exact h.declared _ List.mem_cons_self m other hf
      · exact h.declared t (List.mem_cons_of_mem _ ht)
    · exact nomatch hd

theorem declareAll (h : e.Over pages N p) {page : Page} (hp : Spells N (Page.callees page))
    (hd : e.declareAll p page = .ok q) : e.Over pages N q := by
  induction page generalizing p with
  | nil => exact Except.ok.inj hd ▸ h
  | cons x rest ih =>
    have hrest : Spells N (Page.callees rest) := hp.mono (List.subset_append_right _ _)
    cases x with
    | directive l =>
      obtain ⟨p₁, h₁, hd⟩ := Except.bind_eq_ok_iff.1 hd
      refine ih (h.declare ?_ h₁) hrest hd
      exact fun _ hb => nomatch hb
    | declare l body =>
      obtain ⟨p₁, h₁, hd⟩ := Except.bind_eq_ok_iff.1 hd
      refine ih (h.declare (fun page hb => ?_) h₁) hrest hd
      exact Option.some.inj hb ▸ hp.mono (List.subset_append_left _ _)
    | text _ | value _ _ | call _ _ | block _ _ _ _ | insert _ _ _ _ | wrap _ _ _ _ =>
      exact ih h hrest hd

end Setting.Over

/-- Two runs come to the same, after which the second can go on over the table. -/
def Alike (pages : Table Page) (N : Text → Prop) (e : Setting) (o' o : Outcome) : Prop :=
  o' = o ∧ ∀ s q, o = .ok (s, q) → e.Over pages N q

namespace Alike

variable {o o' : Outcome}

theorem ok (h : e.Over pages N p) (s : Text) : Alike pages N e (.ok (s, p)) (.ok (s, p)) := by
  refine ⟨rfl, fun t q ho => ?_⟩
  obtain ⟨-, rfl⟩ := Prod.mk.inj (Except.ok.inj ho)
  exact h

theorem error (message : Text) : Alike pages N e (.error message) (.error message) :=
  ⟨rfl, fun _ _ h => nomatch h⟩

/-- A step that both runs share. -/
theorem bind_same {α : Type} {x : Except Text α} {f f' : α → Outcome}
    (h : ∀ a, x = .ok a → Alike pages N e (f' a) (f a)) : Alike pages N e (x >>= f') (x >>= f) := by
  cases x with
  | error m => exact error m
  | ok a => exact h a rfl

/-- What follows a run, in a setting of its own. -/
theorem bind {e₁ : Setting} {f f' : Text × Progress → Outcome} (h : Alike pages N e₁ o' o)
    (hf : ∀ s q, e₁.Over pages N q → Alike pages N e (f' (s, q)) (f (s, q))) :
    Alike pages N e (o' >>= f') (o >>= f) := by
  obtain ⟨rfl, ho⟩ := h
  refine bind_same fun r hr => ?_
  exact hf r.1 r.2 (ho r.1 r.2 hr)

theorem answer (hp : e.Over pages N p) (x : Except Text Answer) (escapes : Bool) :
    Alike pages N e (do return e.putAnswer p escapes (← x)) (do return e.putAnswer p escapes (← x)) :=
  bind_same fun a _ => ok (hp.of_declared (Setting.declared_putAnswer e p escapes a)) _

theorem subject (hp : e.Over pages N p) (t : Term) (escapes : Bool) :
    Alike pages N e (e.runSubject p t escapes) (e.runSubject p t escapes) := by
  unfold Setting.runSubject
  refine bind_same fun name _ => ?_
  split
  · exact answer hp _ _
  · refine bind_same fun v _ => ?_
    split
    · exact answer hp _ _
    · exact ok (hp.of_declared (Setting.declared_putValue e p escapes v)) _

theorem runPart {part part' : Progress → Outcome} {indents : Bool}
    (h : ∀ q, q.declared = p.declared → Alike pages N e (part' q) (part q)) :
    Alike pages N e (runPart p indents part') (runPart p indents part) := by
  unfold Render.runPart
  refine bind (h { p with produced := false, indentsNext := indents } rfl) fun s q hq => ?_
  simp only
  split <;> exact ok (hq.of_declared (by rfl)) s

theorem runBlock {part part' : Progress → Outcome} (hp : e.Over pages N p) (b : Block)
    (h : ∀ q, (e.within p b).Over pages N q → Alike pages N (e.within p b) (part' q) (part q)) :
    Alike pages N e (runBlock p part') (runBlock p part) := by
  unfold Render.runBlock
  refine bind (h _ (hp.within b rfl)) fun s q hq => ?_
  exact ok (hp.of_declared (by rfl)) s

/-- Bodies that are run alike are handed to helpers alike. -/
theorem bodyOf_eq {part part' : Setting → Progress → Outcome} (hp : e.Over pages N p)
    (h : ∀ b q, (e.within p b).Over pages N q →
      Alike pages N (e.within p b) (part' ((e.within p b).withPages pages') q)
        (part (e.within p b) q)) :
    bodyOf (e.withPages pages') p part' = bodyOf e p part := by
  funext v
  exact congrArg (Except.map Prod.fst) (runBlock hp _ (h _)).1

theorem sequence {α : Type} {f f' : α → Progress → Outcome}
    (h : ∀ x q, e.Over pages N q → Alike pages N e (f' x q) (f x q)) (hp : e.Over pages N p)
    (xs : List α) : Alike pages N e (sequence f' xs p) (sequence f xs p) := by
  induction xs generalizing p with
  | nil => exact ok hp []
  | cons x rest ih =>
    refine bind (h x p hp) fun s q hq => ?_
    exact bind (ih hq) fun t r hr => ok hr _

end Alike

/-- Two ways to insert the pages that spell names in `N`. -/
def InsertsAlike (pages pages' : Table Page) (N : Text → Prop) (ins' ins : Insertion) : Prop :=
  ∀ e p page, Setting.Over pages N e p → Spells N (Page.callees page) →
    Alike pages N e (ins' (e.withPages pages') p page) (ins e p page)

/-- The tables have the same pages under the names in `N`, and these spell names in `N`. -/
structure Agree (pages pages' : Table Page) (N : Text → Prop) : Prop where
  same : ∀ n, N n → pages'.find? n = pages.find? n
  closed : ∀ n page, N n → pages.find? n = some page → Spells N (Page.callees page)

variable {ins ins' : Insertion}

theorem partial?_withPages (ha : Agree pages pages' N) (hp : e.Over pages N p) {name : Text}
    (hn : N name) : (e.withPages pages').partial? p name = e.partial? p name := by
  unfold Setting.partial?
  rw [hp.pages_eq, ← ha.same name hn]
  rfl

/-- A page that is found under a name spells names in `N`, whether it has been declared or is one of the
table. -/
theorem spells_of_partial? (ha : Agree pages pages' N) (hp : e.Over pages N p) {name : Text}
    (hn : N name) {page : Page} {current : Option Text}
    (h : e.partial? p name = some (.page page current)) : Spells N (Page.callees page) := by
  unfold Setting.partial? at h
  rcases Option.or_eq_some_iff.1 h with h | ⟨-, h⟩
  · split at h
    · obtain ⟨_, -, h⟩ := Option.map_eq_some_iff.1 h
      exact nomatch h
    · obtain ⟨page', hf, h⟩ := Option.map_eq_some_iff.1 h
      obtain ⟨t, ht, hf⟩ := List.exists_of_findSome?_eq_some hf
      obtain ⟨rfl, -⟩ := Setting.Partial.page.inj h
      exact hp.declared t ht name page' hf
  · obtain ⟨page', hf, h⟩ := Option.map_eq_some_iff.1 h
    obtain ⟨rfl, -⟩ := Setting.Partial.page.inj h
    exact ha.closed name page' hn (hp.pages_eq ▸ hf)

theorem Alike.place (hi : InsertsAlike pages pages' N ins' ins) (ha : Agree pages pages' N)
    (hp : e.Over pages N p) {name : Text} (hn : N name) (indent : Text) (body : Option Text) :
    Alike pages N e ((e.withPages pages').place ins' p name indent body)
      (e.place ins p name indent body) := by
  unfold Setting.place
  rw [partial?_withPages ha hp hn]
  cases hf : e.partial? p name with
  | none =>
    cases body with
    | none => exact error _
    | some s => exact ok hp s
  | some found =>
    cases found with
    | text s => exact ok hp s
    | page page current =>
      obtain ⟨heq, hok⟩ := hi { e with body, indent := e.indent ++ indent } { p with current } page
        ⟨hp.pages_eq, hp.declared⟩ (spells_of_partial? ha hp hn hf)
      exact ⟨heq, fun s q ho => ⟨hp.pages_eq, (hok s q ho).declared⟩⟩

theorem Alike.runInserted {name : Text} {params : List Json} {options : Table Json}
    {part part' : Setting → Progress → Outcome} (hp : e.Over pages N p)
    (h : ∀ b q, (e.within p b).Over pages N q →
      Alike pages N (e.within p b) (part' ((e.within p b).withPages pages') q)
        (part (e.within p b) q)) :
    Alike pages N e (runInserted (e.withPages pages') p name params options part')
      (runInserted e p name params options part) := by
  unfold Render.runInserted
  split
  · exact error _
  · refine bind (runBlock hp _ (h _)) fun s q hq => ?_
    exact ok (hq.of_declared (by rfl)) _

/-! ### Pages -/

mutual

/-- The cases of an element are those of the places where a page is run or inserted: the names of the
pages are the same, for they do not depend on the pages, and the bodies are run alike. -/
theorem Element.run_alike (hi : InsertsAlike pages pages' N ins' ins) (ha : Agree pages pages' N) :
    ∀ (x : Element) (e : Setting) (p : Progress), e.Over pages N p → Spells N x.callees →
      Alike pages N e (x.run ins' (e.withPages pages') p) (x.run ins e p)
  | .text s, e, p, hp, _ => by
    simp only [Element.run, Setting.put_withPages]
    exact .ok (hp.of_declared (Setting.declared_put e p s)) _
  | .value subject escapes, e, p, hp, _ => by
    simp only [Element.run, Setting.runSubject_withPages]
    exact .subject hp _ _
  | .call l escapes, e, p, hp, _ => by
    simp only [Element.run, Setting.argumentValues_withPages]
    exact .bind_same fun a _ => .answer hp _ _
  | .block l ownLine body inverse, e, p, hp, hs => by
    have hbody := fun e q h => Page.run_alike hi ha body e q h (hs.mono (List.subset_append_left _ _))
    have hinverse := fun e q h =>
      Page.run_alike hi ha inverse e q h (hs.mono (List.subset_append_right _ _))
    simp only [Element.run, Setting.argumentValues_withPages, Setting.helpers_withPages,
      Setting.within_withPages, Setting.putAnswer_withPages, Setting.call_withPages]
    refine .bind_same fun a _ => .runPart fun q hq => ?_
    have hq : e.Over pages N q := hp.of_declared hq
    have hother : (q.otherwise inverse).declared = q.declared := by
      unfold Progress.otherwise
      split <;> rfl
    -- helpers are handed the same bodies
    have hinside : bodyOf (e.withPages pages') q (fun e q => Page.run ins' e q body) =
        bodyOf e q fun e q => Page.run ins e q body :=
      Alike.bodyOf_eq hq fun b r hr => hbody _ r hr
    have hotherwise : bodyOf (e.withPages pages') q (fun e q => Page.run ins' e q inverse) =
        bodyOf e q fun e q => Page.run ins e q inverse :=
      Alike.bodyOf_eq hq fun b r hr => hinverse _ r hr
    rw [hinside, hotherwise]
    split
    · refine .bind_same fun _ _ => ?_
      split
      · split
        · exact hbody e _ (hq.of_declared rfl)
        · exact hinverse e _ (hq.of_declared hother)
      · split
        · exact hinverse e _ (hq.of_declared hother)
        · refine .runBlock hq ⟨.null, [], []⟩ fun r hr => .sequence (fun b t ht => ?_) hr _
          obtain ⟨heq, ho⟩ := hbody (e.within q b) t ht.within_other
          exact ⟨heq, fun s u hu => (ho s u hu).within_other⟩
      · split
        · exact .runBlock hq _ fun r hr => hbody _ r hr
        · exact hinverse e _ (hq.of_declared hother)
      · exact hbody e _ (hq.of_declared rfl)
      · exact .answer hq _ _
    · exact .answer hq _ _
  | .insert name arguments ownLine indent, e, p, hp, hs => by
    obtain ⟨n, hn, hN⟩ := hs name List.mem_cons_self
    simp only [Element.run, Setting.argumentValues_withPages, Setting.spelledName_of_fixedName? _ hn]
    refine .bind_same fun m hm => ?_
    obtain rfl := Except.ok.inj hm
    refine .bind_same fun a _ => ?_
    refine .runPart fun q hq => ?_
    refine .runInserted (hp.of_declared hq) fun b r hr => ?_
    exact .place hi ha hr hN _ _
  | .wrap name arguments ownLine body, e, p, hp, hs => by
    obtain ⟨n, hn, hN⟩ := hs name List.mem_cons_self
    have hbody : Spells N (Page.callees body) := hs.mono (List.subset_cons_self _ _)
    simp only [Element.run, Setting.argumentValues_withPages, Setting.spelledName_of_fixedName? _ hn]
    refine .bind_same fun m hm => ?_
    obtain rfl := Except.ok.inj hm
    refine .bind_same fun a _ => ?_
    refine .runPart fun q hq => ?_
    refine .runInserted (hp.of_declared hq) fun b r hr => ?_
    rw [Setting.declareAll_withPages]
    refine .bind_same fun r' hr' => ?_
    refine .bind (Page.run_alike hi ha body _ r' (hr.declareAll hbody hr') hbody) fun s t ht => ?_
    exact .place hi ha ht hN _ _
  | .directive l, e, p, hp, _ => by
    simp only [Element.run, Setting.declare_withPages]
    refine ⟨rfl, fun s q ho => ?_⟩
    obtain ⟨r, hr, hq⟩ := Except.map_eq_ok_iff.1 ho
    refine (Prod.mk.inj hq).2 ▸ hp.declare ?_ hr
    exact fun _ hb => nomatch hb
  | .declare l body, e, p, hp, hs => by
    simp only [Element.run, Setting.declare_withPages]
    refine ⟨rfl, fun s q ho => ?_⟩
    obtain ⟨r, hr, hq⟩ := Except.map_eq_ok_iff.1 ho
    refine (Prod.mk.inj hq).2 ▸ hp.declare (fun page hb => ?_) hr
    exact Option.some.inj hb ▸ hs

theorem Page.run_alike (hi : InsertsAlike pages pages' N ins' ins) (ha : Agree pages pages' N) :
    ∀ (page : List Element) (e : Setting) (p : Progress), e.Over pages N p →
      Spells N (Page.callees page) →
      Alike pages N e (Page.run ins' (e.withPages pages') p page) (Page.run ins e p page)
  | [], _, _, hp, _ => by
    simp only [Page.run]
    exact .ok hp []
  | x :: rest, e, p, hp, hs => by
    simp only [Page.run]
    refine .bind (x.run_alike hi ha e p hp (hs.mono (List.subset_append_left _ _))) fun s q hq => ?_
    have hrest := Page.run_alike hi ha rest e q hq (hs.mono (List.subset_append_right _ _))
    exact .bind hrest fun t r hr => .ok hr _

end

theorem insertsAlike_runTo (ha : Agree pages pages' N) (message : Text) (depth : Nat) :
    InsertsAlike pages pages' N (runTo message depth) (runTo message depth) := by
  induction depth with
  | zero => exact fun _ _ _ _ _ => .error _
  | succ depth ih => exact fun e p page hp hs => Page.run_alike ih ha page e p hp hs

/-- Tables that agree on names which lead to no others give the same text. -/
theorem run_congr (limit : Limit) (helpers : Table (Helper.Call → Except Text Text))
    (ha : Agree pages pages' N) {name : Text} (hname : N name) (data : Json) :
    run limit helpers pages' name data = run limit helpers pages name data := by
  unfold run
  rw [ha.same name hname]
  cases hp : pages.find? name with
  | none => rfl
  | some page =>
    have hover : Setting.Over pages N
        { helpers, pages, data, blocks := [⟨data, [], []⟩], outer := [], body := none, indent := [] }
        (.start name) := by
      refine ⟨rfl, fun t ht m page hm => ?_⟩
      rw [List.mem_singleton.1 ht] at hm
      exact nomatch hm
    exact congrArg (Except.map Prod.fst)
      (insertsAlike_runTo ha limit.message limit.depth _ _ page hover (ha.closed name page hname hp)).1

end

/-! ## Pages of a registry -/

theorem sorted_pages {g : Registry} (h : g.Sorted) : (pages g).Sorted := by
  refine Table.sorted_filterMap h fun p q hq => ?_
  obtain ⟨page, -, rfl⟩ := Option.map_eq_some_iff.1 hq
  rfl

/-- The page of a name is read from the source that is registered under it. -/
theorem find?_pages {g : Registry} (h : g.Sorted) (m : Text) :
    (pages g).find? m = (g.find? m).bind fun c => Page.read? c.isRoot c.source := by
  refine Option.ext fun page => ?_
  rw [← Table.mem_iff_find? (sorted_pages h), Option.bind_eq_some_iff, pages, List.mem_filterMap]
  constructor
  · rintro ⟨⟨k, c⟩, hm, hr⟩
    obtain ⟨page', hread, he⟩ := Option.map_eq_some_iff.1 hr
    obtain ⟨rfl, rfl⟩ := Prod.mk.inj he
    exact ⟨c, (Table.mem_iff_find? h).1 hm, hread⟩
  · rintro ⟨c, hm, hr⟩
    exact ⟨(m, c), (Table.mem_iff_find? h).2 hm, Option.map_eq_some_iff.2 ⟨page, hr, rfl⟩⟩

/-! ## The runtime -/

theorem exists_of_mapM {α β : Type} {f : α → Option β} {as : List α} {bs : List β}
    (h : as.mapM f = some bs) {a : α} (ha : a ∈ as) : ∃ b ∈ bs, f a = some b := by
  induction as generalizing bs with
  | nil => exact absurd ha List.not_mem_nil
  | cons x as ih =>
    rw [List.mapM_cons] at h
    obtain ⟨b, hb, h⟩ := Option.bind_eq_some_iff.1 h
    obtain ⟨rest, hrest, h⟩ := Option.bind_eq_some_iff.1 h
    obtain rfl := Option.some.inj h
    rcases List.mem_cons.1 ha with rfl | ha
    · exact ⟨b, List.mem_cons_self, hb⟩
    · obtain ⟨c, hc, hf⟩ := ih hrest ha
      exact ⟨c, List.mem_cons_of_mem b hc, hf⟩

variable {limit : Limit} {g : Registry} {name m : Text}

/-- The page of a name that a rendering comes across leads to no others. -/
theorem spells_of_reaches (hg : g.Sorted) (hf : (runtime limit).IsFixed g name)
    (hm : (runtime limit).Reaches g name m) {page : Page} (hp : (pages g).find? m = some page) :
    Spells ((runtime limit).Reaches g name) (Page.callees page) := by
  intro t ht
  rw [find?_pages hg] at hp
  obtain ⟨c, hc, hread⟩ := Option.bind_eq_some_iff.1 hp
  obtain ⟨ns, hns⟩ := hf m c hm hc
  have hnames : (Page.callees page).mapM Term.fixedName? = some ns := by
    rw [← hns]
    simp only [runtime, hread, Option.getD_some]
  obtain ⟨n, hn, hname⟩ := exists_of_mapM hnames ht
  exact ⟨n, hname, .step hm hc hns hn⟩

/-- The text of a page depends on the pages of the names that its run can come across, and on the helpers
as they are without a registry. -/
theorem local_runtime (limit : Limit) : (runtime limit).Local := by
  intro helpers g g' name data hg hg' hblind hf he
  have ha : Agree (pages g) (pages g') ((runtime limit).Reaches g name) :=
    ⟨fun m hm => by rw [find?_pages hg', find?_pages hg, he m hm],
      fun m page hm hp => spells_of_reaches hg hf hm hp⟩
  have hh : (helpers.map fun p => (p.1, p.2 g')) = helpers.map fun p => (p.1, p.2 g) :=
    List.map_congr_left fun p hp => by rw [hblind p hp g' g]
  have hr := run_congr limit (helpers.map fun p => (p.1, p.2 g)) ha .refl data
  rw [← hh] at hr
  simpa only [runtime, hh] using hr

end Stencil.Render
