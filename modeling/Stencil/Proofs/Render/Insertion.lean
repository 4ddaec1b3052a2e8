import Stencil.Proofs.Render.Literal
/-!
Sources that insert another, or call a helper, as the runtime of the program runs them.

A text of letters and digits is a page that is run as it is (`run_plainPage`).  So a page which inserts
one name comes to the text under it (`inserts_runtime`).
-/

namespace Stencil.Render

variable {s t : Text}

/-! ## Plain pages -/

theorem plainText_of_isAlphanum (ht : ∀ c ∈ t, c.isAlphanum = true) : plainText t = (t, []) := by
  induction t with
  | nil => rfl
  | cons c t ih =>
    have hc := ht c List.mem_cons_self
    have hbackslash : c ≠ '\\' := by
      rintro rfl
      exact absurd hc (by decide)
    have hbrace : c ≠ '{' := by
      rintro rfl
      exact absurd hc (by decide)
    rw [plainText]
    · simp [hbackslash, ih fun d hd => ht d (List.mem_cons_of_mem c hd)]
    all_goals simp [hbackslash, hbrace]

theorem indented_nil (s : Text) : indented [] s = s := by
  induction s with
  | nil => rfl
  | cons c s ih => simp [indented, ih]

namespace Setting

variable {e : Setting}

/-- Without an indent a text is put out as it is. -/
theorem put_eq (he : e.indent = []) (p : Progress) (s : Text) : ∃ q, e.put p s = (s, q) := by
  unfold put
  split
  · next hs => exact ⟨p, by rw [List.isEmpty_iff.1 hs]⟩
  · simp [he, indented_nil]

end Setting

/-- The page of a text without tags. -/
def plainPage : Text → Page
  | [] => []
  | c :: t => [.text (c :: t)]

/-- Letters and digits are read as they are, -/
theorem read?_plain (isRoot : Bool) (ht : ∀ c ∈ t, c.isAlphanum = true) :
    Page.read? isRoot t = some (plainPage t) := by
  cases t with
  | nil => rfl
  | cons c t =>
    have hopen : Text.startsWith open2 (c :: t) = false := by
      have hbrace : c ≠ '{' := by
        rintro rfl
        exact absurd (ht '{' List.mem_cons_self) (by decide)
      simp [Text.startsWith, Text.after?, open2, Ne.symm hbrace]
    rw [Page.read?, List.length_cons, pieces, if_neg (by simp [hopen]), plainText_of_isAlphanum ht]
    · rfl
    · exact List.cons_ne_nil c t

/-- and are put out so. -/
theorem run_plainPage (insertion : Insertion) {e : Setting} (he : e.indent = []) (p : Progress) (t : Text) :
    (Page.run insertion e p (plainPage t)).map Prod.fst = .ok t := by
  cases t with
  | nil => rfl
  | cons c t =>
    obtain ⟨q, hq⟩ := Setting.put_eq he p (c :: t)
    rw [plainPage, Page.run, Element.run, hq]
    exact congrArg Except.ok (List.append_nil (c :: t))

/-! ## Insertions -/

section Insert

variable {e : Setting} {p : Progress} {term : Term} {name : Text}

/-- The text of a part is that of the part on its own. -/
theorem map_runPart (p : Progress) (indents : Bool) (part : Progress → Outcome) :
    (runPart p indents part).map Prod.fst =
      (part { p with produced := false, indentsNext := indents }).map Prod.fst := by
  unfold runPart
  cases part { p with produced := false, indentsNext := indents } with
  | error message => rfl
  | ok o =>
    simp only [bind, Except.bind]
    split <;> rfl

theorem map_runInserted {params : List Json} {options : Table Json} (hc : p.current ≠ some name)
    (part : Setting → Progress → Outcome) :
    (runInserted e p name params options part).map Prod.fst =
      (part (e.within p (Setting.inserted (params.head?.getD e.focus) options))
        { p.inside with declared := [] }).map Prod.fst := by
  simp only [runInserted, if_neg hc, runBlock]
  generalize part _ _ = o
  cases o <;> rfl

/-- The name that is inserted stands for what is registered, for nothing is declared. -/
theorem partial?_eq (hd : p.declared = []) (ho : ∀ t ∈ e.outer, t = []) (hb : e.body = none) :
    e.partial? p name = (e.pages.find? name).map fun page => .page page (some name) := by
  have hnone : (p.declared :: e.outer).findSome? (Table.find? name) = none := by
    refine List.findSome?_eq_none_iff.2 fun t ht => ?_
    rcases List.mem_cons.1 ht with rfl | ht
    · rw [hd]
      rfl
    · rw [ho t ht]
      rfl
  unfold Setting.partial?
  rw [hnone, hb]
  split <;> rfl

/-- What is put in the place of a name is the page that is registered under it. -/
theorem map_place (insertion : Insertion) (hd : p.declared = []) (ho : ∀ t ∈ e.outer, t = [])
    (hb : e.body = none) (hi : e.indent = []) :
    ∃ e' p', e'.indent = [] ∧ (e.place insertion p name [] none).map Prod.fst =
      match e.pages.find? name with
      | some page => (insertion e' p' page).map Prod.fst
      | none => .error ("no partial ".toList ++ name) := by
  refine ⟨{ e with body := none, indent := e.indent ++ [] }, { p with current := some name },
    by rw [hi, List.append_nil], ?_⟩
  unfold Setting.place
  rw [partial?_eq hd ho hb]
  cases e.pages.find? name <;> rfl

/-- A tag that inserts a name comes to the text of what is registered under it. -/
theorem map_run_insert (insertion : Insertion) (hname : e.spelledName term = .ok name)
    (hc : p.current ≠ some name) (hd : p.declared = []) (ho : e.outer = []) (hb : e.body = none)
    (hi : e.indent = []) (ownLine : Bool) :
    ∃ e' p', e'.indent = [] ∧
      (Element.run insertion e p (.insert term ⟨[], []⟩ ownLine [])).map Prod.fst =
        match e.pages.find? name with
        | some page => (insertion e' p' page).map Prod.fst
        | none => .error ("no partial ".toList ++ name) := by
  have hrun : Element.run insertion e p (.insert term ⟨[], []⟩ ownLine []) =
      runPart p (ownLine && (p.lineEnded || false)) fun p =>
        runInserted e p name [] [] fun e p => e.place insertion p name [] none := by
    rw [Element.run, hname]
    rfl
  have hout (q : Progress) (hq : q.declared = []) (b : Block) : ∀ t ∈ (e.within q b).outer, t = [] := by
    simp [Setting.within, ho, hq]
  rw [hrun, map_runPart, map_runInserted (by exact hc)]
  exact map_place insertion rfl (hout _ hd _) hb hi

end Insert

/-! ## The runtime -/

/-- Whether an element only declares a partial. -/
def Element.isDeclaration : Element → Bool
  | .declare ⟨name, ⟨[.literal (.string _)], []⟩, _⟩ _ => name = Setting.inlineName
  | _ => false

/-- The name that a term stands for over data, if it spells it or looks it up. -/
def Term.nameOver? (data : Json) : Term → Option Text
  | .literal v => some (Value.text v)
  | .call name [.path _ (.value false 0 []), .literal key] [] =>
    if name = "lookup".toList then some (Value.text ((Value.item? data key).getD .null)) else none
  | _ => none

/-- The name that a page inserts over data, if it does nothing else but declare partials after that. -/
def Page.inserts? (data : Json) : Page → Option Text
  | .insert term ⟨[], []⟩ _ [] :: rest =>
    if rest.all Element.isDeclaration then term.nameOver? data else none
  | _ => none

/-- The name that a page calls, if it does nothing else. -/
def Page.calls? : Page → Option Text
  | [.value (.path spelling _) _] => some spelling
  | _ => none

theorem run_declarations {rest : Page} (h : rest.all Element.isDeclaration = true)
    (insertion : Insertion) (e : Setting) (p : Progress) :
    ∃ q, Page.run insertion e p rest = .ok ([], q) := by
  induction rest generalizing p with
  | nil => exact ⟨p, by rw [Page.run]⟩
  | cons x rest ih =>
    rw [List.all_cons, Bool.and_eq_true] at h
    obtain ⟨hx, hrest⟩ := h
    unfold Element.isDeclaration at hx
    split at hx
    · next name declared names body =>
      obtain rfl : name = Setting.inlineName := by simpa using hx
      obtain ⟨q, hq⟩ := ih hrest (p.declare declared body)
      refine ⟨q, ?_⟩
      have hx : Element.run insertion e p
          (.declare ⟨Setting.inlineName, ⟨[.literal (.string declared)], []⟩, names⟩ body) =
            .ok ([], p.declare declared body) := by
        simp only [Element.run, Setting.declare, Setting.argumentValues, Setting.evaluateAll,
          Setting.evaluate, Setting.evaluateFields]
        rfl
      rw [Page.run, hx]
      change (Page.run insertion e (p.declare declared body) rest >>= fun a => pure ([] ++ a.1, a.2)) = _
      rw [hq]
      rfl
    · exact absurd hx Bool.false_ne_true

/-- The text of a page is that of its first element if the others only declare partials. -/
theorem map_run_cons {insertion : Insertion} {e : Setting} {p : Progress} {rest : Page}
    (h : rest.all Element.isDeclaration = true) (x : Element) :
    (Page.run insertion e p (x :: rest)).map Prod.fst = (x.run insertion e p).map Prod.fst := by
  rw [Page.run]
  cases x.run insertion e p with
  | error message => rfl
  | ok o =>
    obtain ⟨q, hq⟩ := run_declarations h insertion e o.2
    change Except.map Prod.fst (Page.run insertion e o.2 rest >>= fun a => pure (o.1 ++ a.1, a.2)) = _
    rw [hq]
    exact congrArg Except.ok (List.append_nil o.1)

theorem find?_pages_eq_none {g : Registry} {m : Text} (h : g.find? m = none) :
    (pages g).find? m = none := by
  rw [Option.eq_none_iff_forall_ne_some]
  intro page hp
  obtain ⟨⟨k, c⟩, hm, hread⟩ := List.mem_filterMap.1 (Table.mem_of_find? hp)
  obtain ⟨_, -, he⟩ := Option.map_eq_some_iff.1 hread
  obtain rfl := (Prod.mk.inj he).1
  obtain ⟨d, hd⟩ := Table.mem_keys_iff.1 (List.mem_map_of_mem hm : k ∈ g.keys)
  exact absurd (h.symm.trans hd) nofun

/-- The setting in which a root is run. -/
def rootSetting (helpers : Table (Helper.Call → Except Text Text)) (pages : Table Page) (data : Json) :
    Setting :=
  { helpers, pages, data, blocks := [⟨data, [], []⟩], outer := [], body := none, indent := [] }

variable {limit : Limit} {source name : Text} {data : Json} {term : Term}
  {helpers : Table (Helper.Call → Except Text Text)} {pages : Table Page}

theorem spelledName_of_nameOver? (hlookup : helpers.find? "lookup".toList = none)
    (h : term.nameOver? data = some name) : (rootSetting helpers pages data).spelledName term = .ok name := by
  unfold Term.nameOver? at h
  split at h
  · rw [← Option.some.inj h]
    simp only [Setting.spelledName, Setting.evaluate]
    rfl
  · next called spelling key =>
    split at h
    · next hcalled =>
      subst hcalled
      have hfollow : (rootSetting helpers pages data).follow (.value false 0 []) = .ok (some data) := rfl
      have hbuiltin : Builtin.find? "lookup".toList =
          some (Builtin.ofValues fun v w => (Value.item? v w).getD .null) := rfl
      have hcall : (rootSetting helpers pages data).call Setting.standIn "lookup".toList [data, key] []
          none none = .ok (.value ((Value.item? data key).getD .null)) := by
        rw [Setting.call, show (rootSetting helpers pages data).helpers = helpers from rfl, hlookup, hbuiltin]
        rfl
      rw [← Option.some.inj h, Setting.spelledName]
      · simp only [Setting.evaluate, Setting.evaluateAll, Setting.evaluateFields, hfollow, bind, Except.bind,
          pure, Except.pure, Option.getD_some, hcall]
        rfl
      · intro _ _ h
        cases h
    · cases h
  · cases h

theorem eq_cons_of_inserts? {page : Page} (h : page.inserts? data = some name) :
    ∃ term ownLine rest, page = .insert term ⟨[], []⟩ ownLine [] :: rest ∧
      rest.all Element.isDeclaration = true ∧ term.nameOver? data = some name := by
  unfold Page.inserts? at h
  split at h
  · split at h
    · next hrest => exact ⟨_, _, _, rfl, hrest, h⟩
    · cases h
  · cases h

/-- The runtime inserts a name by a root that begins with a tag for it and puts out nothing else. -/
theorem inserts_runtime (hl : 2 ≤ limit.depth)
    (hread : (Page.read? true source).bind (Page.inserts? data) = some name) :
    (runtime limit).Inserts source name data := by
  intro helpers g root hlookup hroot
  obtain ⟨page, hpage, hinserts⟩ := Option.bind_eq_some_iff.1 hread
  obtain ⟨term, ownLine, rest, rfl, hrest, hname⟩ := eq_cons_of_inserts? hinserts
  obtain ⟨depth, hdepth⟩ := Nat.exists_eq_add_of_le hl
  have hlookup' : Table.find? "lookup".toList (helpers.map fun p => (p.1, p.2 g)) = none := by
    rw [find?_helpers, hlookup]
    rfl
  generalize hhelpers : (helpers.map fun p => (p.1, p.2 g)) = known at hlookup'
  have hrun (hne : root ≠ name) : ∃ e p, e.indent = [] ∧ (runtime limit).render helpers g root data =
      match (pages g).find? name with
      | some page => (Page.run (runTo limit.message depth) e p page).map Prod.fst
      | none => .error ("no partial ".toList ++ name) := by
    obtain ⟨e, p, he, htext⟩ := map_run_insert (e := rootSetting known (pages g) data) (p := .start root)
      (runTo limit.message (depth + 1)) (spelledName_of_nameOver? hlookup' hname)
      (fun h => hne (Option.some.inj h)) rfl rfl rfl rfl ownLine
    refine ⟨e, p, he, ?_⟩
    change run limit (helpers.map fun p => (p.1, p.2 g)) (pages g) root data = _
    rw [run, find?_pages_of_read? hroot hpage, hdepth, Nat.add_comm 2, hhelpers]
    exact (map_run_cons hrest _).trans htext
  constructor
  · intro t isRoot ht hfind
    have hne : root ≠ name := by
      rintro rfl
      obtain rfl : source = t := congrArg Callable.source (Option.some.inj (hroot.symm.trans hfind))
      -- a plain page inserts nothing
      have hplain := Option.some.inj ((read?_plain true ht).symm.trans hpage)
      cases source with
      | nil => cases hplain
      | cons c source => cases hplain
    obtain ⟨e, p, he, hrun⟩ := hrun hne
    rw [hrun, find?_pages_of_read? hfind (read?_plain isRoot ht)]
    exact run_plainPage _ he p t
  · intro hfind
    have hne : root ≠ name := by
      rintro rfl
      cases hroot.symm.trans hfind
    obtain ⟨e, p, -, hrun⟩ := hrun hne
    rw [hrun, find?_pages_eq_none hfind]
    exact ⟨_, rfl⟩

theorem eq_singleton_of_calls? {page : Page} (h : page.calls? = some name) :
    ∃ route escaped, page = [.value (.path name route) escaped] := by
  unfold Page.calls? at h
  split at h
  · next spelling route escaped =>
    obtain rfl := Option.some.inj h
    exact ⟨route, escaped, rfl⟩
  · cases h

/-- The runtime runs a call without arguments, if it may run a page at all. -/
theorem calls_runtime (hl : 0 < limit.depth) {c : Callable} {helper : Text}
    (hread : (Page.read? c.isRoot c.source).bind Page.calls? = some helper) :
    (runtime limit).Calls c helper [] := by
  intro helpers g name f data hf hc
  obtain ⟨page, hpage, hcalls⟩ := Option.bind_eq_some_iff.1 hread
  obtain ⟨route, escaped, rfl⟩ := eq_singleton_of_calls? hcalls
  obtain ⟨depth, hdepth⟩ := Nat.exists_eq_succ_of_ne_zero (Nat.ne_of_gt hl)
  have hf' : Table.find? helper (helpers.map fun p => (p.1, p.2 g)) = some (f g) := by
    rw [find?_helpers, hf]
    rfl
  generalize hknown : (helpers.map fun p => (p.1, p.2 g)) = known at hf'
  have hhas : (rootSetting known (pages g) data).hasHelper helper = true := by
    simp [Setting.hasHelper, rootSetting, Table.contains, hf']
  have hcall : (rootSetting known (pages g) data).call Setting.standIn helper [] [] none none =
      (f g ⟨[], [], data, data, none, none⟩).map .written := by
    rw [Setting.call, show (rootSetting known (pages g) data).helpers = known from rfl, hf']
    rfl
  have helement (insertion : Insertion) :
      (Element.run insertion (rootSetting known (pages g) data) (.start name)
        (.value (.path helper route) escaped)).map Prod.fst = f g ⟨[], [], data, data, none, none⟩ := by
    rw [Element.run, Setting.runSubject, Setting.spelledName]
    simp only [bind, Except.bind, hhas, if_true, hcall]
    cases f g ⟨[], [], data, data, none, none⟩ <;> rfl
  change run limit (helpers.map fun p => (p.1, p.2 g)) (pages g) name data = _
  rw [run, find?_pages_of_read? hc hpage, hdepth, hknown]
  exact (map_run_cons rfl _).trans (helement _)

end Stencil.Render
