import Mathlib
import Stencil.Content
import Stencil.Proofs.Except
/-!
The files of a directory service.

A path is taken apart into its components, which is what makes two paths equal.  The file of an identifier
is one component below the root, a name that spells the identifier: different identifiers have different
files, and what is read for an identifier lies in the root itself (`pathFor_contained`).
-/

namespace Stencil

/-! ## Parts of a text -/

namespace Text

theorem splitAll_ne_nil (c : Char) (s : Text) : splitAll c s ≠ [] := by
  cases s with
  | nil => simp [splitAll]
  | cons d s =>
    rw [splitAll]
    split
    · simp
    · split <;> simp

theorem splitAll_append (c : Char) (s t : Text) :
    splitAll c (s ++ c :: t) = splitAll c s ++ splitAll c t := by
  induction s with
  | nil => simp [splitAll]
  | cons d s ih =>
    obtain ⟨p, ps, hp⟩ := List.exists_cons_of_ne_nil (splitAll_ne_nil c s)
    rw [List.cons_append, splitAll, splitAll, ih, hp]
    split <;> rfl

end Text

/-! ## Components of a path -/

namespace Path

/-- A component of a path. -/
inductive Component
  | root
  /-- The working directory, where a path says that it begins there. -/
  | here
  | up
  | name (text : Text)
  deriving DecidableEq, Repr

/-- The component that a step is; an idle step is none. -/
def Component.ofStep? (step : Text) : Option Component :=
  if isIdle step then none
  else if step = ['.', '.'] then some .up
  else some (.name step)

/-- What a path says of where it begins. -/
def beginning (p : Text) : List Component :=
  if isAbsolute p then [.root]
  else if (Text.splitAll '/' p).head? = some ['.'] then [.here]
  else []

/-- The components of a path.  Paths that have the same ones are equal. -/
def components (p : Text) : List Component :=
  beginning p ++ (Text.splitAll '/' p).filterMap Component.ofStep?

/-- Neither repeated slashes nor idle steps count, but for one at the start. -/
example : components "./a//../b/.".toList = [.here, .name ['a'], .up, .name ['b']] := by decide

/-- The text can name a file of a directory: it is one step, and leads to something in the directory. -/
structure IsName (name : Text) : Prop where
  slash : '/' ∉ name
  nul : '\x00' ∉ name
  not_idle : isIdle name = false
  not_up : name ≠ ['.', '.']

variable {base name : Text}

theorem isAbsolute_append {s : Text} (h : s ≠ []) (t : Text) : isAbsolute (s ++ t) = isAbsolute s := by
  rw [isAbsolute, isAbsolute, List.head?_append_of_ne_nil _ h]

theorem isAbsolute_append_slash (s t u : Text) :
    isAbsolute (s ++ '/' :: t) = isAbsolute (s ++ '/' :: u) := by
  cases s <;> rfl

theorem head?_splitAll_append (s t : Text) :
    (Text.splitAll '/' (s ++ '/' :: t)).head? = (Text.splitAll '/' s).head? := by
  rw [Text.splitAll_append, List.head?_append_of_ne_nil _ (Text.splitAll_ne_nil '/' s)]

/-- What follows a slash does not tell where a path begins. -/
theorem beginning_append_slash (s t u : Text) : beginning (s ++ '/' :: t) = beginning (s ++ '/' :: u) := by
  rw [beginning, beginning, isAbsolute_append_slash s t u, head?_splitAll_append, head?_splitAll_append]

theorem beginning_append {s : Text} (h : s ≠ []) (t : Text) : beginning (s ++ '/' :: t) = beginning s := by
  rw [beginning, beginning, isAbsolute_append h, head?_splitAll_append]

theorem IsName.ofStep? (h : IsName name) : Component.ofStep? name = some (.name name) := by
  rw [Component.ofStep?, if_neg (Bool.eq_false_iff.1 h.not_idle), if_neg h.not_up]

theorem IsName.isAbsolute_eq (h : IsName name) : isAbsolute name = false := by
  rw [isAbsolute, decide_eq_false_iff_not]
  intro hh
  obtain ⟨r, rfl⟩ := List.head?_eq_some_iff.1 hh
  exact h.slash List.mem_cons_self

theorem IsName.beginning_eq (h : IsName name) : beginning name = [] := by
  have hdot : name ≠ ['.'] := by
    rintro rfl
    exact nomatch h.not_idle
  rw [beginning, h.isAbsolute_eq, Files.splitAll_self h.slash]
  simpa using hdot

/-- How a name is put after a path: with a slash between them, unless there is one or the path is empty. -/
inductive Joined (name : Text) : Text → Text → Prop
  | empty : Joined name [] name
  | closed {base : Text} : Joined name (base ++ ['/']) (base ++ '/' :: name)
  | plain {base : Text} : base ≠ [] → Joined name base (base ++ '/' :: name)

theorem IsName.joined (h : IsName name) (base : Text) : Joined name base (join base name) := by
  rw [join, h.isAbsolute_eq]
  by_cases hb : base = []
  · subst hb
    exact .empty
  · by_cases hl : base.getLast? = some '/'
    · obtain ⟨base, rfl⟩ := List.getLast?_eq_some_iff.1 hl
      simpa using Joined.closed
    · simpa [hb, hl] using Joined.plain hb

/-- A name that is put after a path is one more component. -/
theorem IsName.components_join (h : IsName name) (base : Text) :
    components (join base name) = components base ++ [.name name] := by
  have hname : (Text.splitAll '/' name).filterMap Component.ofStep? = [.name name] := by
    rw [Files.splitAll_self h.slash, List.filterMap_cons_some h.ofStep?, List.filterMap_nil]
  have hnil : (Text.splitAll '/' []).filterMap Component.ofStep? = [] := rfl
  have hj := h.joined base
  generalize join base name = path at hj ⊢
  cases hj with
  | empty =>
    rw [components, h.beginning_eq, hname]
    rfl
  | @closed base =>
    rw [components, components, beginning_append_slash base name [], Text.splitAll_append,
      Text.splitAll_append, List.filterMap_append, List.filterMap_append, hname, hnil, List.append_nil,
      List.append_assoc]
  | plain hb =>
    rw [components, components, beginning_append hb, Text.splitAll_append, List.filterMap_append, hname,
      List.append_assoc]

end Path

/-! ## The file below a path -/

namespace Files

variable {files : Files} {root name key content : Text} {place : Place}

/-- The place that the steps of a path lead to. -/
def reach (files : Files) (path : Text) : Except ReadError Place :=
  files.follow (if Path.isAbsolute path then .directory 1 [] else .directory 0 [])
    (Text.splitAll '/' path)

/-- The key is that of the file `name` in the directory that `root` leads to. -/
inductive Beneath (files : Files) (root name : Text) : Text → Prop
  | written : Beneath files root name (Path.join root name)
  | reached {down : List Text} : files.reach root = .ok (.directory 0 down) →
      Beneath files root name (Text.join ['/'] (down.reverse ++ [name]))

theorem Beneath.lastStep_eq (hn : Path.IsName name) (h : files.Beneath root name key) :
    lastStep key = name := by
  cases h with
  | written =>
    have hj := hn.joined root
    generalize Path.join root name = path at hj ⊢
    cases hj with
    | empty => exact lastStep_self hn.slash
    | closed => exact lastStep_append _ hn.slash
    | plain => exact lastStep_append _ hn.slash
  | reached => exact lastStep_join _ hn.slash

theorem follow_concat {steps : List Text} {step : Text} {place place' : Place}
    (h : files.follow place (steps ++ [step]) = .ok place') :
    ∃ between, files.follow place steps = .ok between ∧ files.follow between [step] = .ok place' := by
  rw [follow_append] at h
  split at h
  · exact nomatch h
  · next between hsteps => exact ⟨between, hsteps, h⟩

/-- A path goes on with a name from where it leads to. -/
theorem reach_join (hn : Path.IsName name) (h : files.reach (Path.join root name) = .ok place) :
    ∃ between, files.reach root = .ok between ∧ files.follow between [name] = .ok place := by
  have hself : Text.splitAll '/' name = [name] := splitAll_self hn.slash
  have hj := hn.joined root
  generalize Path.join root name = path at hj h
  unfold reach at h ⊢
  cases hj with
  | empty =>
    rw [hn.isAbsolute_eq, hself] at h
    exact ⟨.directory 0 [], rfl, h⟩
  | @closed base =>
    rw [Path.isAbsolute_append_slash base name [], Text.splitAll_append, hself] at h
    obtain ⟨between, hbase, hname⟩ := follow_concat h
    refine ⟨between, ?_, hname⟩
    rw [Text.splitAll_append, follow_append, hbase]
    -- the step after the last slash is idle, but only a directory has one
    cases between with
    | file content => exact nomatch hname
    | directory ups down => rfl
  | plain hb =>
    rw [Path.isAbsolute_append hb, Text.splitAll_append, hself] at h
    exact follow_concat h

/-- What is found under a name in a place is a file of that directory. -/
theorem follow_name (hn : Path.IsName name) (h : files.follow place [name] = .ok (.file content)) :
    ∃ down, place = .directory 0 down ∧
      files.contents.find? (Text.join ['/'] (down.reverse ++ [name])) = some content := by
  cases place with
  | file c => simp [follow] at h
  | directory ups down =>
    simp only [follow, hn.not_idle, hn.not_up, Bool.false_eq_true, if_false] at h
    split at h
    · cases h
    · split at h
      · cases h
      · next hups =>
        obtain rfl : ups = 0 := not_not.1 hups
        refine ⟨down, rfl, ?_⟩
        unfold entry at h
        simp only at h
        split at h
        · next place he =>
          split at he
          · next c hc =>
            obtain rfl := Option.some.inj he
            obtain rfl := Place.file.inj (Except.ok.inj h)
            exact hc
          · split at he
            · obtain rfl := Option.some.inj he
              cases h
            · cases he
        · cases h

theorem reach_of_read {path : Text} (h : files.read path = .ok content) :
    files.contents.find? path = some content ∨ files.reach path = .ok (.file content) := by
  unfold read at h
  split at h
  · exact nomatch h
  · next hk => exact .inl (hk.trans (congrArg some (Except.ok.inj h)))
  · split at h
    · exact nomatch h
    · exact nomatch h
    · next hl =>
      obtain rfl := Except.ok.inj h
      unfold locate at hl
      split at hl
      · exact nomatch hl
      split at hl
      · exact nomatch hl
      split at hl
      · exact nomatch hl
      exact .inr hl

/-- What is read below a path is a file in the directory that the path leads to. -/
theorem beneath_of_read (hn : Path.IsName name) (h : files.read (Path.join root name) = .ok content) :
    ∃ key, files.contents.find? key = some content ∧ files.Beneath root name key := by
  rcases reach_of_read h with hk | hr
  · exact ⟨_, hk, .written⟩
  · obtain ⟨place, hroot, hname⟩ := reach_join hn hr
    obtain ⟨down, rfl, hk⟩ := follow_name hn hname
    exact ⟨_, hk, .reached hroot⟩

end Files

/-! ## Directory services -/

namespace Service

/-- Encoded text is ASCII letters, digits and percent signs. -/
theorem encodeByte_chars : ∀ n : Nat, n < 256 →
    (Text.Percent.encodeByte (UInt8.ofNat n)).all (fun c => c.isAlphanum || c = '%') = true := by
  decide +kernel

theorem isName_fileName (identifier : Text) : Path.IsName (fileName identifier) := by
  refine ⟨slash_notMem_fileName identifier, fun hnul => ?_, isIdle_fileName identifier,
    fileName_ne_up identifier⟩
  rcases List.mem_append.1 hnul with hnul | hnul
  · obtain ⟨b, -, hb⟩ := List.mem_flatMap.1 hnul
    have := encodeByte_chars b.toNat b.toNat_lt
    rw [UInt8.ofNat_toNat] at this
    exact absurd (List.all_eq_true.1 this _ hb) (by decide)
  · exact absurd hnul (by decide)

variable {root a b : Text} {files : Files} {shelf : Table Text}

/-- The file of an identifier is one component below the root, and no other identifier has it.  What is
read for the identifier is the file of that name in the directory that the root leads to. -/
theorem pathFor_contained (root a : Text) :
    Path.IsName (fileName a) ∧
    Path.components (pathFor root a) = Path.components root ++ [.name (fileName a)] ∧
    (∀ b, Path.components (pathFor root a) = Path.components (pathFor root b) → a = b) ∧
    ∀ files shelf m, (directory root files).markup shelf a = .ok m →
      ∃ key, files.contents.find? key = some m ∧ files.Beneath root (fileName a) key ∧
        ∀ b, files.Beneath root (fileName b) key → a = b := by
  have hcomponents (c : Text) :
      Path.components (pathFor root c) = Path.components root ++ [.name (fileName c)] :=
    (isName_fileName c).components_join root
  refine ⟨isName_fileName a, hcomponents a, fun b hb => ?_, fun files shelf m hm => ?_⟩
  · rw [hcomponents a, hcomponents b] at hb
    have hname := List.append_cancel_left hb
    simp only [List.cons.injEq, Path.Component.name.injEq, and_true] at hname
    exact fileName_injective hname
  · have hread : files.read (pathFor root a) = .ok m := Except.mapError_eq_ok_iff.1 hm
    obtain ⟨key, hk, hbelow⟩ := Files.beneath_of_read (isName_fileName a) hread
    refine ⟨key, hk, hbelow, fun b hb => fileName_injective ?_⟩
    rw [← hbelow.lastStep_eq (isName_fileName a), hb.lastStep_eq (isName_fileName b)]

/-- An identifier that spells a way out of the root, one that spells its file, and a root that is written
with idle steps. -/
theorem pathFor_contained_dots :
    let files : Files := ⟨[("d/%2E%2E%2Fx.html".toList, ['m'])], []⟩
    (directory "./d//".toList files).markup [] "../x".toList = .ok ['m'] ∧
      (∃ key, files.contents.find? key = some ['m'] ∧
        files.Beneath "./d//".toList (fileName "../x".toList) key ∧
        ∀ b, files.Beneath "./d//".toList (fileName b) key → "../x".toList = b) ∧
      Path.components (pathFor "./d//".toList "../x".toList) ≠
        Path.components (pathFor "./d//".toList "%2E%2E%2Fx".toList) := by
  intro files
  have hread : (directory "./d//".toList files).markup [] "../x".toList = .ok ['m'] := by decide +kernel
  obtain ⟨-, -, hinjective, hreads⟩ := pathFor_contained "./d//".toList "../x".toList
  exact ⟨hread, hreads files [] ['m'] hread, fun he => absurd (hinjective _ he) (by decide)⟩

end Service

end Stencil
