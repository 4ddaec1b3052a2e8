import Stencil.Proofs.Runtime
import Stencil.Proofs.Text.Cut
import Stencil.Render
/-!
A call of the literal helper, as the runtime of the program reads and runs it.

The page of a call has one element, which calls the helper with the argument (`read?_callOf`).  Its run comes
to what the helper answers (`runsCalls_runtime`).
-/

namespace Stencil

namespace Render

/-! ## Strings -/

/-- The character stands for itself between quotation marks. -/
def Unquoted (c : Char) : Prop :=
  c ≠ '"' ∧ c ≠ '\\' ∧ 32 ≤ c.toNat

theorem unquoted_of_isAlphanum {c : Char} (h : c.isAlphanum = true) : Unquoted c := by
  refine ⟨?_, ?_, ?_⟩
  · rintro rfl
    exact absurd h (by decide)
  · rintro rfl
    exact absurd h (by decide)
  · by_contra hc
    have hcontrol : ∀ n < 32, (Char.ofNat n).isAlphanum = false := by decide
    have hnot := hcontrol c.toNat (by omega)
    rw [Char.ofNat_toNat, h] at hnot
    cases hnot

section Strings

variable {s r : Text}

theorem pastString_append (hs : ∀ c ∈ s, Unquoted c) :
    pastString '"' (s ++ '"' :: r) = some r := by
  induction s with
  | nil => simp [pastString]
  | cons c s ih =>
    obtain ⟨hq, hb, -⟩ := hs c List.mem_cons_self
    rw [List.cons_append, pastString]
    · rw [if_neg hq, if_neg hb, ih fun d hd => hs d (List.mem_cons_of_mem c hd)]
    · simp [hb]
    · simp [hb]

theorem readString_append (hs : ∀ c ∈ s, Unquoted c) :
    Json.readString (s ++ '"' :: r) = .ok (s, r) := by
  induction s with
  | nil => simp [Json.readString]
  | cons c s ih =>
    obtain ⟨hq, hb, hc⟩ := hs c List.mem_cons_self
    rw [List.cons_append, Json.readString]
    · rw [ih fun d hd => hs d (List.mem_cons_of_mem c hd)]
      simp [hb, Nat.not_lt.2 hc, Except.map]
    · simpa using hq
    · simp [hb]
    · simp [hb]

theorem literalValue_quoted (hs : ∀ c ∈ s, Unquoted c) :
    literalValue ('"' :: s ++ ['"']) = some (.string s) := by
  have hread : Json.parse ('"' :: (s ++ ['"'])) = .ok (.string s) := by
    rw [Json.parse, List.length_cons, Json.readValue]
    simp [Json.skip, Json.isSpace, readString_append hs, Except.map, bind, Except.bind, pure,
      Except.pure]
  rw [literalValue, if_neg (by simp), List.cons_append, hread]
  rfl

theorem term_quoted (hs : ∀ c ∈ s, Unquoted c) (fuel : Nat) :
    term (fuel + 1) ('"' :: s ++ '"' :: r) = some (.literal (.string s), r) := by
  have hreserved : isReserved ('"' :: s ++ '"' :: r) = false := by
    simp [isReserved, Text.after?]
  have hpast : pastLiteral ('"' :: s ++ '"' :: r).length ('"' :: s ++ '"' :: r) = some r := by
    rw [List.cons_append, List.length_cons, pastLiteral, pastString_append hs]
  have htake : ('"' :: s ++ '"' :: r).take (('"' :: s ++ '"' :: r).length - r.length) =
      '"' :: s ++ ['"'] := by
    rw [show '"' :: s ++ '"' :: r = ('"' :: s ++ ['"']) ++ r by simp]
    exact List.take_left' (by simp; omega)
  rw [term, hreserved, hpast]
  simp only [htake, literalValue_quoted hs]
  rfl

end Strings

/-! ## The page of a call -/

theorem term_close2 (fuel : Nat) : term fuel close2 = none := by
  have hpast : pastLiteral close2.length close2 = none := by decide
  have hpath : path close2 = none := by decide
  cases fuel with
  | zero => rfl
  | succ fuel =>
    rw [term, hpast, hpath]
    cases fuel <;> rfl

theorem arguments_close2 (fuel : Nat) : arguments fuel close2 = (⟨[], []⟩, close2) := by
  have hskip : Json.skip close2 = close2 := by decide
  have hword : word close2 = none := by decide
  cases fuel with
  | zero => rfl
  | succ fuel =>
    rw [arguments]
    simp only [hskip, hword, term_close2]
    rfl

theorem arguments_quoted {s : Text} (hs : ∀ c ∈ s, Unquoted c) (fuel : Nat) :
    arguments (fuel + 2) (' ' :: ('"' :: s ++ '"' :: close2)) =
      (⟨[.literal (.string s)], []⟩, close2) := by
  have hskip : Json.skip (' ' :: ('"' :: s ++ '"' :: close2)) = '"' :: s ++ '"' :: close2 := by
    simp [Json.skip, Json.isSpace]
  have hword : word ('"' :: s ++ '"' :: close2) = none := by
    have hq : isWordChar '"' = false := by decide
    simp [word, nameOf, Text.run, hq]
  rw [arguments]
  simp only [hskip, hword, term_quoted hs, arguments_close2]
  rfl

/-- The line of a call. -/
def callLine (argument : Text) : Line :=
  ⟨Lowering.literalHelper, ⟨[.literal (.string argument)], []⟩, []⟩

/-- The page of a call. -/
def callPage (argument : Text) : Page :=
  [.call (callLine argument) true]

section Tags

variable {read : Reader Tag} {mark s : Text}

theorem between_eq_none (hs : afterMark? '~' s = none) (h : read s = none) : between read mark s = none := by
  rw [between, hs]
  simp [h]

theorem between_close2 {t : Tag} (hs : afterMark? '~' s = none) (h : read s = some (t, close2)) :
    between read close2 s = some ⟨t, false, false, []⟩ := by
  have hclose : closingOf close2 close2 = some (false, []) := by decide
  rw [between, hs]
  simp [h, hclose]

end Tags

theorem skip_underscore (s : Text) : Json.skip ('_' :: s) = '_' :: s := by
  simp [Json.skip, Json.isSpace]

theorem literalHelper_append (s : Text) : ∃ r, Lowering.literalHelper ++ s = '_' :: r :=
  ⟨"_tscope_raw".toList ++ s, rfl⟩

theorem word_literalHelper (s : Text) :
    word (Lowering.literalHelper ++ ' ' :: s) = some (Lowering.literalHelper, ' ' :: s) := by
  have hchars : ∀ c ∈ Lowering.literalHelper, isWordChar c = true :=
    List.all_eq_true.1 (by decide)
  rw [word, nameOf, Text.run_of_all hchars fun c hc => by rw [← Option.some.inj hc]; decide]
  rfl

theorem expression_literal {s : Text} (hs : ∀ c ∈ s, Unquoted c) :
    expression true (Lowering.literalHelper ++ ' ' :: ('"' :: s ++ '"' :: close2)) =
      some (.call (callLine s) true, close2) := by
  have hword : word (Json.skip (Lowering.literalHelper ++ ' ' :: ('"' :: s ++ '"' :: close2))) =
      some (Lowering.literalHelper, ' ' :: ('"' :: s ++ '"' :: close2)) := by
    obtain ⟨r, hr⟩ := literalHelper_append (' ' :: ('"' :: s ++ '"' :: close2))
    rw [hr, skip_underscore, ← hr, word_literalHelper]
  have harguments : argumentsOf (' ' :: ('"' :: s ++ '"' :: close2)) =
      (⟨[.literal (.string s)], []⟩, close2) := by
    obtain ⟨fuel, hfuel⟩ : ∃ fuel, budget (' ' :: ('"' :: s ++ '"' :: close2)) = fuel + 2 :=
      ⟨_, by rw [budget, List.length_cons]⟩
    rw [argumentsOf, hfuel, arguments_quoted hs]
  rw [expression]
  simp only [hword, harguments, Option.bind_eq_bind, Option.bind_some]
  rfl

/-- What starts with an underscore is an expression, or no tag. -/
theorem read?_underscore {s : Text} {t : Tag} (h : expression true ('_' :: s) = some (t, close2)) :
    Tag.read? (open2 ++ '_' :: s) = some ⟨t, false, false, []⟩ := by
  have htilde : afterMark? '~' ('_' :: s) = none := by
    rw [afterMark?, skip_underscore]
    rfl
  have helse : afterElse? ('_' :: s) = none := by
    rw [afterElse?, skip_underscore]
    rfl
  have hinner : inner ('_' :: s) = some (t, close2) := by
    rw [inner, skip_underscore]
    exact h
  rw [Tag.read?, Text.after?_append, Option.bind_eq_bind, Option.bind_some]
  change (between _ close2 ('_' :: s)).or ((between _ close2 ('_' :: s)).or
    (((Text.after? ['{'] ('_' :: s)).bind _).or (between inner close2 ('_' :: s)))) = _
  rw [between_eq_none htilde (by simp [helse]), between_eq_none htilde (by simp [helse]),
    between_close2 htilde hinner]
  rfl

theorem read?_callTag {argument : Text} (hs : ∀ c ∈ argument, Unquoted c) :
    Tag.read? (Lowering.callOf argument) = some ⟨.call (callLine argument) true, false, false, []⟩ := by
  have hexpression := expression_literal hs
  obtain ⟨r, hr⟩ := literalHelper_append (' ' :: ('"' :: argument ++ '"' :: close2))
  rw [hr] at hexpression
  rw [← read?_underscore hexpression, ← hr]
  simp [Lowering.callOf]

theorem pieces_of_tag {s : Text} {t : Tag} (isRoot : Bool) (hopen : Text.startsWith open2 s = true)
    (h : Tag.read? s = some ⟨t, false, false, []⟩) (fuel : Nat) :
    pieces isRoot (fuel + 2) [] s = some [.tag t (marginsOf isRoot [] ⟨t, false, false, []⟩)] := by
  cases s with
  | nil => exact nomatch hopen
  | cons c s =>
    rw [pieces, if_pos hopen, h]
    · rfl
    · exact fun h => nomatch h

/-- A call of the literal helper is read as that, and nothing else. -/
theorem read?_callOf (isRoot : Bool) {argument : Text} (hs : ∀ c ∈ argument, Unquoted c) :
    Page.read? isRoot (Lowering.callOf argument) = some (callPage argument) := by
  have hopen : Text.startsWith open2 (Lowering.callOf argument) = true := by
    rw [Lowering.callOf, List.append_assoc, List.append_assoc, List.append_assoc, Text.startsWith,
      Text.after?_append]
    rfl
  obtain ⟨fuel, hfuel⟩ : ∃ fuel, (Lowering.callOf argument).length = fuel + 1 :=
    ⟨_, by rw [Lowering.callOf, open2, List.cons_append]; rfl⟩
  rw [Page.read?, hfuel, pieces_of_tag isRoot hopen (read?_callTag hs)]
  rfl

/-- The runtime objects to no call. -/
theorem objection_callOf {argument : Text} (hs : ∀ c ∈ argument, Unquoted c) :
    objection (Lowering.callOf argument) = none := by
  rw [objection, read?_callOf false hs]

/-! ## Runs -/

/-- The call that the helper is given. -/
def callIn (e : Setting) (argument : Text) : Helper.Call :=
  ⟨[.string argument], [], e.data, e.focus, none, none⟩

/-- The page of a call comes to what the helper answers. -/
theorem Page.run_callPage (insertion : Insertion) {e : Setting} {f : Helper.Call → Except Text Text}
    (he : e.helpers.find? Lowering.literalHelper = some f) (p : Progress) (argument : Text) :
    Page.run insertion e p (callPage argument) =
      (f (callIn e argument)).map fun s => (s, p) := by
  have hvalues : e.argumentValues (callLine argument).arguments = .ok ([.string argument], []) := by
    rw [callLine, Setting.argumentValues, Setting.evaluateAll, Setting.evaluate, Setting.evaluateAll,
      Setting.evaluateFields]
    rfl
  have hcall : e.call Setting.standIn Lowering.literalHelper [.string argument] [] none none =
      (f (callIn e argument)).map .written := by
    rw [Setting.call, he]
    rfl
  have helement : Element.run insertion e p (.call (callLine argument) true) =
      (f (callIn e argument)).map fun s => (s, p) := by
    rw [Element.run, hvalues]
    change (e.call Setting.standIn Lowering.literalHelper [.string argument] [] none none >>=
      fun a => pure (e.putAnswer p true a)) = _
    rw [hcall]
    cases f (callIn e argument) <;> rfl
  rw [callPage, Page.run.eq_def]
  simp only [helement, Page.run]
  cases f (callIn e argument) with
  | error message => rfl
  | ok s => exact congrArg (fun t => Except.ok (t, p)) (List.append_nil s)

theorem find?_pages_of_read? {g : Registry} {m : Text} {c : Callable} {page : Page}
    (hc : g.find? m = some c) (hr : Page.read? c.isRoot c.source = some page) :
    (pages g).find? m = some page := by
  induction g with
  | nil => exact nomatch hc
  | cons p g ih =>
    obtain ⟨k, d⟩ := p
    unfold Table.find? at hc
    by_cases hk : m = k
    · rw [if_pos hk] at hc
      obtain rfl := Option.some.inj hc
      rw [pages, List.filterMap_cons, hr]
      simp [Table.find?, hk]
    · rw [if_neg hk] at hc
      have hg : Table.find? m (List.filterMap _ g) = some page := ih hc
      rw [pages, List.filterMap_cons]
      cases Page.read? d.isRoot d.source with
      | none => exact hg
      | some page' => simpa [Table.find?, hk] using hg

/-- The helpers of a runtime, once they know what is registered. -/
theorem find?_helpers (helpers : Table Helper) (g : Registry) (k : Text) :
    Table.find? k (helpers.map fun p => (p.1, p.2 g)) = (helpers.find? k).map (· g) :=
  Table.find?_map (fun f : Helper => f g) helpers k

/-- The runtime of the program runs calls, if it may run a page at all. -/
theorem runsCalls_runtime {limit : Limit} (hl : 0 < limit.depth) : (runtime limit).RunsCalls := by
  intro argument isRoot ha helpers g name f data hf hc
  have hs : ∀ c ∈ argument, Unquoted c := fun c hc => unquoted_of_isAlphanum (ha c hc)
  have hp := find?_pages_of_read? hc (read?_callOf isRoot hs)
  have hf' : Table.find? Lowering.literalHelper (helpers.map fun p => (p.1, p.2 g)) = some (f g) := by
    rw [find?_helpers, hf]
    rfl
  obtain ⟨depth, hdepth⟩ := Nat.exists_eq_succ_of_ne_zero (Nat.ne_of_gt hl)
  change run limit (helpers.map fun p => (p.1, p.2 g)) (pages g) name data = _
  rw [run, hp, hdepth]
  simp only [runTo]
  rw [Page.run_callPage _ hf']
  change ((f g ⟨[.string argument], [], data, data, none, none⟩).map _).map _ = _
  cases f g ⟨[.string argument], [], data, data, none, none⟩ <;> rfl

end Render

end Stencil
