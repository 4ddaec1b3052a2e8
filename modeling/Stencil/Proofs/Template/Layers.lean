import Stencil.Proofs.Except
import Stencil.Proofs.Markup.LocalTemplate
import Stencil.Proofs.Render.Literal
import Stencil.Proofs.Scope
import Stencil.Proofs.Template.Splice
import Stencil.Proofs.Text.Utf8
/-!
Raw layers and the passes that strip them.

A balanced content is made of plain chunks and of further contents that are guarded.  It is sealed, at any
depth (`Balanced.append_sealed`), so that the template of a guarded one is a single raw block, which is
lowered to a single call of the literal helper; and the argument of that call is the content in hexadecimal.
So a pass takes off one layer, whether the call is decoded or a runtime runs it (`parse_guard_balanced`).
-/

namespace Stencil

namespace RawBlock

/-! ## Balanced contents -/

/-- Plain chunks, without a marker and without an opening brace at their end, and guarded contents that
are balanced themselves, in any order. -/
inductive Balanced : Text → Prop
  | nil : Balanced []
  | plain {chunk rest : Text} : ¬ open4 <:+: chunk → chunk.getLast? ≠ some '{' → Balanced rest →
      Balanced (chunk ++ rest)
  | wrapped {c rest : Text} : Balanced c → Balanced rest → Balanced (Markup.guard c ++ rest)

variable {c s x : Text} {d : Nat}

theorem Balanced.guard (h : Balanced c) : Balanced (Markup.guard c) :=
  List.append_nil (Markup.guard c) ▸ .wrapped h .nil

theorem cut_open4_marker (x : Text) : Text.cut open4 (open4 ++ x) = some ([], x) :=
  cut_open4_append (s := []) rfl (by simp) x

/-- What is sealed stays so after a plain chunk. -/
theorem Sealed.plain_append {chunk : Text} (hc : ¬ open4 <:+: chunk) (hl : chunk.getLast? ≠ some '{')
    (h : Sealed protector d s) : Sealed protector d (chunk ++ s) := by
  have hnone : Text.cut open4 chunk = none :=
    Text.cut_eq_none_iff.2 fun a b he => hc ⟨a, b, he.symm⟩
  have hcut := cut_open4_append_left hnone hl
  cases h with
  | plain hs hls =>
    refine .plain (by rw [hcut, hs]; rfl) ?_
    cases hlast : s.getLast? with
    | none => simpa [List.getLast?_append, hlast] using hl
    | some c => simpa [List.getLast?_append, hlast] using hls
  | marker hs htag hd hr => exact .marker (by rw [hcut, hs]; rfl) htag hd hr

/-- An opening marker makes what follows one deeper. -/
theorem Sealed.opening_append (h : Sealed protector (d + 1) s) :
    Sealed protector d (opening ++ s) := by
  have hd : depthAfter protector protector d = some (d + 1) := by
    have ht : Text.trim protector = protector := by decide
    have hw : Text.firstWord protector = some protector := by decide
    rw [depthAfter.eq_def, ht]
    exact if_pos hw
  have hs : Text.cut open4 (opening ++ s) = some ([], protector ++ close4 ++ s) := by
    rw [opening, List.append_assoc, List.append_assoc, cut_open4_marker, List.append_assoc]
  exact .marker hs (cut_close4_protector s) hd h

/-- A closing marker makes what follows one less deep. -/
theorem Sealed.closing_append (h : Sealed protector d s) :
    Sealed protector (d + 1) (closing ++ s) := by
  have hs : Text.cut open4 (closing ++ s) = some ([], '/' :: protector ++ close4 ++ s) := by
    rw [closing, List.append_assoc, List.append_assoc, cut_open4_marker, List.append_assoc]
  exact .marker hs (cut_close4_closer s) (depthAfter_closer (d + 1)) h

/-- What is sealed stays so after a balanced content. -/
theorem Balanced.append_sealed (h : Balanced c) (hs : Sealed protector d s) :
    Sealed protector d (c ++ s) := by
  induction h generalizing d s with
  | nil => exact hs
  | plain hc hl _ ih =>
    rw [List.append_assoc]
    exact Sealed.plain_append hc hl (ih hs)
  | wrapped _ _ ihc ihr =>
    have := (ihc (ihr hs).closing_append).opening_append
    simpa [Markup.guard] using this

theorem Balanced.isSealed (h : Balanced c) : Sealed protector 0 c :=
  List.append_nil c ▸ h.append_sealed (.plain rfl (by simp))

end RawBlock

/-! ## The template of a guarded content -/

section Guarded

variable {c : Text}

/-- A sealed content that is guarded is parsed as one raw block. -/
theorem parse_guard_of_sealed (h : RawBlock.Sealed RawBlock.protector 0 c) :
    parse (Markup.guard c) = .ok [.raw RawBlock.protector c ⟨0, Markup.guard c⟩] := by
  obtain ⟨hr, -⟩ := (RawBlock.read_guard_iff (x := [])).2 ⟨h, rfl, rfl⟩
  have hw : (⟨RawBlock.protector, c, '/' :: RawBlock.protector⟩ : RawBlock).written =
      Markup.guard c := by
    simp [RawBlock.written, Markup.guard, RawBlock.opening, RawBlock.closing]
  have hh : (⟨RawBlock.protector, c, '/' :: RawBlock.protector⟩ : RawBlock).helper =
      RawBlock.protector :=
    show (Text.firstWord RawBlock.protector).getD [] = RawBlock.protector by decide
  have hn := next_guard 0 c []
  rw [hr, List.append_nil] at hn
  have hne : Markup.guard c ≠ [] := by simp [Markup.guard, RawBlock.opening, open4]
  have hs := Token.stream_of_next hne hn
  rw [Token.stream_nil] at hs
  rw [parse_of_stream hs]
  simp only [Parser.run, Parser.step, hh, hw]
  rfl

/-- The runtime form of a source that is one raw block is one call. -/
theorem lower_raw (key : Text → Text) (helper content source : Text) :
    lower key source [.raw helper content ⟨0, source⟩] = Lowering.literalCall content := by
  have hedits : Lowering.edits key [.raw helper content ⟨0, source⟩] =
      [⟨⟨0, source⟩, Lowering.literalCall content⟩] := rfl
  rw [lower, hedits, Edit.applyAll, Edit.sorted_of_perm (List.Perm.refl _) (List.pairwise_singleton _ _),
    Edit.splice_whole]

end Guarded

/-! ## Passes -/

/-- The argument of a source that is one call of the literal helper. -/
def Lowering.argument? (source : Text) : Option Text := do
  let rest ← Text.after? (open2 ++ literalHelper ++ " \"".toList) source
  let (argument, rest) := rest.span Char.isAlphanum
  if rest = '"' :: close2 then some argument else none

/-- A pass that parses a source, lowers it, and decodes the call that it has become. -/
def decodingPass (x : Expander) (source : Text) : Option Text := do
  let t ← (Template.parse x source).toOption
  let argument ← Lowering.argument? t.runtimeSource
  let bytes ← Text.Hex.decode argument
  return Text.Utf8.decode bytes

/-- A pass that compiles and renders a source which depends on nothing. -/
def Scope.renderingPass (rt : Runtime) (objection : Objection) (x : Expander) (s : Scope) (data : Json)
    (source : Text) : Except TemplateError Text := do
  let root ← (Template.parse x source).mapError (TemplateError.ofSyntax source)
  let p := s.install objection root []
  p.2.render rt (some (← p.1)) data

/-- Several passes, each over the text of the one before. -/
def passes {m : Type → Type} [Monad m] (pass : Text → m Text) : Nat → Text → m Text
  | 0, source => pure source
  | n + 1, source => do passes pass n (← pass source)

section Pass

variable {x : Expander} {c source : Text} {root : Template}

theorem isAlphanum_digit : ∀ n < 16, (Text.Hex.digit n).isAlphanum = true := by
  decide

theorem isAlphanum_encode {bytes : List UInt8} : ∀ c ∈ Text.Hex.encode bytes, c.isAlphanum = true := by
  intro c hc
  obtain ⟨b, -, hc⟩ := List.mem_flatMap.1 hc
  have hb := b.toNat_lt
  simp only [Text.Hex.encodeByte, List.mem_cons, List.not_mem_nil, or_false] at hc
  rcases hc with rfl | rfl
  · exact isAlphanum_digit _ (by omega)
  · exact isAlphanum_digit _ (by omega)

theorem Lowering.argument?_callOf {argument : Text} (h : ∀ c ∈ argument, c.isAlphanum = true) :
    argument? (callOf argument) = some argument := by
  have hspan : (argument ++ '"' :: close2).span Char.isAlphanum = (argument, '"' :: close2) := by
    rw [List.span_eq_takeWhile_dropWhile, List.takeWhile_append_of_pos h, List.dropWhile_append_of_pos h]
    simp
  have hcall : callOf argument =
      (open2 ++ literalHelper ++ " \"".toList) ++ (argument ++ '"' :: close2) := by
    simp [callOf]
  rw [argument?, hcall, Text.after?_append]
  simp only [Option.bind_eq_bind, Option.bind_some, hspan, if_pos]

/-- The literal helper writes what a call gives it in hexadecimal. -/
theorem Helper.literal_encode (g : Registry) {call : Helper.Call} (content : Text)
    (h : call.params = [.string (Text.Hex.encode (Text.utf8 content))]) :
    literal g call = .ok content := by
  have hd : Text.Hex.decode (subject call) = some (Text.utf8 content) := by
    rw [subject, h]
    exact Text.Hex.decode_encode _
  rw [literal, hd]
  exact congrArg Except.ok (Text.Utf8.decode_utf8 content)

/-- The argument of a literal call is decoded to its content. -/
theorem decodingPass_of_literalCall (hparse : Template.parse x source = .ok root)
    (hruntime : root.runtimeSource = Lowering.literalCall c) : decodingPass x source = some c := by
  rw [decodingPass, hparse]
  simp only [Except.toOption, Option.bind_eq_bind, Option.bind_some, hruntime, Lowering.literalCall,
    Lowering.argument?_callOf isAlphanum_encode, Text.Hex.decode_encode]
  exact congrArg some (Text.Utf8.decode_utf8 c)

variable {rt : Runtime} {objection : Objection} {s : Scope} {data : Json}

/-- A source that is lowered to a literal call is rendered as the content of the call. -/
theorem Scope.renderingPass_of_literalCall (hrt : rt.RunsCalls) (hparse : Template.parse x source = .ok root)
    (hruntime : root.runtimeSource = Lowering.literalCall c)
    (ho : objection (Lowering.literalCall c) = none)
    (hs : s.helpers.find? Lowering.literalHelper = none) :
    s.renderingPass rt objection x data source = .ok c := by
  have hadd : s.registry.add objection (Alias.ofRoot root.source) ⟨root.runtimeSource, true⟩
      (Alias.ofRoot root.source) =
        .ok (s.registry.insert (Alias.ofRoot root.source) ⟨root.runtimeSource, true⟩) := by
    rw [Registry.add, hruntime, ho]
  have hnone : s.registry.addAll objection (s.foreign []) = (s.registry, .ok ()) := rfl
  obtain ⟨k, s', hinstall⟩ : ∃ k s', s.install objection root [] = (.ok k, s') := by
    simp only [install, hnone, hadd]
    exact ⟨_, _, rfl⟩
  obtain ⟨-, hfind⟩ := find?_install_root hinstall
  have hhelpers : s'.helpers = s.helpers := by
    have hdraft := draft_install objection s root []
    rw [hinstall] at hdraft
    exact congrArg Draft.helpers hdraft
  have hliteral : s'.runtimeHelpers.find? Lowering.literalHelper = some Helper.literal := by
    rw [runtimeHelpers, hhelpers, Table.find?_merge_of_none hs, Table.find?, if_pos rfl]
  have hrender : s'.render rt (some k) data = .ok c := by
    rw [render, hrt _ true isAlphanum_encode _ _ _ _ data hliteral (hruntime ▸ hfind),
      Helper.literal_encode _ c rfl]
    rfl
  rw [renderingPass, hparse]
  change (do let k ← (s.install objection root []).1; _) = _
  rw [hinstall]
  exact hrender

end Pass

/-! ## Layers -/

section Layers

variable {c : Text}

/-- The text in `n` layers of raw markers. -/
def layered (c : Text) : Nat → Text
  | 0 => c
  | n + 1 => Markup.guard (layered c n)

theorem RawBlock.Balanced.layered (h : Balanced c) : ∀ n, Balanced (layered c n)
  | 0 => h
  | n + 1 => (h.layered n).guard

theorem length_layered (c : Text) (n : Nat) :
    (layered c n).length = c.length + n * (RawBlock.opening ++ RawBlock.closing).length := by
  induction n with
  | zero => simp [layered]
  | succ n ih =>
    simp only [layered, Markup.guard, List.length_append, ih]
    rw [Nat.add_mul]
    omega

theorem layered_eq_self_iff {n : Nat} : layered c n = c ↔ n = 0 := by
  constructor
  · intro h
    have hlen := congrArg List.length h
    rw [length_layered] at hlen
    have : n * (RawBlock.opening ++ RawBlock.closing).length = 0 := by omega
    rcases Nat.mul_eq_zero.1 this with hn | hm
    · exact hn
    · exact absurd hm (by decide)
  · rintro rfl
    rfl

/-- The template of a guarded balanced content. -/
theorem Template.parse_of_balanced (x : Expander) (h : RawBlock.Balanced c) :
    ∃ t, Template.parse x (Markup.guard c) = .ok t ∧ t.references = [] ∧
      t.runtimeSource = Lowering.literalCall c := by
  have hparse := parse_guard_of_sealed h.isSealed
  exact ⟨_, by rw [Template.parse, hparse]; rfl, rfl, lower_raw _ _ _ _⟩

/-- A pass that takes off any one layer takes off so many as it is repeated. -/
theorem passes_layered {m : Type → Type} [Monad m] [LawfulMonad m] {pass : Text → m Text}
    (h : ∀ n, pass (layered c (n + 1)) = pure (layered c n)) (k n : Nat) :
    passes pass k (layered c (n + k)) = pure (layered c n) := by
  induction k with
  | zero => rfl
  | succ k ih =>
    have hpass : pass (layered c (n + (k + 1))) = pure (layered c (n + k)) := h (n + k)
    rw [passes, hpass, pure_bind]
    exact ih

/-- Passes strip a text of its layers: so many passes take off so many layers, and the text itself is left
after as many as it had. -/
def Strips {m : Type → Type} [Monad m] (pass : Text → m Text) (c : Text) : Prop :=
  ∀ n k, k ≤ n → passes pass k (layered c n) = pure (layered c (n - k)) ∧
    (passes pass k (layered c n) = pure c ↔ k = n)

theorem strips_of_layered {m : Type → Type} [Monad m] [LawfulMonad m] {pass : Text → m Text}
    (hpure : ∀ s t : Text, (pure s : m Text) = pure t → s = t)
    (h : ∀ n, pass (layered c (n + 1)) = pure (layered c n)) : Strips pass c := by
  intro n k hk
  have hpasses := passes_layered h k (n - k)
  rw [Nat.sub_add_cancel hk] at hpasses
  refine ⟨hpasses, ?_⟩
  rw [hpasses]
  constructor
  · intro he
    have := layered_eq_self_iff.1 (hpure _ _ he)
    omega
  · rintro rfl
    rw [Nat.sub_self]
    rfl

/-- A balanced content in raw markers is parsed as one raw block, which is the whole source and has just
that content.  Its template depends on nothing, and its runtime form is one call of the literal helper, with
an argument of letters and digits that decodes to the content.  So a text in `n` layers takes `n` passes, each
of which decodes the call, or has it run by a runtime that runs calls and does not object to them. -/
theorem parse_guard_balanced (x : Expander) (h : RawBlock.Balanced c) :
    parse (Markup.guard c) = .ok [.raw RawBlock.protector c ⟨0, Markup.guard c⟩] ∧
      (∃ t argument, Template.parse x (Markup.guard c) = .ok t ∧ t.references = [] ∧
        t.runtimeSource = open2 ++ Lowering.literalHelper ++ " \"".toList ++ argument ++ '"' :: close2 ∧
        (∀ ch ∈ argument, ch.isAlphanum = true) ∧
        Text.Hex.decode argument = some (Text.utf8 c) ∧
        ∀ g call, call.params = [.string argument] → Helper.literal g call = .ok c) ∧
      Strips (decodingPass x) c ∧
      ∀ (rt : Runtime) (objection : Objection) (s : Scope) (data : Json), rt.RunsCalls →
        (∀ argument, (∀ ch ∈ argument, ch.isAlphanum = true) →
          objection (Lowering.callOf argument) = none) →
        s.helpers.find? Lowering.literalHelper = none →
        Strips (s.renderingPass rt objection x data) c := by
  obtain ⟨t, ht, hreferences, hruntime⟩ := Template.parse_of_balanced x h
  refine ⟨parse_guard_of_sealed h.isSealed,
    ⟨t, Text.Hex.encode (Text.utf8 c), ht, hreferences, hruntime, isAlphanum_encode,
      Text.Hex.decode_encode _, fun g call => Helper.literal_encode g c⟩,
    strips_of_layered (fun _ _ => Option.some.inj) fun n => ?_,
    fun rt objection s data hrt ho hs => strips_of_layered (fun _ _ => Except.ok.inj) fun n => ?_⟩
  · obtain ⟨t, ht, -, hruntime⟩ := Template.parse_of_balanced x (h.layered n)
    exact decodingPass_of_literalCall ht hruntime
  · obtain ⟨t, ht, -, hruntime⟩ := Template.parse_of_balanced x (h.layered n)
    exact Scope.renderingPass_of_literalCall hrt ht hruntime (ho _ isAlphanum_encode) hs

/-- Chunks with braces, and guarded contents beside and in each other. -/
def siblings : Text :=
  (close2 ++ 'a' :: close4) ++ (Markup.guard (['}'] ++ (Markup.guard [] ++ [])) ++
    (Markup.guard ("{{> b}}".toList ++ []) ++ []))

/-- A scope without partials. -/
def plainScope : Scope :=
  ⟨[], Helper.defaults, none, [], [], 0⟩

theorem parse_guard_balanced_siblings : RawBlock.Balanced siblings ∧
    parse (Markup.guard siblings) = .ok [.raw RawBlock.protector siblings ⟨0, Markup.guard siblings⟩] ∧
    passes (decodingPass .identity) 3 (layered siblings 3) = some siblings ∧
    passes (plainScope.renderingPass (Render.runtime ⟨1, []⟩) Render.objection .identity .null) 3
      (layered siblings 3) = .ok siblings := by
  have h : RawBlock.Balanced siblings :=
    .plain (by decide) (by decide) (.wrapped (.plain (by decide) (by decide) (.wrapped .nil .nil))
      (.wrapped (.plain (by decide) (by decide) .nil) .nil))
  obtain ⟨hparse, -, hdecoded, hrendered⟩ := parse_guard_balanced .identity h
  have hruns : (Render.runtime ⟨1, []⟩).RunsCalls := Render.runsCalls_runtime Nat.one_pos
  have hstrips := hrendered _ Render.objection plainScope .null hruns
    (fun _ ha => Render.objection_callOf fun ch hc => Render.unquoted_of_isAlphanum (ha ch hc)) (by decide)
  exact ⟨h, hparse, (hdecoded 3 3 (Nat.le_refl 3)).1, (hstrips 3 3 (Nat.le_refl 3)).1⟩

end Layers

end Stencil
