import Stencil.Syntax.RawBlock
/-!
Markup that holds local templates, as a sequence of pieces.

A piece is plain text, an invocation inside an attribute value, or the body of a local template with its
end tag.  `source` spells the markup as it was read and `guarded` as it is passed on: with raw block
markers around every invocation and around every body that is not blank.
-/

namespace Stencil

inductive Markup
  | nil
  | text (t : Text) (rest : Markup)
  | invocation (t : Text) (rest : Markup)
  | definition (body : Markup) (endTag : Text) (rest : Markup)
  deriving DecidableEq, Repr

namespace Markup

/-- The markup as it was read. -/
def source : Markup → Text
  | nil => []
  | text t rest => t ++ source rest
  | invocation t rest => t ++ source rest
  | definition body endTag rest => source body ++ endTag ++ source rest

/-- A text between raw block markers. -/
def guard (t : Text) : Text :=
  RawBlock.opening ++ t ++ RawBlock.closing

/-- The markup with everything guarded that only a later pass may expand. -/
def guarded : Markup → Text
  | nil => []
  | text t rest => t ++ guarded rest
  | invocation t rest => guard t ++ guarded rest
  | definition body endTag rest =>
    (if Text.allBlank (source body) then source body else guard (guarded body)) ++ endTag ++
      guarded rest

/-! ## Building markup -/

/-- Puts a text in front; texts that meet become one piece. -/
def addText (t : Text) (m : Markup) : Markup :=
  match t, m with
  | [], m => m
  | t, text u rest => text (t ++ u) rest
  | t, m => text t m

def append : Markup → Markup → Markup
  | nil, m => m
  | text t rest, m => addText t (append rest m)
  | invocation t rest, m => invocation t (append rest m)
  | definition body endTag rest, m => definition body endTag (append rest m)

@[simp] theorem source_addText (t : Text) (m : Markup) : (addText t m).source = t ++ m.source := by
  unfold addText
  split <;> simp [source]

@[simp] theorem guarded_addText (t : Text) (m : Markup) :
    (addText t m).guarded = t ++ m.guarded := by
  unfold addText
  split <;> simp [guarded]

@[simp] theorem source_append (a b : Markup) : (append a b).source = a.source ++ b.source := by
  induction a <;> simp_all [append, source]

@[simp] theorem guarded_append (a b : Markup) : (append a b).guarded = a.guarded ++ b.guarded := by
  induction a <;> simp_all [append, guarded]

end Markup

end Stencil
