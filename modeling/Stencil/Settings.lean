import Stencil.Escaper
import Stencil.Identifier
import Stencil.Json
/-!
Settings: what a user can choose about an engine, and their form as a JSON document.

In a document every setting may be left out.  `ofJson?_toJson`: what is written reads back.
-/

namespace Stencil

/-- Where remote templates are fetched from. -/
structure Source where
  baseUrl : Option Text
  directory : Option Text
  /-- How many seconds a request may take. -/
  timeout : UInt64
  deriving DecidableEq, Repr

structure Settings where
  /-- The name of the elements that hold local templates. -/
  tag : Text
  namespaces : Namespaces
  source : Source
  /-- The files of the partials that the main scope has. -/
  partials : Table Text
  deriving DecidableEq, Repr

/-! ## Reading parts of a document -/

namespace Json

/-- The values of named slots: the fields of an object, or the items of an array in the order of the
names. -/
def slots (names : List Text) : Json → Option (Text → Option Json)
  | object fields => some fun n => Table.find? n fields
  | array items =>
    if items.length ≤ names.length then some fun n => (names.zip items).lookup n else none
  | _ => none

/-- The value of a slot; an empty one has the value `default`. -/
def readOr {α : Type} (default : α) (read : Json → Option α) : Option Json → Option α
  | none => some default
  | some j => read j

/-- A text, or `null` for none. -/
def optionalText : Json → Option (Option Text)
  | null => some none
  | string s => some (some s)
  | _ => none

/-- An object of texts. -/
def textTable : Json → Option (Table Text)
  | object fields => fields.mapM fun f => f.2.text?.map fun s => (f.1, s)
  | _ => none

def word64 : Json → Option UInt64
  | number (.integer (.ofNat n)) => if n < UInt64.size then some (UInt64.ofNat n) else none
  | _ => none

/-- A field, unless it has nothing to say. -/
def fieldUnless (skipped : Bool) (name : String) (v : Json) : List (Text × Json) :=
  if skipped then [] else [(name.toList, v)]

def ofTextTable (t : Table Text) : Json :=
  object (t.map fun p => (p.1, string p.2))

def ofOptional (t : Option Text) : Json :=
  (t.map string).getD null

end Json

namespace Source

def default : Source := ⟨none, none, 30⟩

def names : List Text :=
  ["base_url".toList, "directory".toList, "timeout_secs".toList]

def ofJson? (j : Json) : Option Source := do
  let slot ← j.slots names
  let baseUrl ← Json.readOr none Json.optionalText (slot "base_url".toList)
  let directory ← Json.readOr none Json.optionalText (slot "directory".toList)
  let timeout ← Json.readOr default.timeout Json.word64 (slot "timeout_secs".toList)
  return ⟨baseUrl, directory, timeout⟩

def toJson (s : Source) : Json :=
  .object <|
    Json.fieldUnless s.baseUrl.isNone "base_url" (.ofOptional s.baseUrl) ++
    Json.fieldUnless s.directory.isNone "directory" (.ofOptional s.directory) ++
    [("timeout_secs".toList, .nat s.timeout.toNat)]

end Source

namespace Settings

def default : Settings := ⟨Markup.defaultTag, ⟨[], none⟩, .default, []⟩

def names : List Text :=
  ["local_template_tag".toList, "default_namespace".toList, "prefixes".toList, "content".toList,
    "partials".toList]

/-- The settings that a document writes; unknown settings are passed over. -/
def ofJson? (j : Json) : Option Settings := do
  let slot ← j.slots names
  let tag ← Json.readOr default.tag Json.text? (slot "local_template_tag".toList)
  let fallback ← Json.readOr none Json.optionalText (slot "default_namespace".toList)
  let prefixes ← Json.readOr [] Json.textTable (slot "prefixes".toList)
  let source ← Json.readOr .default Source.ofJson? (slot "content".toList)
  let partials ← Json.readOr [] Json.textTable (slot "partials".toList)
  return ⟨tag, ⟨prefixes, fallback⟩, source, partials⟩

def toJson (s : Settings) : Json :=
  .object <|
    [("content".toList, s.source.toJson)] ++
    Json.fieldUnless s.namespaces.fallback.isNone "default_namespace"
      (.ofOptional s.namespaces.fallback) ++
    [("local_template_tag".toList, .string s.tag)] ++
    Json.fieldUnless s.partials.isEmpty "partials" (.ofTextTable s.partials) ++
    Json.fieldUnless s.namespaces.prefixes.isEmpty "prefixes"
      (.ofTextTable s.namespaces.prefixes)

/-- What contradicts itself in the settings. -/
inductive Fault
  | twoSources
  | emptyTag
  deriving DecidableEq, Repr

def Fault.message : Fault → Text
  | twoSources => "Configure either content.base_url or content.directory, not both".toList
  | emptyTag => "local_template_tag must not be empty".toList

/-- The first fault of the settings, if they have one. -/
def fault? (s : Settings) : Option Fault :=
  if s.source.baseUrl.isSome && s.source.directory.isSome then some .twoSources
  else if Text.allBlank s.tag then some .emptyTag
  else none

def escaper (s : Settings) : Escaper :=
  .named s.tag

def expander (s : Settings) : Expander :=
  .namespaces s.namespaces

end Settings

/-! ## What is written reads back -/

namespace Json

theorem textTable_ofTextTable (t : Table Text) : textTable (ofTextTable t) = some t := by
  simp only [textTable, ofTextTable]
  induction t with
  | nil => rfl
  | cons p r ih =>
    rw [List.map_cons, List.mapM_cons, ih]
    rfl

theorem word64_nat (n : UInt64) : word64 (nat n.toNat) = some n := by
  have h : n.toNat < UInt64.size := n.toNat_lt
  have : word64 (nat n.toNat) =
      if n.toNat < UInt64.size then some (UInt64.ofNat n.toNat) else none := rfl
  rw [this, if_pos h, UInt64.ofNat_toNat]

end Json

theorem Source.ofJson?_toJson (s : Source) : Source.ofJson? s.toJson = some s := by
  obtain ⟨b, d, t⟩ := s
  cases b <;> cases d <;>
    simp [ofJson?, toJson, Json.slots, Json.fieldUnless, Table.find?, Json.readOr,
      Json.word64_nat, Json.ofOptional, Json.optionalText]

theorem Settings.ofJson?_toJson (s : Settings) : Settings.ofJson? s.toJson = some s := by
  obtain ⟨tag, ⟨prefixes, fallback⟩, source, partials⟩ := s
  cases fallback <;> cases prefixes <;> cases partials <;>
    simp [ofJson?, toJson, Json.slots, Json.fieldUnless, Table.find?, Json.readOr,
      Source.ofJson?_toJson, Json.textTable_ofTextTable, Json.ofOptional, Json.optionalText,
      Json.text?]

end Stencil
