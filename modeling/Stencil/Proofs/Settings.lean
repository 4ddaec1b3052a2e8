import Mathlib
import Stencil.Proofs.Json
import Stencil.Settings
/-!
Settings that are written and read.

A document has settings if it has slots for them, and each slot holds the value as it is written or,
being left out, stands for the default (`Settings.ofJson?_eq_some_iff`).  A document that is written leaves
out what may be left out and has the default (`Setting.slot?_toJson`), so reading restores it.
-/

namespace Stencil

/-! ## Values -/

namespace Json

variable {α : Type} {read : Json → Option α} {write : α → Json}

/-- The reader takes what is written and nothing else. -/
def Exact (read : Json → Option α) (write : α → Json) : Prop :=
  ∀ j v, read j = some v ↔ j = write v

theorem Exact.injective (h : Exact read write) {v w : α} (he : write v = write w) : v = w := by
  have hv := (h (write v) v).2 rfl
  rw [(h (write v) w).2 he] at hv
  exact (Option.some.inj hv).symm

/-- A slot that is left out stands for the default as it is written. -/
theorem Exact.readOr_eq_some_iff (h : Exact read write) {default v : α} {o : Option Json} :
    readOr default read o = some v ↔ o.getD (write default) = write v := by
  cases o with
  | none => exact ⟨fun he => congrArg write (Option.some.inj he), fun he => congrArg some (h.injective he)⟩
  | some j => exact h j v

theorem exact_text? : Exact text? string := by
  intro j v
  cases j <;> simp [text?]

theorem exact_optionalText : Exact optionalText ofOptional := by
  intro j v
  cases j <;> cases v <;> simp [optionalText, ofOptional]

theorem exact_textTable : Exact textTable ofTextTable := by
  intro j t
  constructor
  · intro h
    cases j with
    | object fields =>
      refine congrArg object ?_
      replace h : (fields.mapM fun f => f.2.text?.map fun s => (f.1, s)) = some t := h
      induction fields generalizing t with
      | nil =>
        obtain rfl := Option.some.inj h
        rfl
      | cons f fields ih =>
        rw [List.mapM_cons] at h
        obtain ⟨p, hp, h⟩ := Option.bind_eq_some_iff.1 h
        obtain ⟨r, hr, h⟩ := Option.bind_eq_some_iff.1 h
        obtain ⟨s, hs, rfl⟩ := Option.map_eq_some_iff.1 hp
        obtain rfl := Option.some.inj h
        rw [List.map_cons, ih r hr, ← (exact_text? f.2 s).1 hs]
    | _ => exact nomatch h
  · rintro rfl
    exact textTable_ofTextTable t

theorem exact_word64 : Exact word64 fun n : UInt64 => nat n.toNat := by
  intro j v
  constructor
  · intro h
    unfold word64 at h
    split at h
    · next n =>
      split at h
      · next hn =>
        obtain rfl := Option.some.inj h
        exact congrArg nat (UInt64.toNat_ofNat_of_lt' hn).symm
      · exact nomatch h
    · exact nomatch h
  · rintro rfl
    exact word64_nat v

theorem find?_fieldUnless (skipped : Bool) (name : String) (v : Json) (n : Text)
    (rest : List (Text × Json)) :
    Table.find? n (fieldUnless skipped name v ++ rest) =
      if n = name.toList ∧ skipped = false then some v else Table.find? n rest := by
  cases skipped <;> simp [fieldUnless, Table.find?]

theorem find?_fieldUnless_last (skipped : Bool) (name : String) (v : Json) (n : Text) :
    Table.find? n (fieldUnless skipped name v) =
      if n = name.toList ∧ skipped = false then some v else none := by
  have h := find?_fieldUnless skipped name v n []
  rwa [List.append_nil] at h

/-- The value of a named slot. -/
def slot? (names : List Text) (name : Text) (j : Json) : Option Json :=
  (j.slots names).bind fun slot => slot name

theorem slot?_of_slots {names : List Text} {slot : Text → Option Json} {j : Json}
    (h : j.slots names = some slot) (name : Text) : j.slot? names name = slot name := by
  rw [slot?, h, Option.bind_some]

end Json

/-! ## Slots -/

/-- A setting that a document may have. -/
inductive Setting
  | tag
  | fallback
  | prefixes
  | partials
  | baseUrl
  | directory
  | timeout
  deriving DecidableEq, Repr

namespace Setting

def name : Setting → Text
  | tag => "local_template_tag".toList
  | fallback => "default_namespace".toList
  | prefixes => "prefixes".toList
  | partials => "partials".toList
  | baseUrl => "base_url".toList
  | directory => "directory".toList
  | timeout => "timeout_secs".toList

/-- The value that a document has for the setting. -/
def slot? (k : Setting) (j : Json) : Option Json :=
  match k with
  | tag | fallback | prefixes | partials => j.slot? Settings.names k.name
  | baseUrl | directory | timeout =>
    (j.slot? Settings.names "content".toList).bind (Json.slot? Source.names k.name)

/-- The value of the setting as it is written. -/
def written (k : Setting) (s : Settings) : Json :=
  match k with
  | tag => .string s.tag
  | fallback => .ofOptional s.namespaces.fallback
  | prefixes => .ofTextTable s.namespaces.prefixes
  | partials => .ofTextTable s.partials
  | baseUrl => .ofOptional s.source.baseUrl
  | directory => .ofOptional s.source.directory
  | timeout => .nat s.source.timeout.toNat

/-- Whether the setting may be left out in writing. -/
def optional : Setting → Bool
  | tag | timeout => false
  | _ => true

/-- Whether the setting is left out in writing. -/
def skipped (k : Setting) (s : Settings) : Bool :=
  match k with
  | tag | timeout => false
  | fallback => s.namespaces.fallback.isNone
  | prefixes => s.namespaces.prefixes.isEmpty
  | partials => s.partials.isEmpty
  | baseUrl => s.source.baseUrl.isNone
  | directory => s.source.directory.isNone

/-- What is left out has the default. -/
theorem skipped_iff (k : Setting) (s : Settings) :
    k.skipped s = true ↔ k.optional = true ∧ k.written s = k.written .default := by
  have hoptional (t : Option Text) : t.isNone = true ↔ Json.ofOptional t = Json.ofOptional none := by
    cases t <;> simp [Json.ofOptional]
  have htable (t : Table Text) : t.isEmpty = true ↔ Json.ofTextTable t = Json.ofTextTable [] := by
    cases t <;> simp [Json.ofTextTable]
  cases k with
  | tag => exact iff_of_false Bool.false_ne_true fun h => Bool.false_ne_true h.1
  | timeout => exact iff_of_false Bool.false_ne_true fun h => Bool.false_ne_true h.1
  | fallback => exact (hoptional _).trans (and_iff_right rfl).symm
  | prefixes => exact (htable _).trans (and_iff_right rfl).symm
  | partials => exact (htable _).trans (and_iff_right rfl).symm
  | baseUrl => exact (hoptional _).trans (and_iff_right rfl).symm
  | directory => exact (hoptional _).trans (and_iff_right rfl).symm

theorem slot?_source_toJson (s : Source) (n : Text) : s.toJson.slot? Source.names n =
    if n = baseUrl.name ∧ s.baseUrl.isNone = false then some (.ofOptional s.baseUrl)
    else if n = directory.name ∧ s.directory.isNone = false then some (.ofOptional s.directory)
    else if n = timeout.name then some (.nat s.timeout.toNat) else none := by
  change Table.find? n _ = _
  rw [List.append_assoc, Json.find?_fieldUnless, Json.find?_fieldUnless]
  rfl

theorem slot?_settings_toJson (s : Settings) (n : Text) : s.toJson.slot? Settings.names n =
    if n = "content".toList then some s.source.toJson
    else if n = fallback.name ∧ s.namespaces.fallback.isNone = false then
      some (.ofOptional s.namespaces.fallback)
    else if n = tag.name then some (.string s.tag)
    else if n = partials.name ∧ s.partials.isEmpty = false then some (.ofTextTable s.partials)
    else if n = prefixes.name ∧ s.namespaces.prefixes.isEmpty = false then
      some (.ofTextTable s.namespaces.prefixes)
    else none := by
  change Table.find? n _ = _
  simp only [List.append_assoc, List.cons_append, List.nil_append, Table.find?,
    Json.find?_fieldUnless, Json.find?_fieldUnless_last]
  rfl

theorem slot?_content_toJson (s : Settings) :
    s.toJson.slot? Settings.names "content".toList = some s.source.toJson :=
  rfl

theorem slot?_toJson (k : Setting) (s : Settings) :
    k.slot? s.toJson = if k.skipped s then none else some (k.written s) := by
  obtain ⟨tag, ⟨prefixes, fallback⟩, ⟨baseUrl, directory, timeout⟩, partials⟩ := s
  cases k with
  | tag =>
    rw [slot?, slot?_settings_toJson]
    rfl
  | fallback =>
    rw [slot?, slot?_settings_toJson]
    cases fallback <;> rfl
  | prefixes =>
    rw [slot?, slot?_settings_toJson]
    cases prefixes <;> rfl
  | partials =>
    rw [slot?, slot?_settings_toJson]
    cases partials <;> rfl
  | baseUrl =>
    rw [slot?, slot?_content_toJson, Option.bind_some, slot?_source_toJson]
    cases baseUrl <;> rfl
  | directory =>
    rw [slot?, slot?_content_toJson, Option.bind_some, slot?_source_toJson]
    cases directory <;> rfl
  | timeout =>
    rw [slot?, slot?_content_toJson, Option.bind_some, slot?_source_toJson]
    rfl

end Setting

/-! ## What is read -/

/-- The document has slots for the settings. -/
def Settings.HasSlots (j : Json) : Prop :=
  (j.slots names).isSome ∧ ∀ c, j.slot? names "content".toList = some c → (c.slots Source.names).isSome

theorem Source.ofJson?_eq_some_iff {j : Json} {s : Source} : ofJson? j = some s ↔
    (j.slots names).isSome ∧
      (j.slot? names "base_url".toList).getD .null = .ofOptional s.baseUrl ∧
      (j.slot? names "directory".toList).getD .null = .ofOptional s.directory ∧
      (j.slot? names "timeout_secs".toList).getD (.nat default.timeout.toNat) = .nat s.timeout.toNat := by
  constructor
  · intro h
    obtain ⟨slot, hslot, h⟩ := Option.bind_eq_some_iff.1 h
    obtain ⟨baseUrl, hb, h⟩ := Option.bind_eq_some_iff.1 h
    obtain ⟨directory, hd, h⟩ := Option.bind_eq_some_iff.1 h
    obtain ⟨timeout, ht, h⟩ := Option.bind_eq_some_iff.1 h
    obtain rfl := Option.some.inj h
    simp only [Json.slot?_of_slots hslot, hslot]
    exact ⟨rfl, Json.exact_optionalText.readOr_eq_some_iff.1 hb,
      Json.exact_optionalText.readOr_eq_some_iff.1 hd, Json.exact_word64.readOr_eq_some_iff.1 ht⟩
  · rintro ⟨hslots, hb, hd, ht⟩
    obtain ⟨slot, hslot⟩ := Option.isSome_iff_exists.1 hslots
    rw [Json.slot?_of_slots hslot] at hb hd ht
    have hbaseUrl : Json.readOr none Json.optionalText (slot "base_url".toList) = some s.baseUrl :=
      Json.exact_optionalText.readOr_eq_some_iff.2 hb
    have hdirectory : Json.readOr none Json.optionalText (slot "directory".toList) = some s.directory :=
      Json.exact_optionalText.readOr_eq_some_iff.2 hd
    have htimeout := Json.exact_word64.readOr_eq_some_iff.2 ht
    simp only [ofJson?, hslot, hbaseUrl, hdirectory, htimeout, Option.bind_eq_bind, Option.bind_some]
    rfl

/-- Where nothing is said about the source, each of its settings has the default. -/
theorem Source.readOr_eq_some_iff {o : Option Json} {s : Source} :
    Json.readOr default ofJson? o = some s ↔
      (∀ c, o = some c → (c.slots names).isSome) ∧
      (o.bind (Json.slot? names "base_url".toList)).getD .null = .ofOptional s.baseUrl ∧
      (o.bind (Json.slot? names "directory".toList)).getD .null = .ofOptional s.directory ∧
      (o.bind (Json.slot? names "timeout_secs".toList)).getD (.nat default.timeout.toNat) =
        .nat s.timeout.toNat := by
  cases o with
  | none =>
    constructor
    · intro h
      obtain rfl := Option.some.inj h
      exact ⟨nofun, rfl, rfl, rfl⟩
    · rintro ⟨-, hb, hd, ht⟩
      obtain ⟨baseUrl, directory, timeout⟩ := s
      obtain rfl := Json.exact_optionalText.injective (v := none) hb
      obtain rfl := Json.exact_optionalText.injective (v := none) hd
      obtain rfl := Json.exact_word64.injective ht
      rfl
  | some c =>
    refine ofJson?_eq_some_iff.trans (and_congr_left fun _ => ?_)
    exact ⟨fun h c' hc => Option.some.inj hc ▸ h, fun h => h c rfl⟩

namespace Settings

/-- A document has the settings whose values it holds or, where it leaves them out, are the defaults. -/
theorem ofJson?_eq_some_iff {j : Json} {s : Settings} : ofJson? j = some s ↔
    HasSlots j ∧ ∀ k : Setting, (k.slot? j).getD (k.written default) = k.written s := by
  constructor
  · intro h
    obtain ⟨slot, hslot, h⟩ := Option.bind_eq_some_iff.1 h
    obtain ⟨tag, ht, h⟩ := Option.bind_eq_some_iff.1 h
    obtain ⟨fallback, hf, h⟩ := Option.bind_eq_some_iff.1 h
    obtain ⟨prefixes, hx, h⟩ := Option.bind_eq_some_iff.1 h
    obtain ⟨source, hs, h⟩ := Option.bind_eq_some_iff.1 h
    obtain ⟨partials, hp, h⟩ := Option.bind_eq_some_iff.1 h
    obtain rfl := Option.some.inj h
    obtain ⟨hslots, hb, hd, hw⟩ := Source.readOr_eq_some_iff.1 hs
    refine ⟨⟨by rw [hslot]; rfl, by rwa [Json.slot?_of_slots hslot]⟩, fun k => ?_⟩
    cases k <;> simp only [Setting.slot?, Json.slot?_of_slots hslot]
    case tag => exact Json.exact_text?.readOr_eq_some_iff.1 ht
    case fallback => exact Json.exact_optionalText.readOr_eq_some_iff.1 hf
    case prefixes => exact Json.exact_textTable.readOr_eq_some_iff.1 hx
    case partials => exact Json.exact_textTable.readOr_eq_some_iff.1 hp
    case baseUrl => exact hb
    case directory => exact hd
    case timeout => exact hw
  · rintro ⟨⟨hslots, hcontent⟩, h⟩
    obtain ⟨slot, hslot⟩ := Option.isSome_iff_exists.1 hslots
    have hat := Json.slot?_of_slots hslot
    have htag : Json.readOr default.tag Json.text? (slot "local_template_tag".toList) = some s.tag := by
      rw [Json.exact_text?.readOr_eq_some_iff, ← hat]
      exact h .tag
    have hfallback : Json.readOr none Json.optionalText (slot "default_namespace".toList) =
        some s.namespaces.fallback := by
      rw [Json.exact_optionalText.readOr_eq_some_iff, ← hat]
      exact h .fallback
    have hprefixes : Json.readOr [] Json.textTable (slot "prefixes".toList) =
        some s.namespaces.prefixes := by
      rw [Json.exact_textTable.readOr_eq_some_iff, ← hat]
      exact h .prefixes
    have hsource : Json.readOr .default Source.ofJson? (slot "content".toList) = some s.source := by
      rw [Source.readOr_eq_some_iff, ← hat]
      exact ⟨hcontent, h .baseUrl, h .directory, h .timeout⟩
    have hpartials : Json.readOr [] Json.textTable (slot "partials".toList) = some s.partials := by
      rw [Json.exact_textTable.readOr_eq_some_iff, ← hat]
      exact h .partials
    simp only [ofJson?, hslot, htag, hfallback, hprefixes, hsource, hpartials, Option.bind_eq_bind,
      Option.bind_some]
    rfl

/-! ## Documents in writing -/

/-- The tables of the settings are in order. -/
structure Ordered (s : Settings) : Prop where
  prefixes : Table.Sorted s.namespaces.prefixes
  partials : Table.Sorted s.partials

end Settings

namespace Json

variable {depth : Nat} {v : Json} {skipped : Bool} {name : String}

theorem fieldUnless_sublist (skipped : Bool) (name : String) (v : Json) :
    (fieldUnless skipped name v).Sublist [(name.toList, v)] := by
  cases skipped
  · exact List.Sublist.refl _
  · exact List.nil_sublist _

theorem readable_fieldUnless (h : v.Readable depth) :
    ∀ f ∈ fieldUnless skipped name v, f.2.Readable depth := by
  intro f hf
  obtain rfl := List.mem_singleton.1 ((fieldUnless_sublist skipped name v).subset hf)
  exact h

theorem readable_ofOptional (t : Option Text) (depth : Nat) : (ofOptional t).Readable depth := by
  cases t
  · exact .null
  · exact .string

theorem readable_ofTextTable {t : Table Text} (h : Table.Sorted t) (depth : Nat) :
    (ofTextTable t).Readable (depth + 1) := by
  refine .object (Table.sorted_map_iff.2 h) fun f hf => ?_
  obtain ⟨p, -, rfl⟩ := List.mem_map.1 hf
  exact .string

theorem sorted_of_ordered {t : Table Text} (h : (ofTextTable t).Ordered) : Table.Sorted t := by
  cases h with
  | object hs _ => exact Table.sorted_map_iff.1 hs

theorem Ordered.slot? {names : List Text} {n : Text} {j : Json} (h : j.Ordered)
    (hs : j.slot? names n = some v) : v.Ordered := by
  obtain ⟨slot, hslot, hv⟩ := Option.bind_eq_some_iff.1 hs
  cases h with
  | object _ hfields =>
    obtain rfl := Option.some.inj hslot
    exact hfields _ (Table.mem_of_find? hv)
  | array hitems =>
    simp only [slots] at hslot
    split at hslot
    · obtain rfl := Option.some.inj hslot
      obtain ⟨l, l', hl, -⟩ := List.lookup_eq_some_iff.1 hv
      exact hitems v (List.of_mem_zip (hl ▸ List.mem_append_right l List.mem_cons_self)).2
    · cases hslot
  | _ => cases hslot

theorem readable_word64 (n : UInt64) (depth : Nat) : (nat n.toNat).Readable depth := by
  have hn : n.toNat < 2 ^ 64 := n.toNat_lt
  exact .integer ⟨by omega, by omega⟩

end Json

theorem Source.readable_toJson (s : Source) (depth : Nat) : s.toJson.Readable (depth + 1) := by
  refine .object ?_ ?_
  · have hall : Table.Sorted [("base_url".toList, Json.ofOptional s.baseUrl),
        ("directory".toList, Json.ofOptional s.directory),
        ("timeout_secs".toList, Json.nat s.timeout.toNat)] :=
      Table.sorted_of_keys (show names.Pairwise (· < ·) by decide)
    exact hall.sublist (((Json.fieldUnless_sublist _ _ _).append (Json.fieldUnless_sublist _ _ _)).append
      (List.Sublist.refl _))
  · simp only [List.forall_mem_append, List.forall_mem_singleton]
    exact ⟨⟨Json.readable_fieldUnless (Json.readable_ofOptional _ _),
      Json.readable_fieldUnless (Json.readable_ofOptional _ _)⟩, Json.readable_word64 _ _⟩

namespace Settings

theorem readable_toJson {s : Settings} (h : s.Ordered) (depth : Nat) :
    s.toJson.Readable (depth + 2) := by
  refine .object ?_ ?_
  · have hall : Table.Sorted [("content".toList, s.source.toJson),
        ("default_namespace".toList, Json.ofOptional s.namespaces.fallback),
        ("local_template_tag".toList, Json.string s.tag),
        ("partials".toList, Json.ofTextTable s.partials),
        ("prefixes".toList, Json.ofTextTable s.namespaces.prefixes)] :=
      Table.sorted_of_keys (show ["content".toList, "default_namespace".toList,
        "local_template_tag".toList, "partials".toList, "prefixes".toList].Pairwise (· < ·) by decide)
    exact hall.sublist (((((List.Sublist.refl [_]).append (Json.fieldUnless_sublist _ _ _)).append
      (List.Sublist.refl [_])).append (Json.fieldUnless_sublist _ _ _)).append
      (Json.fieldUnless_sublist _ _ _))
  · simp only [List.forall_mem_append, List.forall_mem_singleton]
    exact ⟨⟨⟨⟨s.source.readable_toJson depth, Json.readable_fieldUnless (Json.readable_ofOptional _ _)⟩,
      .string⟩, Json.readable_fieldUnless (Json.readable_ofTextTable h.partials depth)⟩,
      Json.readable_fieldUnless (Json.readable_ofTextTable h.prefixes depth)⟩

/-- The settings that a document in writing has. -/
def ofDocument? (text : Text) : Option Settings :=
  (Json.parse text).toOption.bind ofJson?

theorem ofDocument?_compact {s : Settings} (h : s.Ordered) : ofDocument? s.toJson.compact = some s := by
  rw [ofDocument?, Json.parse_compact (readable_toJson h 125)]
  exact ofJson?_toJson s

/-- The tables of a document in order are in order. -/
theorem ordered_of_ofJson? {j : Json} {s : Settings} (hj : j.Ordered) (h : ofJson? j = some s) :
    s.Ordered := by
  obtain ⟨-, hvalue⟩ := ofJson?_eq_some_iff.1 h
  have sorted {t : Table Text} {n : Text}
      (ht : (j.slot? names n).getD (.ofTextTable []) = .ofTextTable t) : Table.Sorted t := by
    refine Json.sorted_of_ordered (ht ▸ ?_)
    cases hslot : j.slot? names n with
    | none => exact .object Table.sorted_nil nofun
    | some v => exact hj.slot? hslot
  exact ⟨sorted (hvalue .prefixes), sorted (hvalue .partials)⟩

theorem ordered_of_ofDocument? {text : Text} {s : Settings} (h : ofDocument? text = some s) :
    s.Ordered := by
  obtain ⟨j, hj, hs⟩ := Option.bind_eq_some_iff.1 h
  exact ordered_of_ofJson? (Json.ordered_of_parse (Except.toOption_eq_some_iff.1 hj)) hs

/-- What a document leaves out when its settings are written again. -/
theorem slot?_toJson_eq_none_iff {j : Json} {s : Settings} (h : ofJson? j = some s) (k : Setting) :
    k.slot? s.toJson = none ↔
      k.optional = true ∧ (k.slot? j = none ∨ k.slot? j = some (k.written default)) := by
  have hvalue := (ofJson?_eq_some_iff.1 h).2 k
  have hskipped : k.slot? s.toJson = none ↔ k.optional = true ∧ k.written s = k.written default := by
    rw [k.slot?_toJson, ← k.skipped_iff]
    cases k.skipped s <;> simp
  rw [hskipped, and_congr_right_iff]
  intro _
  cases hslot : k.slot? j with
  | none =>
    rw [hslot] at hvalue
    exact iff_of_true hvalue.symm (.inl rfl)
  | some v =>
    rw [hslot] at hvalue
    obtain rfl : v = k.written s := hvalue
    simp

/-- Settings are read back from what is written, in values and in writing.  A document leaves out just what
may be left out and was left out before, `null`, or an empty object; reading restores it. -/
theorem read_written :
    (∀ s : Settings, ofJson? s.toJson = some s ∧ (s.Ordered → ofDocument? s.toJson.compact = some s)) ∧
    (∀ (j : Json) (s : Settings), ofJson? j = some s ↔
      HasSlots j ∧ ∀ k : Setting, (k.slot? j).getD (k.written default) = k.written s) ∧
    (∀ (j : Json) (s : Settings), ofJson? j = some s → ofJson? s.toJson = some s ∧ ∀ k : Setting,
      (k.slot? s.toJson = none ↔
        k.optional = true ∧ (k.slot? j = none ∨ k.slot? j = some (k.written default))) ∧
      (k.slot? s.toJson).getD (k.written default) = k.written s) ∧
    ∀ (text : Text) (s : Settings), ofDocument? text = some s →
      s.Ordered ∧ ofDocument? s.toJson.compact = some s := by
  refine ⟨fun s => ⟨ofJson?_toJson s, ofDocument?_compact⟩, fun j s => ofJson?_eq_some_iff,
    fun j s h => ⟨ofJson?_toJson s, fun k => ⟨slot?_toJson_eq_none_iff h k, ?_⟩⟩, fun text s h => ?_⟩
  · exact (ofJson?_eq_some_iff.1 (ofJson?_toJson s)).2 k
  · have hordered := ordered_of_ofDocument? h
    exact ⟨hordered, ofDocument?_compact hordered⟩

/-- A document with a setting of each kind that is left out, `null`, empty or given. -/
def mixedDocument : Json :=
  .object [("content".toList, .object [("directory".toList, .null),
      ("timeout_secs".toList, .nat (2 ^ 64 - 1))]),
    ("default_namespace".toList, .null), ("other".toList, .array []), ("partials".toList, .object []),
    ("prefixes".toList, .object [("a\"b".toList, .string ['é']), ("ex".toList, .string ['\n'])])]

def mixedSettings : Settings :=
  ⟨"template".toList, ⟨[("a\"b".toList, ['é']), ("ex".toList, ['\n'])], none⟩,
    ⟨none, none, UInt64.ofNat (2 ^ 64 - 1)⟩, []⟩

theorem read_written_mixed :
    ofJson? mixedDocument = some mixedSettings ∧
    ofDocument? mixedDocument.compact = some mixedSettings ∧
    ofDocument? mixedSettings.toJson.compact = some mixedSettings ∧
    Setting.fallback.slot? mixedSettings.toJson = none := by
  obtain ⟨hback, -, hagain, htext⟩ := read_written
  have hj : ofJson? mixedDocument = some mixedSettings := by decide
  have hread : ofDocument? mixedDocument.compact = some mixedSettings := by decide +kernel
  exact ⟨hj, hread, (hback mixedSettings).2 (htext _ _ hread).1,
    ((hagain _ _ hj).2 .fallback).1.2 ⟨rfl, .inr rfl⟩⟩

end Settings

end Stencil
