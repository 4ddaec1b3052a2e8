import Stencil.Files
import Stencil.Resolution
import Stencil.Text.Percent
/-!
Content services: where the markup of remote templates comes from.
-/

namespace Stencil

/-- What comes of a request to an endpoint. -/
inductive Reply
  /-- The request could not be sent, for these causes. -/
  | unsent (causes : List Text)
  /-- The response has a status that is no success. -/
  | refused (status : Text)
  /-- The response cannot be read, for these causes. -/
  | malformed (causes : List Text)
  | source (markup : Text)

/-- An endpoint, with what comes of the requests to it. -/
structure Endpoint where
  url : Text
  reply : Text → Reply
  /-- A platform has finitely many templates. -/
  finite : ∃ known : List Text, ∀ r m, reply r = .source m → r ∈ known

/-- An endpoint that no request gets to. -/
def Endpoint.unreachable (url : Text) : Endpoint where
  url
  reply _ := .unsent []
  finite := ⟨[], fun _ _ h => nomatch h⟩

/-- The kinds of service.  The table of a memory service belongs to the session, which may change it. -/
inductive Service
  | memory
  | directory (root : Text) (files : Files)
  | endpoint (platform : Endpoint)
  | unconfigured

/-- The markup in a reply to a request for an identifier, or the messages of what went wrong. -/
def Reply.markup (identifier : Text) : Reply → Except (List Text) Text
  | unsent causes => .error (("Failed to request template ".toList ++ quoted identifier) :: causes)
  | refused status =>
    .error ["Template source request for ".toList ++ quoted identifier ++ " failed: HTTP ".toList ++ status]
  | malformed causes =>
    .error (("Invalid template source response for ".toList ++ quoted identifier) :: causes)
  | source markup => .ok markup

namespace Service

/-- The path that answers below the base of a platform. -/
def endpointPath : Text := "rest/template/source".toList

/-- The address that answers for the platform at a base address. -/
def endpointOf (base : Text) : Text :=
  Text.trimEndBy (· = '/') base ++ '/' :: endpointPath

/-- The name of the file that holds the markup of an identifier. -/
def fileName (identifier : Text) : Text :=
  Text.Percent.encode identifier ++ ".html".toList

/-- The file of a directory service that holds the markup of an identifier. -/
def pathFor (root identifier : Text) : Text :=
  Path.join root (fileName identifier)

/-- The markup of an identifier, or the messages of what went wrong, outermost first. -/
def markup (s : Service) (shelf : Table Text) (identifier : Text) : Except (List Text) Text :=
  match s with
  | memory =>
    match shelf.find? identifier with
    | some m => .ok m
    | none => .error ["Template ".toList ++ quoted identifier ++ " does not exist".toList]
  | directory root files =>
    let path := pathFor root identifier
    (files.read path).mapError fun e =>
      ["Failed to read template file: ".toList ++ path, e.message]
  | endpoint platform => (platform.reply identifier).markup identifier
  | unconfigured =>
    .error ["Cannot fetch remote template ".toList ++ quoted identifier ++
      ": no content source configured (set [content].base_url or [content].directory)".toList]

end Service

/-- A service, the markup on the shelf of the memory service, and how often that was asked for each
identifier. -/
structure Content where
  service : Service
  shelf : Table Text
  calls : Table Nat

namespace Content

def markup (c : Content) (identifier : Text) : Except (List Text) Text :=
  c.service.markup c.shelf identifier

/-- The content after a request for an identifier. -/
def asked (c : Content) (identifier : Text) : Content :=
  match c.service with
  | .memory => { c with calls := c.calls.insert identifier ((c.calls.find? identifier).getD 0 + 1) }
  | _ => c

def callCount (c : Content) (identifier : Text) : Nat :=
  (c.calls.find? identifier).getD 0

def totalCalls (c : Content) : Nat :=
  c.calls.foldl (fun n p => n + p.2) 0

def put (c : Content) (identifier markup : Text) : Content :=
  { c with shelf := c.shelf.insert identifier markup }

def remove (c : Content) (identifier : Text) : Content :=
  { c with shelf := c.shelf.erase identifier }

end Content

/-! ## A service has markup for finitely many identifiers -/

namespace Service

theorem fileName_injective {a b : Text} (h : fileName a = fileName b) : a = b :=
  Text.Percent.encode_injective (List.append_cancel_right h)

theorem encodeByte_ne_slash : ∀ n : Nat, n < 256 →
    '/' ∉ Text.Percent.encodeByte (UInt8.ofNat n) := by
  decide +kernel

theorem slash_notMem_fileName (identifier : Text) : '/' ∉ fileName identifier := by
  unfold fileName Text.Percent.encode Text.Percent.encodeBytes
  simp only [List.mem_append, List.mem_flatMap, not_or, not_exists, not_and]
  refine ⟨fun b _ => ?_, by decide⟩
  have := encodeByte_ne_slash b.toNat b.toNat_lt
  rwa [UInt8.ofNat_toNat] at this

theorem fileName_reverse (identifier : Text) :
    (fileName identifier).reverse =
      'l' :: 'm' :: 't' :: 'h' :: '.' :: (Text.Percent.encode identifier).reverse := by
  simp [fileName]

theorem isIdle_fileName (identifier : Text) : Path.isIdle (fileName identifier) = false := by
  have h := fileName_reverse identifier
  cases hf : fileName identifier with
  | nil => simp [hf] at h
  | cons c r =>
    cases r with
    | nil => simp [hf] at h
    | cons d r => simp [Path.isIdle]

theorem fileName_ne_up (identifier : Text) : fileName identifier ≠ ['.', '.'] := by
  intro hf
  have h := fileName_reverse identifier
  simp [hf] at h

theorem pathFor_eq (root identifier : Text) : pathFor root identifier = fileName identifier ∨
    ∃ before, pathFor root identifier = before ++ '/' :: fileName identifier := by
  have hr : Path.isAbsolute (fileName identifier) = false := by
    have := slash_notMem_fileName identifier
    unfold Path.isAbsolute
    cases hf : fileName identifier with
    | nil => rfl
    | cons c r =>
      rw [hf] at this
      simp only [List.mem_cons, not_or] at this
      simp [Ne.symm this.1]
  have he : pathFor root identifier = Path.join root (fileName identifier) := rfl
  rw [he, Path.join, hr]
  by_cases h : root = []
  · exact .inl (by simp [h])
  · by_cases h' : root.getLast? = some '/'
    · obtain ⟨before, hb⟩ := List.getLast?_eq_some_iff.1 h'
      exact .inr ⟨before, by simp [hb]⟩
    · exact .inr ⟨root, by simp [h, h']⟩

theorem markup_finite (s : Service) (shelf : Table Text) :
    ∃ known : List Text, ∀ r m, s.markup shelf r = .ok m → r ∈ known := by
  cases s with
  | memory =>
    refine ⟨shelf.keys, fun r m h => ?_⟩
    simp only [markup] at h
    split at h
    · next hm => exact Table.mem_keys_of_find? hm
    · simp at h
  | directory root files =>
    let owner (k : Text) : List Text :=
      open Classical in
      if h : ∃ r, fileName r = Files.lastStep k then [Classical.choose h] else []
    refine ⟨files.contents.keys.flatMap owner, fun r m h => ?_⟩
    simp only [markup] at h
    cases hr : files.read (pathFor root r) with
    | error e =>
      rw [hr] at h
      exact nomatch h
    | ok c =>
      obtain ⟨k, hk, hl⟩ := Files.read_lastStep (slash_notMem_fileName r) (isIdle_fileName r)
        (fileName_ne_up r) (pathFor_eq root r) hr
      refine List.mem_flatMap.2 ⟨k, hk, ?_⟩
      have hex : ∃ r, fileName r = Files.lastStep k := ⟨r, hl.symm⟩
      have : r = Classical.choose hex :=
        fileName_injective (hl.symm.trans (Classical.choose_spec hex).symm)
      simp only [owner, dif_pos hex, List.mem_singleton]
      exact this
  | endpoint platform =>
    obtain ⟨known, hk⟩ := platform.finite
    refine ⟨known, fun r m h => hk r m ?_⟩
    simp only [markup] at h
    cases hr : platform.reply r with
    | source m' =>
      rw [hr] at h
      exact congrArg Reply.source (Except.ok.inj h)
    | unsent _ | refused _ | malformed _ =>
      rw [hr] at h
      exact nomatch h
  | unconfigured => exact ⟨[], fun r m h => by simp [markup] at h⟩

end Service

end Stencil
