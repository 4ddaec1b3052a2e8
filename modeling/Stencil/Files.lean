import Stencil.Path
import Stencil.Report
import Stencil.Table
/-!
What is known of the files that a run may read, and what reading a path gives.

Directories are those that a file lies in, and those above the working directory, in which nothing else
is known.
-/

namespace Stencil

/-- What kept a path from being read: the kind of fault and the system's message. -/
structure ReadError where
  fault : FileFault
  message : Text
  deriving DecidableEq, Repr

namespace ReadError

def missing : ReadError :=
  ⟨.notFound, "No such file or directory (os error 2)".toList⟩

def notDirectory : ReadError :=
  ⟨.other, "Not a directory (os error 20)".toList⟩

def isDirectory : ReadError :=
  ⟨.other, "Is a directory (os error 21)".toList⟩

def nameTooLong : ReadError :=
  ⟨.other, "File name too long (os error 36)".toList⟩

def nulInName : ReadError :=
  ⟨.other, "file name contained an unexpected NUL byte".toList⟩

/-- The failure to read, as a cause. -/
def cause (e : ReadError) : Cause :=
  .file e.fault e.message

end ReadError

structure Files where
  /-- The contents of files by their paths. -/
  contents : Table Text
  /-- Paths at which something is that cannot be read. -/
  faults : Table ReadError
  deriving Repr

namespace Files

/-- A place in the tree. -/
inductive Place
  /-- `ups` levels above the working directory and then down the given steps, innermost first. -/
  | directory (ups : Nat) (down : List Text)
  | file (content : Text)
  deriving DecidableEq, Repr

/-- The longest name that a step may have, in bytes. -/
def longestName : Nat := 255

/-- The longest path, in bytes. -/
def longestPath : Nat := 4095

/-- The entry of a directory; `steps` lead to it from the working directory. -/
def entry (files : Files) (steps : List Text) : Option Place :=
  let path := Text.join ['/'] steps
  match files.contents.find? path with
  | some content => some (.file content)
  | none =>
    if files.contents.keys.any (Text.startsWith (path ++ ['/'])) then
      some (.directory 0 steps.reverse)
    else none

/-- Goes from a place along the steps of a path. -/
def follow (files : Files) : Place → List Text → Except ReadError Place
  | place, [] => .ok place
  | .file _, _ :: _ => .error .notDirectory
  | .directory ups down, step :: rest =>
    if Path.isIdle step then follow files (.directory ups down) rest
    else if step = ['.', '.'] then
      match down with
      | [] => follow files (.directory (ups + 1) []) rest
      | _ :: above => follow files (.directory ups above) rest
    else if longestName < Text.size step then .error .nameTooLong
    else if ups ≠ 0 then .error .missing
    else
      match files.entry (down.reverse ++ [step]) with
      | some place => follow files place rest
      | none => .error .missing

/-- The place that a path leads to. -/
def locate (files : Files) (path : Text) : Except ReadError Place :=
  if path.contains '\x00' then .error .nulInName
  else if path.isEmpty then .error .missing
  else if longestPath < Text.size path then .error .nameTooLong
  else
    let origin : Place := if Path.isAbsolute path then .directory 1 [] else .directory 0 []
    follow files origin (Text.splitAll '/' path)

/-- Whether there is a file or directory at a path. -/
def exists? (files : Files) (path : Text) : Bool :=
  (files.faults.find? path).isSome || (files.locate path).toOption.isSome

/-- The content of the file at a path; a path that is a key as it stands needs no steps. -/
def read (files : Files) (path : Text) : Except ReadError Text :=
  match files.faults.find? path, files.contents.find? path with
  | some e, _ => .error e
  | none, some content => .ok content
  | none, none =>
    match files.locate path with
    | .error e => .error e
    | .ok (.directory _ _) => .error .isDirectory
    | .ok (.file content) => .ok content

/-! ## Reading is finite

A file that is read lies under a key whose last step is the last step of the path (`read_lastStep`). -/

/-- The last step of a path. -/
def lastStep (path : Text) : Text :=
  (path.reverse.takeWhile (· ≠ '/')).reverse

theorem takeWhile_name {name : Text} (rest : Text) (h : '/' ∉ name) :
    (name.reverse ++ rest).takeWhile (· ≠ '/') = name.reverse ++ rest.takeWhile (· ≠ '/') := by
  apply List.takeWhile_append_of_pos
  intro c hc
  simp only [ne_eq, decide_eq_true_eq]
  rintro rfl
  exact h (List.mem_reverse.1 hc)

theorem lastStep_append {name : Text} (before : Text) (h : '/' ∉ name) :
    lastStep (before ++ '/' :: name) = name := by
  have := takeWhile_name ('/' :: before.reverse) h
  simp only [lastStep, List.reverse_append, List.reverse_cons, List.append_assoc,
    List.singleton_append]
  rw [this]
  simp

theorem lastStep_self {name : Text} (h : '/' ∉ name) : lastStep name = name := by
  have := takeWhile_name [] h
  simp only [List.append_nil, List.takeWhile_nil] at this
  rw [lastStep, this, List.reverse_reverse]

theorem lastStep_join (steps : List Text) {name : Text} (h : '/' ∉ name) :
    lastStep (Text.join ['/'] (steps ++ [name])) = name := by
  cases steps with
  | nil => simpa [Text.join] using lastStep_self h
  | cons s r =>
    have : ∃ before, Text.join ['/'] (s :: r ++ [name]) = before ++ '/' :: name := by
      induction r generalizing s with
      | nil => exact ⟨s, by simp [Text.join, List.intercalate, List.intersperse]⟩
      | cons t r ih =>
        obtain ⟨b, hb⟩ := ih t
        refine ⟨s ++ '/' :: b, ?_⟩
        simp only [Text.join, List.intercalate, List.cons_append] at hb ⊢
        rw [List.intersperse_cons_cons]
        simp [hb]
    obtain ⟨b, hb⟩ := this
    rw [hb, lastStep_append b h]

theorem splitAll_self {name : Text} (h : '/' ∉ name) : Text.splitAll '/' name = [name] := by
  induction name with
  | nil => rfl
  | cons c r ih =>
    simp only [List.mem_cons, not_or] at h
    simp [Text.splitAll, ih h.2, Ne.symm h.1]

theorem splitAll_append (before : Text) {name : Text} (h : '/' ∉ name) :
    ∃ s steps, Text.splitAll '/' (before ++ '/' :: name) = s :: steps ++ [name] := by
  induction before with
  | nil => exact ⟨[], [], by simp [Text.splitAll, splitAll_self h]⟩
  | cons c r ih =>
    obtain ⟨s, steps, hs⟩ := ih
    rw [List.cons_append, Text.splitAll, hs]
    by_cases hc : c = '/'
    · exact ⟨[], s :: steps, by simp [hc]⟩
    · exact ⟨c :: s, steps, by simp [hc]⟩

theorem follow_append (files : Files) (place : Place) (xs ys : List Text) :
    files.follow place (xs ++ ys) =
      match files.follow place xs with
      | .error e => .error e
      | .ok p => files.follow p ys := by
  induction xs generalizing place with
  | nil => simp [follow]
  | cons x xs ih =>
    cases place with
    | file c => simp [follow]
    | directory ups down =>
      simp only [List.cons_append, follow]
      split
      · exact ih _
      · split
        · split <;> exact ih _
        · split
          · rfl
          · split
            · rfl
            · split
              · exact ih _
              · rfl

/-- A file found by one step is one of the files. -/
theorem follow_last {files : Files} {place : Place} {name content : Text} (hn : '/' ∉ name)
    (hi : Path.isIdle name = false) (hu : name ≠ ['.', '.'])
    (h : files.follow place [name] = .ok (.file content)) :
    ∃ k ∈ files.contents.keys, lastStep k = name := by
  cases place with
  | file c => simp [follow] at h
  | directory ups down =>
    simp only [follow, hi, hu, Bool.false_eq_true, if_false] at h
    split at h
    · simp at h
    · split at h
      · simp at h
      · split at h
        · next place hp =>
          obtain rfl := Except.ok.inj h
          unfold entry at hp
          simp only at hp
          split at hp
          · next c hc =>
            exact ⟨_, Table.mem_keys_of_find? hc, lastStep_join _ hn⟩
          · split at hp <;> simp at hp
        · simp at h

theorem read_lastStep {files : Files} {path name content : Text} (hn : '/' ∉ name)
    (hi : Path.isIdle name = false) (hu : name ≠ ['.', '.'])
    (hp : path = name ∨ ∃ before, path = before ++ '/' :: name)
    (h : files.read path = .ok content) : ∃ k ∈ files.contents.keys, lastStep k = name := by
  obtain ⟨steps, hs⟩ : ∃ steps, Text.splitAll '/' path = steps ++ [name] := by
    rcases hp with rfl | ⟨before, rfl⟩
    · exact ⟨[], by simp [splitAll_self hn]⟩
    · obtain ⟨s, r, hs⟩ := splitAll_append before hn
      exact ⟨s :: r, hs⟩
  unfold read at h
  split at h
  · simp at h
  · next hf =>
    refine ⟨path, Table.mem_keys_of_find? hf, ?_⟩
    rcases hp with rfl | ⟨before, rfl⟩
    · exact lastStep_self hn
    · exact lastStep_append before hn
  · split at h
    · simp at h
    · simp at h
    · next c hl =>
      unfold locate at hl
      split at hl
      · simp at hl
      · split at hl
        · simp at hl
        · split at hl
          · simp at hl
          · simp only [hs, follow_append] at hl
            split at hl
            · simp at hl
            · exact follow_last hn hi hu hl

end Files

end Stencil
