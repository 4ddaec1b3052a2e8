import Stencil.Engine
import Stencil.Settings
import Stencil.Toml
/-!
Loading settings from a file, and setting up the engine that they describe.

Relative paths in a settings file are seen from the directory of the file.
-/

namespace Stencil.Settings

/-- The settings file that is read, if it exists, when no other is named. -/
def defaultFile : Text := "tscope.toml".toList

/-- The settings with their relative paths seen from `base`. -/
def seenFrom (base : Text) (s : Settings) : Settings :=
  { s with
    source := { s.source with directory := s.source.directory.map (Path.join base) }
    partials := s.partials.map fun p => (p.1, Path.join base p.2) }

/-- The settings that the text of a file writes. -/
def ofText (s : Text) : Except Cause Settings :=
  match Toml.parse s with
  | .error n =>
    let place := "line ".toList ++ Text.ofNat n
    .error (.settings "the line is malformed".toList (place ++ ": the line is malformed".toList))
  | .ok j =>
    match ofJson? j with
    | some s => .ok s
    | none =>
      let reason := "a setting has a value of another kind".toList
      .error (.settings reason reason)

/-- The settings of the file at a path. -/
def ofFile (files : Files) (path : Text) : Except Failure Settings :=
  let failed (doing : String) (cause : Cause) : Except Failure Settings :=
    .error ((Failure.ofCause cause).during (doing.toList ++ path))
  match files.read path with
  | .error e => failed "Failed to read config from " e.cause
  | .ok text =>
    match ofText text with
    | .error cause => failed "Failed to parse config from " cause
    | .ok s =>
      match s.fault? with
      | some fault => failed "Invalid config in " (.other fault.message)
      | none => .ok (s.seenFrom ((Path.parent? path).getD ['.']))

/-- The settings of the file that is named, or of the default file; without either, the default
settings. -/
def load (files : Files) (path : Option Text) : Except Failure Settings :=
  match path with
  | some path => ofFile files path
  | none => if files.exists? defaultFile then ofFile files defaultFile else .ok default

/-- The content service that the settings describe.  The program itself sends no requests. -/
def service (s : Settings) (files : Files) : Service :=
  match s.source.baseUrl, s.source.directory with
  | some url, _ => .endpoint (.unreachable (Service.endpointOf url))
  | none, some root => .directory root files
  | none, none => .unconfigured

/-- The markup of a partial that is read from a file. -/
def readPartial (files : Files) (name path : Text) : Except Failure Text :=
  (files.read path).mapError fun e =>
    (Failure.ofCause e.cause).during
      ("Failed to read partial ".toList ++ quoted name ++ " from ".toList ++ path)

/-- The markup of all partials of the main scope. -/
def readPartials (files : Files) : Table Text → Except Failure (Table Text)
  | [] => .ok []
  | (name, path) :: rest => do
    let markup ← readPartial files name path
    return (name, markup) :: (← readPartials files rest)

/-- The engine that the settings describe. -/
def engine (s : Settings) (objection : Objection) (files : Files) : Except Failure Engine := do
  let partials ← readPartials files s.partials
  (Engine.start s.expander s.escaper Helper.defaults objection (s.service files) [] partials).mapError
    fun e => (Failure.ofTemplate e).during "Failed to set up the default template scope".toList

end Stencil.Settings
