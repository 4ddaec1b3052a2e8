import Stencil.CommandLine.Invocation
import Stencil.Outline
import Stencil.Render
import Stencil.Settings.Load
/-!
The commands of the program: rendering a template, showing what it depends on, listing its references,
and escaping markup.

A command comes to the text that is printed, or to a failure.  `Run` also tells which remote templates
were asked for, since their files may have to be read first.
-/

namespace Stencil.CommandLine

/-- What a command comes to. -/
structure Run where
  result : Except Failure Text
  /-- The identifiers of the remote templates that were fetched. -/
  fetched : List Text

namespace Run

def failed (f : Failure) : Run :=
  ⟨.error f, []⟩

end Run

/-! ## Input -/

/-- Whether a path stands for the standard input. -/
def isStandardInput (path : Text) : Bool :=
  let (start, body) := Path.split path
  start.isEmpty && ((Text.splitAll '/' body).filter fun s => !Path.isIdle s) = [['-']]

/-- The template at a path. -/
def readInput (stdin : Text) (files : Files) (path : Text) : Except Failure Text :=
  if isStandardInput path then .ok stdin
  else (files.read path).mapError fun e =>
    (Failure.ofCause e.cause).during ("Failed to read template from ".toList ++ path)

/-- The value of a document of data. -/
def readDocument (doing s : Text) : Except Failure Json :=
  (Json.parse s).mapError fun fault => (Failure.ofCause (.data fault.message)).during doing

def readData (files : Files) : Data → Except Failure Json
  | .nothing => .ok (.object [])
  | .inline s => readDocument "Failed to parse --json data".toList s
  | .file path =>
    match files.read path with
    | .error e =>
      .error ((Failure.ofCause e.cause).during ("Failed to read data from ".toList ++ path))
    | .ok s => readDocument ("Failed to parse data from ".toList ++ path) s

/-- The name and the path that an argument gives for a partial. -/
def partialArgument (arg : Text) : Except Failure (Text × Text) :=
  match Text.splitOnce '=' arg with
  | some (c :: name, d :: path) => .ok (c :: name, d :: path)
  | _ =>
    .error (Failure.ofCause (.other
      ("Invalid partial ".toList ++ quoted arg ++ ", expected NAME=FILE".toList)))

/-! ## Commands -/

/-- Registers further partials in a draft. -/
def addPartials (e : Expander) (files : Files) (d : Draft) : List Text → Except Failure Draft
  | [] => .ok d
  | arg :: rest => do
    let (name, path) ← partialArgument arg
    let markup ← Settings.readPartial files name path
    let d ← (d.register e name (.markup markup)).mapError Failure.ofTemplate
    addPartials e files d rest

/-- The number of the scope in which a template is compiled: the main one, or one with further
partials. -/
def scopeWith (e : Engine) (files : Files) (partials : List Text) :
    Except Failure (Nat × Engine) :=
  if partials.isEmpty then .ok (0, e)
  else do
    let d ← addPartials e.expander files e.main.draft partials
    (e.build d).mapError Failure.ofTemplate

/-- The identifiers that an engine has fetched. -/
def fetchedBy (e : Engine) : List Text :=
  e.fetches.settled.map fun p => p.1.identifier

/-- Pages that insert each other without end use up the stack of the process; this is its size in pages. -/
def stackLimit : Render.Limit :=
  ⟨4000, "pages are nested too deeply".toList⟩

/-- Compiles a template and renders it. -/
def renderIn (e : Engine) (n : Nat) (offline : Bool) (path source : Text) (data : Json) : Run :=
  let doing := "Failed to compile ".toList ++ path
  match if offline then e.compileLocal n source else e.compile n source with
  | none => .failed (Failure.ofCause (.other doing))
  | some (.error err, e) => ⟨.error ((Failure.ofTemplate err).during doing), fetchedBy e⟩
  | some (.ok c, e) =>
    let text := (e.scope? n).map fun s => s.render (Render.runtime stackLimit) c data
    ⟨(text.getD (.ok [])).mapError Failure.ofTemplate, fetchedBy e⟩

/-- The references of each dependency. -/
def ownReferences (deps : Table Instance) : Table (List Text) :=
  deps.map fun d => (d.1, d.2.references)

/-- What a template depends on, in writing. -/
def dependenciesText (format : Format) (title : Text) (root : Template) (deps : Table Instance) :
    Text :=
  match format with
  | .text => Outline.text title (outline (ownReferences deps) root.references)
  | .json =>
    let shown := (ownReferences deps).map fun d =>
      (d.1, Json.ofFields [("references".toList, .texts d.2)])
    Json.indented 0 (.ofFields
      [("references".toList, .texts root.references), ("dependencies".toList, .object shown)])
      ++ ['\n']

/-- Resolves what a template depends on. -/
def dependenciesIn (e : Engine) (format : Format) (path source : Text) : Run :=
  match e.parse source with
  | .error err => .failed (Failure.ofTemplate err)
  | .ok root =>
    match e.resolve e.main root with
    | (.error err, e) =>
      ⟨.error ((Failure.ofTemplate err).during ("Failed to resolve ".toList ++ path)), fetchedBy e⟩
    | (.ok deps, e) => ⟨.ok (dependenciesText format path root deps), fetchedBy e⟩

/-- A remote reference and the identifier it expands to, on one line. -/
def remoteLine (e : Expander) (reference : Text) : Text :=
  let full := e.expand reference
  "remote  ".toList ++ reference ++
    (if full = reference then [] else " -> ".toList ++ full) ++ ['\n']

/-- The references of a template, in writing. -/
def referencesText (format : Format) (e : Expander) (nodes : List Node) : Text :=
  let locals := Node.localNames nodes
  let remotes := Node.remoteNames nodes
  match format with
  | .text =>
    locals.flatMap (fun r => "local   ".toList ++ r ++ ['\n']) ++ remotes.flatMap (remoteLine e)
  | .json =>
    let remote (r : Text) : Json :=
      .ofFields [("reference".toList, .string r), ("identifier".toList, .string (e.expand r))]
    Json.indented 0 (.ofFields
      [("local".toList, .texts locals), ("remote".toList, .array (remotes.map remote))]) ++ ['\n']

/-! ## Running -/

/-- A run that begins with the engine of the settings and with the template. -/
def withEngine (s : Settings) (stdin : Text) (files : Files) (path : Text)
    (run : Engine → Text → Run) : Run :=
  match s.engine Render.objection files with
  | .error f => .failed f
  | .ok e =>
    match readInput stdin files path with
    | .error f => .failed f
    | .ok source => run e source

namespace Command

/-- Runs a command under the given settings. -/
def run (s : Settings) (stdin : Text) (files : Files) : Command → Run
  | .render path data partials offline =>
    withEngine s stdin files path fun e source =>
      let prepared : Except Failure (Json × Nat × Engine) := do
        let data ← readData files data
        return (data, ← scopeWith e files partials)
      match prepared with
      | .error f => .failed f
      | .ok (data, n, e) => renderIn e n offline path source data
  | .dependencies path format =>
    withEngine s stdin files path fun e source => dependenciesIn e format path source
  | .references path format =>
    let text := do
      let source ← readInput stdin files path
      let nodes ← (Stencil.parse source).mapError fun e =>
        Failure.ofTemplate (.ofSyntax source e)
      return referencesText format s.expander nodes
    ⟨text, []⟩
  | .escape path tag =>
    let text := do
      let markup ← readInput stdin files path
      let escaper := (tag.map Escaper.named).getD s.escaper
      (escaper.escape markup).mapError fun d =>
        (Failure.ofTemplate (.disallowed d)).during ("Failed to escape ".toList ++ path)
    ⟨text, []⟩

end Command

namespace Invocation

/-- Runs the command of an invocation. -/
def run (i : Invocation) (stdin : Text) (files : Files) : Run :=
  match Settings.load files i.settings with
  | .error f => .failed f
  | .ok s => i.command.run s stdin files

/-! ## Files -/

/-- The template or markup that the command works on. -/
def input (i : Invocation) : Text :=
  match i.command with
  | .render path _ _ _ | .dependencies path _ | .references path _ | .escape path _ => path

def readsStandardInput (i : Invocation) : Bool :=
  isStandardInput i.input

/-- The paths that the arguments name. -/
def paths (i : Invocation) : List Text :=
  let further :=
    match i.command with
    | .render _ (.file data) partials _ => data :: partials.filterMap partialPath
    | .render _ _ partials _ => partials.filterMap partialPath
    | _ => []
  i.settings.getD Settings.defaultFile ::
    (if i.readsStandardInput then further else i.input :: further)
where
  partialPath (arg : Text) : Option Text := (partialArgument arg).toOption.map Prod.snd

/-- All paths that a run reads, as far as what is known of the files tells. -/
def wanted (i : Invocation) (stdin : Text) (files : Files) : List Text :=
  match Settings.load files i.settings with
  | .error _ => i.paths
  | .ok s =>
    let fetched :=
      match s.source.directory with
      | some root => (i.run stdin files).fetched.map (Service.pathFor root)
      | none => []
    i.paths ++ s.partials.map Prod.snd ++ fetched

end Invocation

end Stencil.CommandLine
