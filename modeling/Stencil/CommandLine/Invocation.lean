import Stencil.CommandLine.Switch
/-!
Invocations of the program: its commands, what they are told, and the arguments that say so.

The switches for all commands may stand before or after the name of a command; of a value that is given
in both places the latter counts.
-/

namespace Stencil.CommandLine

inductive Format
  | text
  | json
  deriving DecidableEq, Repr

/-- The data that a template is rendered with. -/
inductive Data
  | nothing
  | file (path : Text)
  | inline (document : Text)
  deriving DecidableEq, Repr

inductive Command
  /-- `partials` are further partials, each as a name and a path with an equals sign between. -/
  | render (template : Text) (data : Data) (partials : List Text) (offline : Bool)
  | dependencies (template : Text) (format : Format)
  | references (template : Text) (format : Format)
  | escape (markup : Text) (tag : Option Text)
  deriving DecidableEq, Repr

/-- How much the program tells of its work. -/
inductive Verbosity
  | verbose
  | quiet
  | usual
  deriving DecidableEq, Repr

namespace Verbosity

/-- The least grave kind of message that is shown. -/
def level : Verbosity → Text
  | verbose => "debug".toList
  | quiet => "error".toList
  | usual => "info".toList

end Verbosity

structure Invocation where
  verbosity : Verbosity
  /-- The settings file that is named. -/
  settings : Option Text
  command : Command
  deriving DecidableEq, Repr

/-! ## Levels -/

/-- The switches of every level. -/
def common : List Switch :=
  [.flag "verbose" 'v', .flag "quiet" 'q', .path "config" 'c', .information "help" 'h']

/-- The names of the formats. -/
def formats : List (String × Format) :=
  [("text", .text), ("json", .json)]

def format? (name : Text) : Option Format :=
  (formats.find? fun p => p.1.toList = name).map Prod.snd

def formatSwitch : Switch :=
  ⟨"format".toList, some 'f', .value fun v => (format? v).isSome, false⟩

/-- The switches of a command and how its arguments make one. -/
structure Reading where
  name : Text
  switches : List Switch
  command : Given → Text → Except Halt Command

/-- The format that is given, or else text. -/
def formatOf (g : Given) : Format :=
  ((g.value? "format").bind format?).getD .text

def renderReading : Reading where
  name := "render".toList
  switches := [.path "data" 'd', .text "json",
    ⟨"partial".toList, some 'p', .value fun _ => true, true⟩, ⟨"offline".toList, none, .flag, false⟩]
  command g template :=
    let partials := g.values "partial"
    match g.value? "data", g.value? "json" with
    | some _, some _ => .error .misuse
    | some path, none => .ok (.render template (.file path) partials (g.has "offline"))
    | none, some s => .ok (.render template (.inline s) partials (g.has "offline"))
    | none, none => .ok (.render template .nothing partials (g.has "offline"))

def dependenciesReading : Reading :=
  ⟨"deps".toList, [formatSwitch], fun g template => .ok (.dependencies template (formatOf g))⟩

def referencesReading : Reading :=
  ⟨"refs".toList, [formatSwitch], fun g template => .ok (.references template (formatOf g))⟩

def escapeReading : Reading :=
  ⟨"escape".toList, [.text "tag"], fun g markup => .ok (.escape markup (g.value? "tag"))⟩

def readings : List Reading :=
  [renderReading, dependenciesReading, referencesReading, escapeReading]

/-- The command that tells about the others. -/
def helpName : Text := "help".toList

/-- The names of all commands. -/
def names : List Text :=
  helpName :: readings.map Reading.name

def top : Level where
  switches := .information "version" 'V' :: common
  operands := 0
  commands := names

namespace Reading

/-- The level of a command, with one operand. -/
def level (r : Reading) : Level :=
  ⟨r.switches ++ common, 1, []⟩

end Reading

/-! ## Reading -/

/-- Whether the switches of a level contradict each other. -/
def contradicts (g : Given) : Bool :=
  g.has "verbose" && g.has "quiet"

def verbosityOf (outer inner : Given) : Verbosity :=
  if outer.has "verbose" || inner.has "verbose" then .verbose
  else if outer.has "quiet" || inner.has "quiet" then .quiet
  else .usual

/-- The invocation of a command with its arguments, after what was given before its name. -/
def invoke (outer : Given) (r : Reading) (args : List Text) : Except Halt Invocation := do
  let (inner, _) ← r.level.read false .empty args
  match inner.operands with
  | [] => .error .misuse
  | operand :: _ =>
    let command ← r.command inner operand
    if contradicts inner || contradicts outer then .error .misuse
    else
      return {
        verbosity := verbosityOf outer inner
        settings := (inner.value? "config").or (outer.value? "config")
        command }

/-- The invocation that arguments write. -/
def parse (args : List Text) : Except Halt Invocation := do
  match ← top.read false .empty args with
  | (_, none) => .error .misuse
  | (outer, some (name, rest)) =>
    match readings.find? fun r => r.name = name with
    | some r => invoke outer r rest
    | none =>
      match rest with
      | [] => .error .information
      | [name] => .error (if names.contains name then .information else .misuse)
      | _ => .error .misuse

end Stencil.CommandLine
