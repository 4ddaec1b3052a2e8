import Stencil.Text
/-!
Reading the arguments of one level of a command line: switches with a long and perhaps a short name, and
operands.

Short switches may be run together (`-vq`).  A value may be attached (`--name=value`, `-nvalue`,
`-n=value`) or stand in the next argument, where it must not look like a switch.  After `--` all is
operands.  The first fault from the left counts; a switch that asks for information, such as `--help`,
ends the reading where it stands.
-/

namespace Stencil.CommandLine

/-- Why the arguments do not lead to a command. -/
inductive Halt
  /-- The arguments are wrong. -/
  | misuse
  /-- A text about the program is wanted. -/
  | information
  deriving DecidableEq, Repr

inductive Kind
  | flag
  /-- A switch with a value, which must be accepted. -/
  | value (accepts : Text → Bool)
  | information

structure Switch where
  name : Text
  short : Option Char
  kind : Kind
  /-- Whether it may be given more than once. -/
  repeats : Bool

namespace Switch

def flag (name : String) (short : Char) : Switch :=
  ⟨name.toList, some short, .flag, false⟩

def information (name : String) (short : Char) : Switch :=
  ⟨name.toList, some short, .information, false⟩

/-- A switch with a value that is a path, which is never empty. -/
def path (name : String) (short : Char) : Switch :=
  ⟨name.toList, some short, .value fun v => !v.isEmpty, false⟩

/-- A switch with a value of any kind and no short name. -/
def text (name : String) : Switch :=
  ⟨name.toList, none, .value fun _ => true, false⟩

end Switch

/-- What a level accepts. -/
structure Level where
  switches : List Switch
  /-- How many operands there may be. -/
  operands : Nat
  /-- The names of the levels below. -/
  commands : List Text

/-- What has been given at a level, in order. -/
structure Given where
  /-- Names of switches and their values; flags have the empty value. -/
  switches : List (Text × Text)
  operands : List Text
  deriving DecidableEq, Repr

namespace Given

def empty : Given := ⟨[], []⟩

def has (g : Given) (name : String) : Bool :=
  g.switches.any fun p => p.1 = name.toList

/-- The values of a switch. -/
def values (g : Given) (name : String) : List Text :=
  (g.switches.filter fun p => p.1 = name.toList).map Prod.snd

def value? (g : Given) (name : String) : Option Text :=
  (g.values name).head?

/-- Takes note of a switch and its value. -/
def note (g : Given) (s : Switch) (value : Text) : Except Halt Given :=
  let accepted :=
    match s.kind with
    | .value accepts => accepts value
    | _ => true
  if accepted && (s.repeats || !g.switches.any fun p => p.1 = s.name) then
    .ok { g with switches := g.switches ++ [(s.name, value)] }
  else .error .misuse

/-- Takes note of an operand, which is never empty. -/
def noteOperand (g : Given) (l : Level) (operand : Text) : Except Halt Given :=
  if operand.isEmpty || l.operands ≤ g.operands.length then .error .misuse
  else .ok { g with operands := g.operands ++ [operand] }

end Given

/-- What an argument comes to. -/
inductive Action
  | noted (g : Given)
  /-- The value of a switch is expected in the next argument. -/
  | expects (s : Switch) (g : Given)
  | operand
  /-- From here on all is operands. -/
  | close

/-- Whether an argument is no operand and no value. -/
def looksLikeSwitch (a : Text) : Bool :=
  a.head? = some '-' && a ≠ ['-']

namespace Level

/-- Short switches run together. -/
def short (l : Level) (g : Given) : Text → Except Halt Action
  | [] => .ok (.noted g)
  | c :: r =>
    match l.switches.find? fun s => s.short = some c with
    | none => .error .misuse
    | some s =>
      match s.kind with
      | .information => .error .information
      | .flag =>
        match g.note s [] with
        | .error h => .error h
        | .ok g => l.short g r
      | .value _ =>
        if r.isEmpty then .ok (.expects s g)
        else (g.note s ((Text.after? ['='] r).getD r)).map .noted

/-- A long switch, perhaps with its value. -/
def long (l : Level) (g : Given) (a : Text) : Except Halt Action :=
  let (name, attached) :=
    match Text.splitOnce '=' a with
    | some (name, v) => (name, some v)
    | none => (a, none)
  match l.switches.find? fun s => s.name = name with
  | none => .error .misuse
  | some s =>
    match s.kind, attached with
    | .information, none => .error .information
    | .flag, none => (g.note s []).map .noted
    | .value _, some v => (g.note s v).map .noted
    | .value _, none => .ok (.expects s g)
    | _, some _ => .error .misuse

def action (l : Level) (g : Given) (a : Text) : Except Halt Action :=
  match a with
  | ['-', '-'] => .ok .close
  | '-' :: '-' :: r => l.long g r
  | '-' :: c :: r => l.short g (c :: r)
  | _ => .ok .operand

/-- Reads arguments, as far as the name of a level below; with what was given, that name and the
arguments after it.  `closed` tells that all are operands. -/
def read (l : Level) (closed : Bool) (g : Given) :
    List Text → Except Halt (Given × Option (Text × List Text))
  | [] => .ok (g, none)
  | a :: rest =>
    match if closed then .ok .operand else l.action g a with
    | .error h => .error h
    | .ok (.noted g) => l.read closed g rest
    | .ok .close => l.read true g rest
    | .ok .operand =>
      if !closed && l.commands.contains a then .ok (g, some (a, rest))
      else
        match g.noteOperand l a with
        | .error h => .error h
        | .ok g => l.read closed g rest
    | .ok (.expects s g) =>
      match rest with
      | [] => .error .misuse
      | v :: rest =>
        if looksLikeSwitch v then .error .misuse
        else
          match g.note s v with
          | .error h => .error h
          | .ok g => l.read closed g rest

end Level

end Stencil.CommandLine
