import Stencil.CommandLine
/-!
The program: reads its arguments, the standard input and the files that the command wants, and prints
what the command comes to.
-/

open Stencil

namespace Stencil.CommandLine

/-- What is printed about the program. -/
def usage : Text :=
  ("Resolve, compile and render templates that reference remote templates\n\n" ++
   "Usage: tscope [OPTIONS] <COMMAND>\n\n" ++
   "Commands:\n" ++
   "  render  Compile a template and render it with JSON data\n" ++
   "  deps    Show the resolved dependency tree of a template\n" ++
   "  refs    List the references a template makes\n" ++
   "  escape  Print markup as it looks after escaping for compilation\n\n" ++
   "Options:\n" ++
   "  -v, --verbose          Show debug messages\n" ++
   "  -q, --quiet            Show errors only\n" ++
   "  -c, --config <CONFIG>  Path to the settings file\n").toList

/-- The fault of a path that could not be read, unless nothing is there. -/
def faultOf : IO.Error → Option ReadError
  | .noFileOrDirectory _ _ _ => none
  | .permissionDenied _ _ _ => some ⟨.permissionDenied, "Permission denied (os error 13)".toList⟩
  | .inappropriateType _ _ _ => some .isDirectory
  | e => some ⟨.other, e.toString.toList⟩

/-- Adds what reading a path gives. -/
def addFile (files : Files) (path : Text) : IO Files := do
  match ← (IO.FS.readFile (String.ofList path)).toBaseIO with
  | .ok content => return { files with contents := files.contents.insert path content.toList }
  | .error e =>
    match faultOf e with
    | some fault => return { files with faults := files.faults.insert path fault }
    | none => return files

/-- Reads all files that the run of an invocation reads. -/
partial def gather (i : Invocation) (stdin : Text) (files : Files) (tried : List Text) :
    IO Files := do
  let untried := (i.wanted stdin files).filter fun p => !tried.contains p
  if untried.isEmpty then return files
  let files ← untried.foldlM addFile files
  gather i stdin files (untried ++ tried)

/-- All lines of a stream. -/
partial def readAll (s : IO.FS.Stream) (before : String) : IO String := do
  let line ← s.getLine
  if line.isEmpty then return before
  readAll s (before ++ line)

def execute (i : Invocation) : IO UInt32 := do
  let stdin ← if i.readsStandardInput then readAll (← IO.getStdin) "" else pure ""
  let files ← gather i stdin.toList ⟨[], []⟩ []
  match (i.run stdin.toList files).result with
  | .ok text =>
    IO.print (String.ofList text)
    return 0
  | .error f =>
    IO.eprint (String.ofList (Report.ofFailure f).printed)
    return 1

end Stencil.CommandLine

def main (args : List String) : IO UInt32 := do
  match CommandLine.parse (args.map String.toList) with
  | .ok i => CommandLine.execute i
  | .error .information =>
    IO.print (String.ofList CommandLine.usage)
    return 0
  | .error .misuse =>
    IO.eprint (String.ofList CommandLine.usage)
    return 2
