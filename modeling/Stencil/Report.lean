import Stencil.TemplateError
/-!
Failures as the command line reports them: a category, the message, and a suggestion and details where
they are known.
-/

namespace Stencil

/-- What kept a file from being read. -/
inductive FileFault
  | notFound
  | permissionDenied
  | other
  deriving DecidableEq, Repr

/-- The error at the root of a failure. -/
inductive Cause
  | template (e : TemplateError)
  /-- The reason that a settings file is malformed, and the same with the place shown. -/
  | settings (reason details : Text)
  | file (fault : FileFault) (message : Text)
  /-- Why the data for a template is malformed. -/
  | data (message : Text)
  | other (message : Text)
  deriving DecidableEq, Repr

namespace Cause

/-- The messages of the cause and of what it stems from. -/
def trail : Cause → List Text
  | template e => e.trail
  | settings _ details => [details]
  | file _ message => [message]
  | data message => [message]
  | other message => [message]

end Cause

/-- A cause and what was being done, outermost first. -/
structure Failure where
  contexts : List Text
  cause : Cause
  deriving DecidableEq, Repr

namespace Failure

def ofCause (cause : Cause) : Failure :=
  ⟨[], cause⟩

def ofTemplate (e : TemplateError) : Failure :=
  ofCause (.template e)

/-- The failure with one more context around it. -/
def during (context : Text) (f : Failure) : Failure :=
  { f with contexts := context :: f.contexts }

def trail (f : Failure) : List Text :=
  f.contexts ++ f.cause.trail

/-- The outermost message. -/
def message (f : Failure) : Text :=
  f.trail.headD []

end Failure

inductive Category
  | template
  | configuration
  | fileSystem
  | other
  deriving DecidableEq, Repr

structure Report where
  category : Category
  error : Text
  suggestion : Option Text
  details : Option Text
  deriving DecidableEq, Repr

namespace Report

/-- Numbered lines for the causes of a message. -/
def numbered : Nat → List Text → Text
  | _, [] => []
  | i, cause :: rest =>
    "\n  ".toList ++ Text.ofNat i ++ ": ".toList ++ cause ++ numbered (i + 1) rest

/-- What can be done about a file that could not be read. -/
def fileAdvice : FileFault → Text
  | .notFound => "Check that the file or directory exists and the path is correct".toList
  | .permissionDenied => "Check the file permissions".toList
  | .other => "Check the file and try again".toList

def ofFailure (f : Failure) : Report :=
  match f.cause with
  | .template e =>
    { category := .template
      error := e.formatted
      suggestion := some e.advice
      details := if f.contexts.isEmpty then none else some (Text.join ": ".toList f.contexts) }
  | .settings reason details =>
    { category := .configuration
      error := f.message ++ ": ".toList ++ reason
      suggestion := some
        "Check the TOML syntax of your config file. Verify quotes, brackets and table headers".toList
      details := some details }
  | .file fault message =>
    { category := .fileSystem
      error := f.message ++ ": ".toList ++ message
      suggestion := some (fileAdvice fault)
      details := none }
  | .data _ | .other _ =>
    let causes := f.trail.drop 1
    { category := .other
      error := f.message ++
        if causes.isEmpty then [] else "\n\nCaused by:".toList ++ numbered 1 causes
      suggestion := none
      details := none }

/-- Error, details and suggestion, each where known after its label and on a line of its own. -/
def labelled (labels : Text × Text × Text) (r : Report) : List Text :=
  let optional (label : Text) (value : Option Text) : List Text :=
    (value.map fun v => label ++ v).toList
  (labels.1 ++ r.error) :: optional labels.2.1 r.details ++ optional labels.2.2 r.suggestion

/-- The report as one text. -/
def text (r : Report) : Text :=
  Text.join ['\n'] (r.labelled ([], "Details: ".toList, "Suggestion: ".toList))

/-- The lines printed at the end of a failed run. -/
def printed (r : Report) : Text :=
  (r.labelled ("error: ".toList, "details: ".toList, "suggestion: ".toList)).flatMap (· ++ ['\n'])

end Report

end Stencil
