import MapScript.Diagnostic.Snippet

/-!
# Diagnostics

What a run has to say about a script, for people and for editors.
-/

namespace MapScript

/-- How much a diagnostic matters. -/
inductive Severity where
  | error
  | warning
deriving DecidableEq, Repr

/-- The word for a severity. -/
def Severity.name : Severity → Text
  | error => "error".toList
  | warning => "warning".toList

/-- A problem of one script. -/
structure Diagnostic where
  severity : Severity
  kind : Text
  message : Text
  span : Span
  filename : Text
  notes : List Note := []
deriving DecidableEq, Repr

/-- A report as a snippet of a script. -/
def Report.snippet (r : Report) (source filename : Text) : Snippet :=
  ⟨Severity.error.name, r.cause.message, r.span, source, filename, r.notes⟩

namespace Diagnostic

/-- The diagnostic of a refused script. -/
def ofReport (filename : Text) (r : Report) : Diagnostic :=
  ⟨.error, r.cause.kind.code, r.cause.message, r.span, filename, r.notes⟩

/-- The diagnostic of a warning. -/
def ofWarning (filename : Text) (w : Warning) : Diagnostic :=
  ⟨.warning, w.cause.code, w.cause.message, w.span, filename, []⟩

/-- Whether the diagnostic is an error. -/
def isError (d : Diagnostic) : Bool := d.severity == .error

/-- Whether the diagnostic is an error in the form of a script. -/
def isSyntactic (d : Diagnostic) : Bool :=
  d.kind == ErrorKind.lexical.code || d.kind == ErrorKind.structural.code

/-- The diagnostic with the line of the script it is about. -/
def format (d : Diagnostic) (source : Text) : Text :=
  Snippet.render ⟨d.severity.name, d.message, d.span, source, d.filename, d.notes⟩

end Diagnostic

end MapScript
