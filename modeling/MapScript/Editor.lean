import MapScript.Settings.Config
import MapScript.Settings.Toml.Reader

/-!
# Editors

Diagnostics as an editor takes them: lines and characters count from zero, an
empty part is shown one character wide, and other places that matter are linked.
The settings beside a document are read anew each time; a fault in them is logged
and the defaults are used.
-/

namespace MapScript.Editor

/-- A part of a document, from zero. -/
structure Range where
  startLine : Nat
  startCharacter : Nat
  endLine : Nat
  endCharacter : Nat
deriving DecidableEq, Repr

/-- The part of a document that a span is, at least one character wide. -/
def Range.ofSpan (s : Span) : Range :=
  let startLine := s.start.line - 1
  let startCharacter := s.start.column - 1
  let endLine := s.stop.line - 1
  let endCharacter := s.stop.column - 1
  if endLine < startLine || (endLine = startLine && endCharacter ≤ startCharacter) then
    ⟨startLine, startCharacter, startLine, startCharacter + 1⟩
  else ⟨startLine, startCharacter, endLine, endCharacter⟩

/-- Another place that matters for a problem. -/
structure Related where
  message : Text
  uri : Text
  range : Range
deriving DecidableEq, Repr

/-- A problem of a document. -/
structure Problem where
  range : Range
  message : Text
  severity : Severity
  code : Text
  related : List Related
deriving DecidableEq, Repr

/-- The name under which problems are shown. -/
def sourceName : Text := "rmsprep".toList

/-- A diagnostic as a problem of a document. -/
def Problem.ofDiagnostic (uri : Text) (d : Diagnostic) : Problem :=
  ⟨Range.ofSpan d.span, d.message, d.severity, d.kind,
    d.notes.map fun n => ⟨n.text, uri, Range.ofSpan n.span⟩⟩

/-- Why the settings beside a document are not used. -/
inductive SettingsFault where
  | unreadable
  | invalidStem (e : Settings.InvalidStem)
deriving DecidableEq, Repr

/-- The words that are logged. -/
def SettingsFault.message : SettingsFault → Text
  | unreadable => "invalid config".toList
  | invalidStem e => "invalid config: ".toList ++ e.message

/-- The options for a document, given the text of the settings beside it, and what
is wrong with that.  A number that is too long is not passed over. -/
def documentOptions (settings : Option Text) : Except Fault (Options × List SettingsFault) :=
  match settings with
  | none => .ok ({}, [])
  | some t =>
    match Settings.Toml.parse t with
    | .error .malformed => .ok ({}, [.unreadable])
    | .error (.number f) => .error f
    | .ok config =>
      match Settings.options config with
      | .ok options => .ok (options, [])
      | .error (.stem e) => .ok ({}, [.invalidStem e])
      | .error (.number f) => .error f

/-- The name of a document: what follows the last slash. -/
def documentName (uri : Text) : Text := (Text.splitOn '/' uri).getLastD []

/-- The problems of a document, and what is wrong with the settings beside it. -/
def validate (uri : Text) (settings : Option Text) (source : Text) :
    Except Fault (List SettingsFault × List Problem) := do
  let (options, faults) ← documentOptions settings
  let result ← process options (documentName uri) source
  return (faults, result.diagnostics.map (Problem.ofDiagnostic uri))

end MapScript.Editor
