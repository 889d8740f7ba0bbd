import MapScript.Block.Builder
import MapScript.Block.Outline
import MapScript.Diagnostic.Basic
import MapScript.EngineText
import MapScript.Placement
import MapScript.RandomCall

/-!
# Preprocessing

The passes over a script in their order: blocks, names, expansion, random calls,
the cut, text.  A script can be taken through the first of them to look at it, or
through all to get its text.
-/

namespace MapScript

/-- The settings of a run. -/
structure Options where
  hoistRandom : Bool := true
  /-- What the names of hoisted calls begin with. -/
  stem : Text := ['C']
  areaBase : Int := defaultAreaBase
  keepLines : Bool := true
  /-- Constants declared outside the script. -/
  external : List Text := []
deriving DecidableEq, Repr

/-- The passes that have blocks as their result. -/
inductive Stage where
  | blocks
  | resolved
  | expanded
  | hoisted
  | truncated
deriving DecidableEq, Repr

/-- The stages in their order. -/
def Stage.all : List Stage := [blocks, resolved, expanded, hoisted, truncated]

/-- The session at the start of a run. -/
def Session.start (options : Options) : Session :=
  { table := { areaBase := options.areaBase, external := options.external } }

namespace Preprocess

/-- The blocks of a script. -/
def blocks (source : Text) : Pass (Script Node) := Pass.ofReport (Script.ofSource source)

/-- The blocks with names resolved. -/
def resolved (source : Text) : Pass (Script Node) := do
  let script ← blocks source
  Pass.onTable script.resolve

/-- The expanded script. -/
def expanded (source : Text) : Pass (Script Piece) := do
  let script ← resolved source
  script.expand

/-- The script with its random calls in front, if that is wanted. -/
def hoisted (options : Options) (source : Text) : Pass (Script Piece) := do
  let script ← expanded source
  if options.hoistRandom then script.hoist options.stem else return script

/-- The script up to where it is cut. -/
def truncated (options : Options) (source : Text) : Pass (Script Piece) := do
  let script ← hoisted options source
  return script.truncate

/-- The text of the script. -/
def text (options : Options) (source : Text) : Pass Text := do
  let script ← truncated options source
  return engineText options.keepLines script.parts

/-- The parts of an expanded script as blocks. -/
def asBlocks (s : Script Piece) : Script Node := ⟨s.parts.map Piece.toNode, s.span⟩

/-- The blocks of a script after a stage. -/
def stage (options : Options) (source : Text) : Stage → Pass (Script Node)
  | .blocks => blocks source
  | .resolved => resolved source
  | .expanded => asBlocks <$> expanded source
  | .hoisted => asBlocks <$> hoisted options source
  | .truncated => asBlocks <$> truncated options source

/-- The result of a pass over a new session, and the session after it. -/
def runPass (options : Options) (pass : Pass α) : Except Failure α × Session :=
  pass.run.run (Session.start options)

end Preprocess

/-- The text of a script for the engine, or why there is none. -/
def preprocess (options : Options) (source : Text) : Except Failure Text :=
  (Preprocess.runPass options (Preprocess.text options source)).1

/-- What a run has to show for a script: its text, if it is not refused, and all
that there is to say about it. -/
structure Result where
  text : Option Text
  diagnostics : List Diagnostic
deriving DecidableEq, Repr

namespace Result

/-- Whether there is a text. -/
def ok (r : Result) : Bool := r.text.isSome

/-- The errors. -/
def errors (r : Result) : List Diagnostic := r.diagnostics.filter Diagnostic.isError

/-- The warnings. -/
def warnings (r : Result) : List Diagnostic := r.diagnostics.filter fun d => !d.isError

/-- The status of a run for one script: 0 with a text, 1 for an error in its form
and 2 for one in its meaning. -/
def exitCode (r : Result) : Nat :=
  if r.ok then 0 else if r.errors.any Diagnostic.isSyntactic then 1 else 2

end Result

/-- Preprocesses a script.  A refusal becomes a diagnostic; only arithmetic
without a value has no result. -/
def process (options : Options) (filename source : Text) : Except Fault Result :=
  let (result, session) := Preprocess.runPass options (Preprocess.text options source)
  let warnings := session.warnings.map (Diagnostic.ofWarning filename)
  match result with
  | .ok text => .ok ⟨some text, warnings⟩
  | .error (.report r) => .ok ⟨none, warnings ++ [Diagnostic.ofReport filename r]⟩
  | .error (.fault f) => .error f

/-- Whether a run declares an area, be it before the script is refused. -/
def declaresArea (options : Options) (source : Text) : Bool :=
  let (_, session) := Preprocess.runPass options (Preprocess.text options source)
  !session.table.areas.isEmpty

/-- The outline of a script's blocks, empty if it has none. -/
def outlineOf (source : Text) : Text :=
  match Script.ofSource source with
  | .ok script => script.outline
  | .error _ => []

end MapScript
