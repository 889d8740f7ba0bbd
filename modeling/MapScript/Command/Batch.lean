import MapScript.Command.Arguments
import MapScript.Command.FileTree
import MapScript.Settings.Config
import MapScript.Settings.Toml.Reader
import MapScript.Text.Utf8

/-!
# Batches

A command line over a file tree: the settings are found once, then every input is
read, processed and written in turn, so an input sees what was written before it.
An input that cannot be read, or is refused, is reported and the others go on.
-/

namespace MapScript.Command

/-- The name of the settings file that is looked for beside the first input. -/
def configName : Text := "rmsprep.toml".toList

/-- Why no batch begins. -/
inductive SetupFault where
  /-- A settings file that cannot be looked for. -/
  | configPath (fault : FileFault)
  /-- A settings file that is no text. -/
  | undecodableConfig (fault : Text.Utf8.Fault)
  | invalidConfig
  /-- A number in the settings that cannot be taken. -/
  | configNumber (fault : Fault)
  | invalidStem (e : Settings.InvalidStem)
  /-- A switch for a constant without its name. -/
  | namelessConstant
  /-- One output file for several inputs. -/
  | outputForSeveral
  /-- Several inputs without a directory for their outputs. -/
  | severalToConsole
deriving DecidableEq, Repr

namespace SetupFault

/-- The words for a fault. -/
def message : SetupFault → Text
  | configPath fault => fault.message
  | undecodableConfig fault => fault.message
  | invalidConfig => "invalid config".toList
  | configNumber _ => "number out of range in config".toList
  | invalidStem e => e.message
  | namelessConstant => "--extern needs a name".toList
  | outputForSeveral => "-o takes a single input; use -d for several".toList
  | severalToConsole => "several inputs need an output directory (-d)".toList

/-- Whether a fault is a finding to report and no breakdown. -/
def isReported : SetupFault → Bool
  | invalidConfig | invalidStem _ | outputForSeveral | severalToConsole => true
  | _ => false

end SetupFault

/-- What a batch is to do. -/
structure Plan where
  inputs : List Path
  output : Option Path
  outputDirectory : Option Path
  options : Options
  /-- Whether the first area number was taken away, so that no area can have one. -/
  baseless : Bool
  debug : Bool
  verbose : Bool
deriving DecidableEq, Repr

namespace Plan

/-- A path given on the command line; an empty one counts as none. -/
def givenPath : Option (Given Text) → Option Path
  | none | some .nothing | some (.value []) => none
  | some (.value t) => some (.ofText t)

/-- The settings in a file; without a file there are none. -/
def loadConfig (tree : FileTree) (p : Path) : Except SetupFault Settings.Value :=
  match tree.read p with
  | .error .nameTooLong => .error (.configPath .nameTooLong)
  | .error _ => .ok (.table [])
  | .ok octets =>
    match Text.Utf8.decode octets with
    | .error fault => .error (.undecodableConfig fault)
    | .ok t =>
      match Settings.Toml.parse t with
      | .error .malformed => .error .invalidConfig
      | .error (.number fault) => .error (.configNumber fault)
      | .ok config => .ok config

/-- The text that stands for a stem of which nothing is given. -/
def noStem : Text := "[]".toList

/-- A stem that must be fit for names. -/
def checkStem (t : Given Text) : Except SetupFault Text :=
  match t with
  | .nothing => .error (.invalidStem ⟨noStem⟩)
  | .value t => (Settings.checkStem t).mapError SetupFault.invalidStem

/-- The options of the settings file. -/
def configOptions (tree : FileTree) (p : Path) : Except SetupFault Options := do
  let config ← loadConfig tree p
  match Settings.options config with
  | .ok options => .ok options
  | .error (.stem e) => .error (.invalidStem e)
  | .error (.number fault) => .error (.configNumber fault)

/-- The names of constants on the command line. -/
def names : List (Given Text) → Except SetupFault (List Text)
  | [] => .ok []
  | .nothing :: _ => .error .namelessConstant
  | .value t :: rest => (names rest).map (t :: ·)

/-- The first area number, that of the command line before that of the settings. -/
def areaBase (a : Arguments) (options : Options) : Int :=
  match a.areaBase with
  | some (.value n) => n
  | _ => options.areaBase

/-- The options with those of the command line put over them. -/
def override (a : Arguments) (options : Options) : Except SetupFault Options := do
  let stem ← match a.stem with
    | some t => checkStem t
    | none => .ok options.stem
  let external ← names a.external
  return {
    hoistRandom := options.hoistRandom && !a.noHoist
    stem := stem
    areaBase := areaBase a options
    keepLines := options.keepLines && !a.singleLine
    external := options.external ++ external }

/-- What a command line asks for.  The settings of the file come first, those of
the command line over them. -/
def ofArguments (tree : FileTree) (a : Arguments) : Except SetupFault Plan := do
  let inputs := a.inputs.map Path.ofText
  let directory := ((inputs.head?).map Path.parent).getD (.ofText [])
  let config := (givenPath a.config).getD (directory.child configName)
  let options ← configOptions tree config
  let options ← override a options
  let output := givenPath a.output
  let outputDirectory := givenPath a.outputDirectory
  if output.isSome && 1 < inputs.length then .error .outputForSeveral
  else if output.isNone && outputDirectory.isNone && 1 < inputs.length then
    .error .severalToConsole
  else
    return ⟨inputs, output, outputDirectory, options, a.areaBase = some .nothing, a.debug,
      a.verbose⟩

end Plan

/-- Why a batch ends early. -/
inductive Abort where
  /-- The batch cannot be set up. -/
  | setup (fault : SetupFault)
  /-- A file cannot be named or an output not be written. -/
  | file (fault : FileFault)
  /-- An area has no number to begin from. -/
  | baseless
  /-- The arithmetic of a script has no value. -/
  | arithmetic (fault : Fault)
deriving DecidableEq, Repr

/-- A batch under way: the files, what is printed and the worst status. -/
structure Batch where
  tree : FileTree
  stdout : Text := []
  stderr : Text := []
  status : Nat := 0
deriving DecidableEq, Repr

namespace Batch

/-- Every line end as a line feed. -/
def normalizeLineEnds : Text → Text
  | '\r' :: '\n' :: cs => '\n' :: normalizeLineEnds cs
  | '\r' :: cs => '\n' :: normalizeLineEnds cs
  | c :: cs => c :: normalizeLineEnds cs
  | [] => []

/-- A line on the error output. -/
def report (b : Batch) (line : Text) : Batch := { b with stderr := b.stderr ++ line ++ ['\n'] }

/-- The worse of the status so far and another. -/
def raise (b : Batch) (status : Nat) : Batch := { b with status := max b.status status }

/-- Why an input has no text: words to report, or a path that no file can have. -/
inductive InputFault where
  | words (words : Text)
  | path (fault : FileFault)

/-- The text of an input, or why there is none. -/
def readInput (tree : FileTree) (p : Path) : Except InputFault Text :=
  match tree.read p with
  | .error .unnameable => .error (.path .unnameable)
  | .error e =>
    .error (.words ("cannot read ".toList ++ p.toText ++ ": ".toList ++ e.message))
  | .ok octets =>
    match Text.Utf8.decode octets with
    | .error e =>
      .error (.words ("cannot decode ".toList ++ p.toText ++ " as UTF-8: ".toList ++ e.message))
    | .ok t => .ok (normalizeLineEnds t)

/-- Writes the text of an input where the plan wants it. -/
def writeOutput (plan : Plan) (input : Path) (text : Text) (b : Batch) :
    Except FileFault Batch :=
  match plan.output, plan.outputDirectory with
  | some p, _ => (b.tree.write p (Text.Utf8.encode text)).map fun tree => { b with tree := tree }
  | none, some directory =>
    match b.tree.makeDirectories directory with
    | .error e => .error e
    | .ok tree =>
      (tree.write (directory.child input.name) (Text.Utf8.encode text)).map
        fun tree => { b with tree := tree }
  | none, none => .ok { b with stdout := b.stdout ++ text }

/-- Finishes an input that has a result. -/
def finishInput (plan : Plan) (input : Path) (source : Text) (r : Result) (b : Batch) :
    Batch × Option Abort :=
  let b := r.diagnostics.foldl (fun b d => b.report (d.format source)) b
  let b := b.raise r.exitCode
  match r.text with
  | none => (b, none)
  | some text =>
    match writeOutput plan input text b with
    | .error e => (b, some (.file e))
    | .ok b =>
      (if plan.verbose then b.report ("Processed ".toList ++ input.toText) else b, none)

/-- Takes an input through the batch. -/
def runInput (plan : Plan) (input : Path) (b : Batch) : Batch × Option Abort :=
  match readInput b.tree input with
  | .error (.words words) => ((b.report ("error: ".toList ++ words)).raise 2, none)
  | .error (.path fault) => (b, some (.file fault))
  | .ok source =>
    let b := if plan.debug then { b with stderr := b.stderr ++ outlineOf source } else b
    if plan.baseless && declaresArea plan.options source then (b, some .baseless)
    else
      match process plan.options input.toText source with
      | .error fault => (b, some (.arithmetic fault))
      | .ok r => finishInput plan input source r b

/-- Takes inputs through the batch, until one ends it. -/
def runInputs (plan : Plan) : List Path → Batch → Batch × Option Abort
  | [], b => (b, none)
  | input :: rest, b =>
    match runInput plan input b with
    | (b, some abort) => (b, some abort)
    | (b, none) => runInputs plan rest b

end Batch

/-- The paths that a command line can read or write. -/
def touched (a : Arguments) : List Path :=
  let inputs := a.inputs.map Path.ofText
  let outputs := match Plan.givenPath a.outputDirectory with
    | none => []
    | some directory => inputs.map fun p => directory.child p.name
  inputs ++ inputs.map (fun p => p.parent.child configName) ++
    (Plan.givenPath a.config).toList ++ (Plan.givenPath a.output).toList ++ outputs

/-- What comes of a command line. -/
inductive Outcome where
  /-- It is not one; the status is 2 unless help is wanted. -/
  | usage (fault : UsageFault)
  | finished (batch : Batch) (abort : Option Abort)
deriving DecidableEq, Repr

/-- Carries out a command line on a file tree. -/
def run (tree : FileTree) (args : List Text) : Outcome :=
  match Arguments.parse args with
  | .error fault => .usage fault
  | .ok a =>
    match Plan.ofArguments tree a with
    | .error fault =>
      if fault.isReported then
        .finished ((Batch.report { tree := tree } ("error: ".toList ++ fault.message)).raise 2) none
      else .finished { tree := tree } (some (.setup fault))
    | .ok plan =>
      let (batch, abort) := Batch.runInputs plan plan.inputs { tree := tree }
      .finished batch abort

end MapScript.Command
