import MapScript.Text.Integer
import MapScript.Text.Quoted

/-!
# Arguments

The command line as a record.  Every argument is first told to be a switch or
not: a switch may be cut short as long as it stays the only one, may carry its
value behind an equals sign, and one letter switches may be written together, the
last of them with its value.  After two dashes nothing is a switch.  Then the
arguments are taken from the left; the inputs are the first arguments in a row
that belong to no switch.  Two dashes as the value of a switch are no value: the
switch is given, and nothing with it.
-/

namespace MapScript.Command

/-- The switches of the command line. -/
inductive Switch where
  | help
  | output
  | outputDirectory
  | config
  | noHoist
  | stem
  | areaBase
  | singleLine
  | external
  | debug
  | verbose
deriving DecidableEq, Repr

namespace Switch

/-- All switches. -/
def all : List Switch :=
  [help, output, outputDirectory, config, noHoist, stem, areaBase, singleLine, external, debug,
    verbose]

/-- The spellings of a switch, the shortest first. -/
def spellings : Switch → List Text
  | help => ["-h".toList, "--help".toList]
  | output => ["-o".toList, "--output".toList]
  | outputDirectory => ["-d".toList, "--output-dir".toList]
  | config => ["--config".toList]
  | noHoist => ["--no-hoist".toList]
  | stem => ["--rnd-prefix".toList]
  | areaBase => ["--area-base".toList]
  | singleLine => ["--single-line".toList]
  | external => ["--extern".toList]
  | debug => ["--debug".toList]
  | verbose => ["-v".toList, "--verbose".toList]

/-- How a switch is named in messages. -/
def displayName (s : Switch) : Text := Text.join ['/'] s.spellings

/-- Whether a switch needs a value. -/
def takesValue : Switch → Bool
  | output | outputDirectory | config | stem | areaBase | external => true
  | _ => false

/-- Every spelling with its switch. -/
def table : List (Text × Switch) := all.flatMap fun s => s.spellings.map fun t => (t, s)

/-- The switch of a spelling. -/
def ofSpelling? (t : Text) : Option Switch := table.lookup t

end Switch

/-- Why a command line is not taken. -/
inductive UsageFault where
  /-- No fault, but a wish for help. -/
  | helpWanted
  | ambiguous (argument : Text) (spellings : List Text)
  | expectedValue (s : Switch)
  | ignoredValue (s : Switch) (value : Text)
  | notInteger (s : Switch) (value : Text)
  | conflict (s other : Switch)
  | missingInput
  | unrecognized (arguments : List Text)
deriving DecidableEq, Repr

namespace UsageFault

/-- The words for a fault of one switch. -/
def about (s : Switch) (words : Text) : Text :=
  "argument ".toList ++ s.displayName ++ ": ".toList ++ words

/-- The words for a fault. -/
def message : UsageFault → Text
  | helpWanted => []
  | ambiguous argument spellings =>
    "ambiguous option: ".toList ++ argument ++ " could match ".toList ++
      Text.join ", ".toList spellings
  | expectedValue s => about s "expected one argument".toList
  | ignoredValue s value => about s ("ignored explicit argument ".toList ++ Text.quoted value)
  | notInteger s value => about s ("invalid int value: ".toList ++ Text.quoted value)
  | conflict s other => about s ("not allowed with argument ".toList ++ other.displayName)
  | missingInput => "the following arguments are required: INPUT".toList
  | unrecognized arguments =>
    "unrecognized arguments: ".toList ++ Text.join [' '] arguments

end UsageFault

/-! ### Telling switches from other arguments -/

/-- What an argument is. -/
inductive Word where
  | plain (text : Text)
  /-- A switch, whether it is one of the long ones, and what is written in one
  with it. -/
  | switch (s : Switch) (long : Bool) (value : Option Text)
  /-- It looks like a switch, but there is none of that name. -/
  | unknown (text : Text)
  /-- The two dashes after which nothing is a switch. -/
  | dashes
deriving DecidableEq, Repr

/-- A text cut at its first equals sign. -/
def cutEquals (t : Text) : Text × Option Text :=
  match t.span (· != '=') with
  | (front, _ :: value) => (front, some value)
  | (front, []) => (front, none)

/-- Whether a spelling has two dashes. -/
def isLong (t : Text) : Bool := ['-', '-'].isPrefixOf t

/-- A text without a line feed at its end. -/
def dropLineEnd (t : Text) : Text := if t.getLast? = some '\n' then t.dropLast else t

/-- Whether a text is a negative number, which is no switch; a line feed may follow
it. -/
def isNegativeNumber : Text → Bool
  | '-' :: rest =>
    let isDigit (c : Char) : Bool := (Text.decimalValue? c).isSome
    match (dropLineEnd rest).span isDigit with
    | (digits, []) => !digits.isEmpty
    | (_, '.' :: fraction) => !fraction.isEmpty && fraction.all isDigit
    | _ => false
  | _ => false

/-- The spellings that an argument can be short for, each with the switch and what
is written in one with it. -/
def candidates (t : Text) : List (Text × Word) :=
  if isLong t then
    let (front, value) := cutEquals t
    (Switch.table.filter fun (spelling, _) => front.isPrefixOf spelling).map
      fun (spelling, s) => (spelling, .switch s true value)
  else
    (Switch.table.filter fun (spelling, _) => spelling == t.take 2).map
      fun (spelling, s) => (spelling, .switch s false (some (t.drop 2)))

/-- What an argument is that begins with a dash and has more to it. -/
def classifyDashed (t : Text) : Except UsageFault Word :=
  let (front, value) := cutEquals t
  match value, Switch.ofSpelling? front with
  | some value, some s => .ok (.switch s (isLong front) (some value))
  | _, _ =>
    match candidates t with
    | [(_, word)] => .ok word
    | [] => .ok (if isNegativeNumber t || t.contains ' ' then .plain t else .unknown t)
    | several => .error (.ambiguous t (several.map Prod.fst))

/-- What an argument is. -/
def classify (t : Text) : Except UsageFault Word :=
  match Switch.ofSpelling? t with
  | some s => .ok (.switch s (isLong t) none)
  | none =>
    match t with
    | '-' :: _ :: _ => classifyDashed t
    | _ => .ok (.plain t)

/-- What the arguments are. -/
def classifyAll : List Text → Except UsageFault (List Word)
  | [] => .ok []
  | t :: ts =>
    if t == ['-', '-'] then .ok (.dashes :: ts.map .plain)
    else do
      let word ← classify t
      let words ← classifyAll ts
      return word :: words

/-! ### Taking the arguments -/

/-- What is given with a switch. -/
inductive Given (α : Type) where
  | nothing
  | value (value : α)
deriving DecidableEq, Repr

/-- The command line. -/
structure Arguments where
  inputs : List Text := []
  output : Option (Given Text) := none
  outputDirectory : Option (Given Text) := none
  config : Option (Given Text) := none
  noHoist : Bool := false
  stem : Option (Given Text) := none
  areaBase : Option (Given Int) := none
  singleLine : Bool := false
  external : List (Given Text) := []
  debug : Bool := false
  verbose : Bool := false
deriving DecidableEq, Repr

namespace Arguments

/-- The arguments with a switch that needs no value. -/
def set (a : Arguments) : Switch → Except UsageFault Arguments
  | .help => .error .helpWanted
  | .noHoist => .ok { a with noHoist := true }
  | .singleLine => .ok { a with singleLine := true }
  | .debug => .ok { a with debug := true }
  | .verbose => .ok { a with verbose := true }
  | s => .error (.expectedValue s)

/-- What a text gives with a switch: two dashes give nothing. -/
def given (t : Text) : Given Text := if t == ['-', '-'] then .nothing else .value t

/-- The integer that a text gives with a switch. -/
def givenInt (s : Switch) (t : Text) : Except UsageFault (Given Int) :=
  match given t with
  | .nothing => .ok .nothing
  | .value t =>
    match Text.toInt? t with
    | some n => .ok (.value n)
    | none => .error (.notInteger s t)

/-- The arguments with a switch and its value. -/
def setValue (a : Arguments) (s : Switch) (value : Text) : Except UsageFault Arguments :=
  match s with
  | .output =>
    if a.outputDirectory.isSome then .error (.conflict .output .outputDirectory)
    else .ok { a with output := some (given value) }
  | .outputDirectory =>
    if a.output.isSome then .error (.conflict .outputDirectory .output)
    else .ok { a with outputDirectory := some (given value) }
  | .config => .ok { a with config := some (given value) }
  | .stem => .ok { a with stem := some (given value) }
  | .areaBase => (givenInt .areaBase value).map fun n => { a with areaBase := some n }
  | .external => .ok { a with external := a.external ++ [given value] }
  | s => .error (.ignoredValue s value)

/-- The arguments with switches that need no value, in order. -/
def setAll (a : Arguments) : List Switch → Except UsageFault Arguments
  | [] => .ok a
  | s :: rest =>
    match a.set s with
    | .error e => .error e
    | .ok a => a.setAll rest

end Arguments

/-- Switches that are written together: some that need no value, then one with
what is written in one with it. -/
structure Cluster where
  plain : List Switch
  last : Switch
  value : Option Text

/-- The cluster with one more switch in front. -/
def Cluster.cons (s : Switch) (c : Cluster) : Cluster := { c with plain := s :: c.plain }

/-- The cluster of a one letter switch and the characters behind it: its value, or
more such switches. -/
def Cluster.ofLetters (s : Switch) : Text → Except UsageFault Cluster
  | [] => .ok ⟨[], s, none⟩
  | letter :: letters =>
    if s.takesValue then .ok ⟨[], s, some (letter :: letters)⟩
    else
      match Switch.ofSpelling? ['-', letter] with
      | none => .error (.ignoredValue s (letter :: letters))
      | some next => (Cluster.ofLetters next letters).map (Cluster.cons s)

/-- The cluster of a switch and what is written in one with it. -/
def Cluster.ofSwitch (s : Switch) (long : Bool) : Option Text → Except UsageFault Cluster
  | none => .ok ⟨[], s, none⟩
  | some value =>
    if s.takesValue then .ok ⟨[], s, some value⟩
    else if long || value.isEmpty then .error (.ignoredValue s value)
    else Cluster.ofLetters s value

/-- The value of the last switch of a cluster, which may be the next argument, and
the arguments that are left. -/
def Cluster.findValue (c : Cluster) (rest : List Word) :
    Except UsageFault (Option Text × List Word) :=
  if c.value.isSome || !c.last.takesValue then .ok (c.value, rest)
  else
    match rest with
    | .plain value :: rest => .ok (some value, rest)
    | _ => .error (.expectedValue c.last)

/-- Taking a value leaves no more arguments than there were. -/
theorem Cluster.length_findValue_le {c : Cluster} {rest : List Word}
    {found : Option Text × List Word} (h : c.findValue rest = .ok found) :
    found.2.length ≤ rest.length := by
  unfold Cluster.findValue at h
  split at h
  · cases h
    exact Nat.le_refl _
  · split at h
    · cases h
      simp
    · simp at h

/-- The arguments with the switches of a cluster, given the value of the last. -/
def Cluster.apply (a : Arguments) (c : Cluster) : Option Text → Except UsageFault Arguments
  | none => a.setAll (c.plain ++ [c.last])
  | some value => do (← a.setAll c.plain).setValue c.last value

/-- The command line taken so far: whether the inputs are found, and what fits
nowhere. -/
structure Taken where
  arguments : Arguments := {}
  inputsFound : Bool := false
  extras : List Text := []

/-- An argument that is no switch, as it is written. -/
def Word.looseText : Word → Option Text
  | .plain t => some t
  | .dashes => some ['-', '-']
  | _ => none

/-- Whether a word is an argument of its own. -/
def Word.isPlain : Word → Bool
  | .plain _ => true
  | _ => false

/-- Takes the arguments in a row that belong to no switch: the inputs, if there
are none yet. -/
def Taken.addLoose (t : Taken) (row : List Word) : Taken :=
  if !t.inputsFound && row.any Word.isPlain then
    { t with
      inputsFound := true
      arguments := { t.arguments with
        inputs := (row.filterMap Word.looseText).erase ['-', '-'] } }
  else { t with extras := t.extras ++ row.filterMap Word.looseText }

/-- The command line after a row of arguments that belong to no switch, the newest
first. -/
def Taken.finishRow (t : Taken) (row : List Word) : Taken :=
  if row.isEmpty then t else t.addLoose row.reverse

/-- Takes the arguments from the left; `row` holds those in a row, the newest
first, that belong to no switch. -/
def takeAll (t : Taken) (row : List Word) (words : List Word) : Except UsageFault Taken :=
  match words with
  | [] => .ok (t.finishRow row)
  | .unknown text :: rest =>
    let t := t.finishRow row
    takeAll { t with extras := t.extras ++ [text] } [] rest
  | .switch s long value :: rest =>
    let t := t.finishRow row
    match Cluster.ofSwitch s long value with
    | .error e => .error e
    | .ok c =>
      match _h : c.findValue rest with
      | .error e => .error e
      | .ok (value, rest) =>
        match c.apply t.arguments value with
        | .error e => .error e
        | .ok a => takeAll { t with arguments := a } [] rest
  | word :: rest => takeAll t (word :: row) rest
termination_by words.length
decreasing_by
  · simp
  · exact Nat.lt_succ_of_le (Cluster.length_findValue_le _h)
  · simp

/-- The command line as a record. -/
def Arguments.parse (args : List Text) : Except UsageFault Arguments := do
  let words ← classifyAll args
  let taken ← takeAll {} [] words
  if !taken.inputsFound then .error .missingInput
  else if !taken.extras.isEmpty then .error (.unrecognized taken.extras)
  else return taken.arguments

end MapScript.Command
