import MapScript.Preprocess
import MapScript.Settings.Value
import MapScript.Text.Numeral

/-!
# Options from settings

The options that a settings file asks for.  What is missing or of another type
than expected leaves the default; only a name stem that cannot begin a name is
refused, and a number too long to be a name.
-/

namespace MapScript.Settings

/-- A text that cannot be the stem of generated names. -/
structure InvalidStem where
  stem : Text
deriving DecidableEq, Repr

/-- The words for a stem that is refused. -/
def InvalidStem.message (e : InvalidStem) : Text :=
  "invalid rnd prefix (expected an identifier): ".toList ++ e.stem

/-- A stem of generated names: a letter or underscore, then letters, numerals and
underscores, of any script. -/
def checkStem (t : Text) : Except InvalidStem Text :=
  match t with
  | [] => .error ⟨t⟩
  | c :: _ =>
    if (c == '_' || Text.isLetter c) && t.all (fun c => c == '_' || Text.isLetterOrNumeral c) then
      .ok t
    else .error ⟨t⟩

/-- Why settings give no options. -/
inductive OptionsFault where
  | stem (e : InvalidStem)
  /-- A number that cannot be written as a name. -/
  | number (fault : Fault)
deriving DecidableEq, Repr

/-- The setting of a name in a table of the settings. -/
def setting? (config : Value) (table name : String) : Option Value :=
  (config.field? table.toList).bind fun t => t.field? name.toList

/-- The options that settings ask for. -/
def options (config : Value) : Except OptionsFault Options := do
  let hoistRandom := match setting? config "hoist" "enabled" with
    | some (.bool b) => b
    | _ => true
  let stem ← match setting? config "hoist" "prefix" with
    | some (.string s) => (checkStem s).mapError OptionsFault.stem
    | _ => .ok ['C']
  let areaBase := match setting? config "areas" "base" with
    | some (.int n) => n
    | _ => defaultAreaBase
  let keepLines := match setting? config "minify" "keep_newlines" with
    | some (.bool b) => b
    | _ => true
  let external ← match setting? config "symbols" "extern" with
    | some (.list items) => (items.mapM Value.toText).mapError OptionsFault.number
    | _ => .ok []
  return { hoistRandom, stem, areaBase, keepLines, external }

end MapScript.Settings
