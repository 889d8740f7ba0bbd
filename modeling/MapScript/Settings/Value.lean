import MapScript.Number.Format
import MapScript.Number.Shortest
import MapScript.Settings.Moment
import MapScript.Text.Quoted

/-!
# Setting values

What a settings file can hold, and how a value reads as text: a string as it is,
anything else as it is written, with strings inside lists and tables quoted.
-/

namespace MapScript.Settings

/-- A value of a setting. -/
inductive Value where
  | null
  | bool (value : Bool)
  | int (value : Int)
  | float (value : Binary64)
  | string (value : Text)
  | moment (value : Moment)
  | list (items : List Value)
  | table (fields : List (Text × Value))

namespace Value

/-- The field of a table with a name; other values have no fields. -/
def field? (v : Value) (name : Text) : Option Value :=
  match v with
  | table fields => fields.lookup name
  | _ => none

mutual

/-- A value as it is written, unless an integer in it is too long. -/
def written : Value → Except Fault Text
  | null => .ok "None".toList
  | bool true => .ok "True".toList
  | bool false => .ok "False".toList
  | int n => Number.writeInt n
  | float x => .ok x.shortest
  | string s => .ok (Text.quoted s)
  | moment m => .ok m.written
  | list items => do return '[' :: Text.join ", ".toList (← writtenItems items) ++ [']']
  | table fields => do return '\x7b' :: Text.join ", ".toList (← writtenFields fields) ++ ['\x7d']

/-- The items of a list as they are written. -/
def writtenItems : List Value → Except Fault (List Text)
  | [] => return []
  | v :: vs => do return (← v.written) :: (← writtenItems vs)

/-- The fields of a table as they are written. -/
def writtenFields : List (Text × Value) → Except Fault (List Text)
  | [] => return []
  | (name, v) :: rest => do
    return (Text.quoted name ++ ": ".toList ++ (← v.written)) :: (← writtenFields rest)

end

/-- A value as text: a string is its own text, and so is a moment. -/
def toText : Value → Except Fault Text
  | string s => .ok s
  | moment m => .ok m.display
  | v => v.written

end Value

end MapScript.Settings
