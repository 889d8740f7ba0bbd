import MapScript.Token.Basic
import MapScript.Number.Basic

/-!
# Symbol tables

The names of one script.  Areas are numbered in the order in which they are
declared, from a base on, and are kept with their numbers.
Constants keep all their declarations; a constant may also be declared outside
the script.  The values found so far are kept, none being a value of its own.
-/

namespace MapScript

/-- The first area number that does not clash with those of the engine's maps. -/
def defaultAreaBase : Int := 20000

/-- A declaration of a constant: its operand, empty if it has none, and the
place of the name. -/
structure Declaration where
  operand : List Token
  span : Span
deriving DecidableEq, Repr

/-- Values of constants; none stands for a constant without a single value. -/
abbrev Memo := List (Text × Option Number)

/-- The names of a script. -/
structure SymbolTable where
  areaBase : Int := defaultAreaBase
  external : List Text := []
  numberedAreas : List (Text × Int) := []
  constants : List (Text × List Declaration) := []
  values : Memo := []
deriving DecidableEq, Repr

namespace SymbolTable

/-- The areas, in the order of declaration. -/
def areas (table : SymbolTable) : List Text := table.numberedAreas.map Prod.fst

/-- The number of an area. -/
def areaId? (table : SymbolTable) (name : Text) : Option Int := table.numberedAreas.lookup name

/-- The table with an area declared; one that is known keeps its number. -/
def declareArea (table : SymbolTable) (name : Text) : SymbolTable :=
  if table.areas.contains name then table
  else
    { table with
      numberedAreas :=
        table.numberedAreas ++ [(name, table.areaBase + table.numberedAreas.length)] }

/-- Whether a name is a constant of the script or from outside. -/
def isConstant (table : SymbolTable) (name : Text) : Bool :=
  (table.constants.lookup name).isSome || table.external.contains name

/-- All names. -/
def names (table : SymbolTable) : List Text :=
  table.areas ++ table.constants.map Prod.fst ++ table.external

/-- The declarations of constants with one more. -/
def addDeclaration (name : Text) (d : Declaration) :
    List (Text × List Declaration) → List (Text × List Declaration)
  | [] => [(name, [d])]
  | (other, ds) :: rest =>
    if other == name then (other, ds ++ [d]) :: rest
    else (other, ds) :: addDeclaration name d rest

/-- The table with a constant declared once more. -/
def declareConstant (table : SymbolTable) (name : Text) (d : Declaration) : SymbolTable :=
  { table with constants := addDeclaration name d table.constants }
end SymbolTable

end MapScript
