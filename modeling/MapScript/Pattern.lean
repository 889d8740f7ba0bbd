import MapScript.Layout

/-!
# Patterns

The patterns a script can call: their names, their parameters, the first of which
is always the count, and the points they place lands on.
-/

namespace MapScript

/-- A pattern of lands. -/
inductive Pattern where
  | circle
  | line
  | square
deriving DecidableEq, Repr

/-- A parameter of a pattern after the count. -/
structure Parameter where
  name : Text
  required : Bool
deriving DecidableEq, Repr

namespace Pattern

/-- All patterns, by name. -/
def all : List Pattern := [circle, line, square]

/-- The directive that calls a pattern. -/
def name : Pattern → Text
  | circle => "CIRCLE_LANDS".toList
  | line => "LINE_LANDS".toList
  | square => "SQUARE_LANDS".toList

/-- The pattern that a directive calls. -/
def ofName? (name : Text) : Option Pattern := all.find? fun p => p.name == name

/-- The parameters in order, required ones first. -/
def parameters : Pattern → List Parameter
  | circle => required ["count", "radius"] ++ optional ["cx", "cy", "start_deg"]
  | line => required ["count", "x1", "y1", "x2", "y2"]
  | square => required ["count", "half_side"] ++ optional ["cx", "cy"]
where
  required (names : List String) : List Parameter := names.map fun n => ⟨n.toList, true⟩
  optional (names : List String) : List Parameter := names.map fun n => ⟨n.toList, false⟩

/-- The number of arguments that cannot be left out. -/
def requiredCount (p : Pattern) : Nat := (p.parameters.filter Parameter.required).length

/-- How a pattern is called, with the arguments that can be left out in brackets. -/
def signature (p : Pattern) : Text :=
  let shown := p.parameters.map fun q => if q.required then q.name else '[' :: q.name ++ [']']
  '#' :: p.name ++ '(' :: Text.join ", ".toList shown ++ [')']

/-- The points of a pattern, given the count and the other arguments; what is left
out lies in the middle of the map. -/
def points (p : Pattern) (count : Int) (args : List Number) : Except Fault (List Point) :=
  let arg (i : Nat) : Number := args.getD i Layout.center
  match p with
  | circle => Layout.circle count (arg 0) (arg 1) (arg 2) (args.getD 3 (.float (.ofInt 0)))
  | line => Layout.line count (arg 0) (arg 1) (arg 2) (arg 3)
  | square => Layout.square count (arg 0) (arg 1) (arg 2)

end Pattern

end MapScript
