import MapScript.Number.Basic
import MapScript.Text.Basic

/-!
# Layouts

Where the lands of a pattern lie.  Every point is on the grid of the map: each
coordinate is rounded to the nearest integer, halves away from zero, and brought
between the edges.  The arithmetic is that of script numbers, so integers stay
exact until a quotient or a double comes in.
-/

namespace MapScript

/-- A point of the map grid. -/
structure Point where
  x : Int
  y : Int
deriving DecidableEq, Repr

namespace Layout

/-- The largest coordinate to the right. -/
def maxX : Int := 100

/-- The largest coordinate to the top. -/
def maxY : Int := 99

/-- The middle of the map. -/
def center : Number := .float (.ofInt 50)

/-- Half a turn is `pi`; a whole one, as the nearest double. -/
def turn : Binary64 := .ofBits 0x401921FB54442D18

/-- The double nearest to a degree, `pi / 180`. -/
def degree : Binary64 := .ofBits 0x3F91DF46A2529D39

/-- A coordinate between an edge and the largest one. -/
def clamp (largest : Int) (n : Int) : Int := min (max n 0) largest

/-- The grid point nearest to a position. -/
def toGrid (x y : Number) : Except Fault Point := do
  let gx ← x.round
  let gy ← y.round
  return ⟨clamp maxX gx, clamp maxY gy⟩

/-- A function of an angle, which must be finite. -/
def ofAngle (f : Binary64 → Binary64) (angle : Number) : Except Fault Number := do
  let a ← angle.toDouble
  if a.isInfinite then .error .invalid else return .float (f a)

/-- The numbers `0, 1, ..., count - 1`. -/
def indices (count : Int) : List Number := (List.range count.toNat).map fun (n : Nat) => .int n

/-- So many points at even angles on a circle, counter-clockwise from an angle
in degrees. -/
def circle (count : Int) (radius cx cy startDegrees : Number) : Except Fault (List Point) := do
  let step ← (Number.float turn).div (.int count)
  let start := (← startDegrees.toDouble).mul degree
  (indices count).mapM fun i => do
    let angle ← (Number.float start).add (← i.mul (.float step))
    let x ← cx.add (← radius.mul (← ofAngle .cos angle))
    let y ← cy.add (← radius.mul (← ofAngle .sin angle))
    toGrid x y

/-- The coordinate of a point on a line: `a + (b - a) * i / last`. -/
def between (a b i last : Number) : Except Fault Number := do
  let way ← (← b.sub a).mul i
  a.add (.float (← way.div last))

/-- So many points at even distances from one end of a line to the other. -/
def line (count : Int) (x1 y1 x2 y2 : Number) : Except Fault (List Point) := do
  if count = 1 then return [← toGrid x1 y1]
  (indices count).mapM fun i => do
    let x ← between x1 x2 i (.int (count - 1))
    let y ← between y1 y2 i (.int (count - 1))
    toGrid x y

/-- The length of a leg parallel to an axis. -/
def legLength (dx dy : Binary64) : Binary64 :=
  if dx.isInfinite || dy.isInfinite then .infinity false else dx.abs.add dy.abs

/-- A corner of a path. -/
structure Corner where
  x : Number
  y : Number

/-- The place at a part `t` of the way from one number to another. -/
def along (a b t : Number) : Except Fault Number := do
  a.add (← (← b.sub a).mul t)

/-- The grid point at a distance along a path that begins at a corner. -/
def walk (distance : Binary64) (a : Corner) : List Corner → Except Fault Point
  | [] => toGrid a.x a.y
  | b :: path => do
    let dx ← (← b.x.sub a.x).toDouble
    let dy ← (← b.y.sub a.y).toDouble
    let length := legLength dx dy
    if distance.le length && (Binary64.finite false 0).lt length then
      let t := Number.float (distance.div length)
      let x ← along a.x b.x t
      let y ← along a.y b.y t
      toGrid x y
    else walk (distance.sub length) b path

/-- The middle of the right edge of a square, and the corners from there round to
it again. -/
def corners (h cx cy : Number) : Except Fault (Corner × List Corner) := do
  let right ← cx.add h
  let left ← cx.sub h
  let top ← cy.add h
  let bottom ← cy.sub h
  return (⟨right, cy⟩,
    [⟨right, top⟩, ⟨left, top⟩, ⟨left, bottom⟩, ⟨right, bottom⟩, ⟨right, cy⟩])

/-- So many points at even distances along the edges of a square, counter-clockwise
from the middle of the right edge. -/
def square (count : Int) (halfSide cx cy : Number) : Except Fault (List Point) := do
  let (start, path) ← corners halfSide cx cy
  let perimeter ← (Number.int 8).mul halfSide
  (indices count).mapM fun i => do
    let distance ← (← perimeter.mul i).div (.int count)
    walk distance start path

end Layout

end MapScript
