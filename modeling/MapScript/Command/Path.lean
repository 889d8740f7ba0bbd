import MapScript.Text.Basic

/-!
# Paths

A path is its root and its parts.  Repeated slashes count once and parts that
name the same directory are left out; a part that names the directory above
stays, as it may lead elsewhere.
-/

namespace MapScript.Command

/-- A path of a file or directory. -/
structure Path where
  /-- Nothing for a path from the working directory. -/
  root : Text
  parts : List Text
deriving DecidableEq, Repr

namespace Path

/-- The root of a path: two slashes, and no more, are a root of their own. -/
def rootOf (t : Text) : Text :=
  match (t.takeWhile (· == '/')).length with
  | 0 => []
  | 2 => ['/', '/']
  | _ => ['/']

/-- The path that a text names. -/
def ofText (t : Text) : Path :=
  ⟨rootOf t, (Text.splitOn '/' t).filter fun part => !part.isEmpty && part != ['.']⟩

/-- The path as text. -/
def toText (p : Path) : Text :=
  if p.root.isEmpty && p.parts.isEmpty then ['.'] else p.root ++ Text.join ['/'] p.parts

/-- The directory that a path lies in. -/
def parent (p : Path) : Path := { p with parts := p.parts.dropLast }

/-- The last part of a path. -/
def name (p : Path) : Text := p.parts.getLastD []

/-- A path in a directory. -/
def child (p : Path) (name : Text) : Path :=
  { p with parts := p.parts ++ (ofText name).parts }

end Path

end MapScript.Command
