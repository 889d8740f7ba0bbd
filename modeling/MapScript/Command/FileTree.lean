import MapScript.Command.Path
import MapScript.Text.Utf8

/-!
# File trees

Files and directories by their location, the list of names from the root, with a
working directory.  A path leads from one directory to the next; reading, writing
and making directories fail as the first step fails that cannot be taken.
-/

namespace MapScript.Command

/-- Why a file operation fails. -/
inductive FileFault where
  | notFound
  | alreadyExists
  | isDirectory
  | notDirectory
  | nameTooLong
  /-- A name with a character that no name has. -/
  | unnameable
deriving DecidableEq, Repr

/-- The words for a fault. -/
def FileFault.message : FileFault → Text
  | notFound => "No such file or directory".toList
  | alreadyExists => "File exists".toList
  | isDirectory => "Is a directory".toList
  | notDirectory => "Not a directory".toList
  | nameTooLong => "File name too long".toList
  | unnameable => "Invalid argument".toList

/-- What lies at a location. -/
inductive Entry where
  | file (octets : List UInt8)
  | directory
deriving DecidableEq, Repr

/-- A location: the names from the root on. -/
abbrev Location := List Text

/-- Files and directories, and the directory that paths start from. -/
structure FileTree where
  entries : List (Location × Entry)
  workingDirectory : Location
deriving DecidableEq, Repr

namespace FileTree

/-- What lies at a location; the root is a directory. -/
def entry? (tree : FileTree) (location : Location) : Option Entry :=
  if location.isEmpty then some .directory else tree.entries.lookup location

/-- The tree with an entry at a location. -/
def insert (tree : FileTree) (location : Location) (entry : Entry) : FileTree :=
  { tree with entries :=
      if (tree.entries.lookup location).isSome then
        tree.entries.map fun (l, e) => if l == location then (l, entry) else (l, e)
      else tree.entries ++ [(location, entry)] }

/-- The location that a part leads to from a directory. -/
def enter (here : Location) (part : Text) : Location :=
  if part == ['.', '.'] then here.dropLast else here ++ [part]

/-- Where a path starts. -/
def start (tree : FileTree) (p : Path) : Location :=
  if p.root.isEmpty then tree.workingDirectory else []

/-- The most octets in a name. -/
def maxName : Nat := 255

/-- The most octets in a path. -/
def maxPath : Nat := 4095

/-- Whether a name is longer than names can be. -/
def isLong (part : Text) : Bool := maxName < (Text.Utf8.encode part).length

/-- Refuses a path that cannot be looked up at all. -/
def check (p : Path) : Except FileFault Unit :=
  if p.toText.contains '\x00' then .error .unnameable
  else if maxPath < (Text.Utf8.encode p.toText).length then .error .nameTooLong
  else .ok ()

/-- The location that parts lead to; all but the last must lead to directories. -/
def locateFrom (tree : FileTree) (here : Location) : List Text → Except FileFault Location
  | [] => .ok here
  | part :: rest =>
    match tree.entry? here with
    | none => .error .notFound
    | some (.file _) => .error .notDirectory
    | some .directory =>
      if isLong part then .error .nameTooLong else tree.locateFrom (enter here part) rest

/-- The location that a path leads to. -/
def locate (tree : FileTree) (p : Path) : Except FileFault Location := do
  check p
  tree.locateFrom (tree.start p) p.parts

/-- The octets of a file. -/
def read (tree : FileTree) (p : Path) : Except FileFault (List UInt8) :=
  match tree.locate p with
  | .error e => .error e
  | .ok location =>
    match tree.entry? location with
    | none => .error .notFound
    | some .directory => .error .isDirectory
    | some (.file octets) => .ok octets

/-- Writes a file, new or not, in a directory that exists. -/
def write (tree : FileTree) (p : Path) (octets : List UInt8) : Except FileFault FileTree :=
  match tree.locate p with
  | .error e => .error e
  | .ok location =>
    match tree.entry? location with
    | some .directory => .error .isDirectory
    | _ => .ok (tree.insert location (.file octets))

/-- Makes the directories that parts lead through and that are missing. -/
def makeFrom (tree : FileTree) (here : Location) : List Text → Except FileFault FileTree
  | [] => .ok tree
  | part :: rest =>
    let next := enter here part
    if isLong part then .error .nameTooLong
    else
      match tree.entry? next with
      | some .directory => tree.makeFrom next rest
      | none => (tree.insert next .directory).makeFrom next rest
      | some (.file _) => .error (if rest.isEmpty then .alreadyExists else .notDirectory)

/-- Makes a directory and those above it, as far as they are missing. -/
def makeDirectories (tree : FileTree) (p : Path) : Except FileFault FileTree := do
  check p
  tree.makeFrom (tree.start p) p.parts

end FileTree

end MapScript.Command
