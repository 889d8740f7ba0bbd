import MapScript.Command.Batch

/-!
# The program

Loads what a command line can touch into a file tree, carries the command line out
on it, and writes back what has changed.
-/

namespace MapScript.Program

open Command

/-- A location as an absolute path. -/
def absolutePath (location : Location) : String :=
  "/" ++ String.ofList (Text.join ['/'] location)

/-- Adds what lies at a location to a tree. -/
def loadEntry (tree : FileTree) (location : Location) : IO FileTree := do
  let path := (← IO.currentDir) / absolutePath location
  if ← path.isDir then return tree.insert location .directory
  else if ← path.pathExists then
    return tree.insert location (.file (← IO.FS.readBinFile path).toList)
  else return tree

/-- Adds what lies along the parts of a path to a tree. -/
def loadParts (tree : FileTree) (here : Location) : List Text → IO FileTree
  | [] => return tree
  | part :: rest => do
    let next := FileTree.enter here part
    loadParts (← loadEntry tree next) next rest

/-- The tree of all that a command line can touch. -/
def loadTree (a : Arguments) : IO FileTree := do
  let here := (Path.ofText (← IO.currentDir).toString.toList).parts
  let mut tree ← loadParts ⟨[], here⟩ [] here
  for p in touched a do
    tree ← loadParts tree (tree.start p) p.parts
  return tree

/-- Writes an entry that is new or changed. -/
def storeEntry (before : FileTree) (location : Location) (entry : Entry) : IO Unit := do
  if before.entry? location == some entry then return
  let path := (← IO.currentDir) / absolutePath location
  match entry with
  | .directory => IO.FS.createDirAll path
  | .file octets => IO.FS.writeBinFile path ⟨octets.toArray⟩

/-- What is printed when help is wanted. -/
def helpText : String :=
  "usage: rmsprep [-h] [-o OUTPUT | -d DIR] [--config FILE] [--no-hoist] [--rnd-prefix PREFIX] " ++
    "[--area-base N] [--single-line] [--extern NAME] [--debug] [-v] INPUT [INPUT ...]\n"

/-- Prints what a batch has to say and writes what it has changed. -/
def finish (before : FileTree) (batch : Batch) (abort : Option Abort) : IO UInt32 := do
  for (location, entry) in batch.tree.entries do
    storeEntry before location entry
  IO.print (String.ofList batch.stdout)
  IO.eprint (String.ofList batch.stderr)
  match abort with
  | none => return batch.status.toUInt32
  | some (.setup fault) =>
    IO.eprintln ("error: " ++ String.ofList fault.message)
    return 1
  | some .baseless =>
    IO.eprintln "error: --area-base needs a number"
    return 1
  | some (.file fault) =>
    IO.eprintln ("error: " ++ String.ofList fault.message)
    return 1
  | some (.arithmetic _) =>
    IO.eprintln "error: arithmetic without a value"
    return 1

/-- Ends a command line that is not one. -/
def refuse (fault : UsageFault) : IO UInt32 := do
  if fault = .helpWanted then
    IO.print helpText
    return 0
  IO.eprint helpText
  IO.eprintln ("rmsprep: error: " ++ String.ofList fault.message)
  return 2

end MapScript.Program

open MapScript MapScript.Program in
/-- The program. -/
def main (args : List String) : IO UInt32 := do
  let args := args.map String.toList
  match Command.Arguments.parse args with
  | .error fault => refuse fault
  | .ok a =>
    let tree ← loadTree a
    match Command.run tree args with
    | .usage fault => refuse fault
    | .finished batch abort => finish tree batch abort
