import MapScript.Settings.Value

/-!
# Tables under construction

The fields of a table are added one by one under keys of several parts; the
tables on the way are made where they are missing.  A value that is a list or a
table stays as it was written: nothing is added inside it later.
-/

namespace MapScript.Settings.Toml

/-- A key: the names of the tables on the way and of the field. -/
abbrev Key := List Text

/-- The fields of a table. -/
abbrev Fields := List (Text × Value)

/-- The fields with the value of a name replaced. -/
def replaceField (name : Text) (value : Value) (fields : Fields) : Fields :=
  fields.map fun (n, v) => if n == name then (n, value) else (n, v)

/-- The fields with one more, whose name must be new. -/
def addField (name : Text) (value : Value) (fields : Fields) : Option Fields :=
  if (fields.lookup name).isSome then none else some (fields ++ [(name, value)])

/-- Changes the table that a key leads to.  A list on the way leads to its last
table, if lists may be entered. -/
def changeAt (lists : Bool) (change : Fields → Option Fields) : Key → Fields → Option Fields
  | [], fields => change fields
  | name :: key, fields =>
    match fields.lookup name with
    | none => (changeAt lists change key []).map fun inner => fields ++ [(name, .table inner)]
    | some (.table inner) =>
      (changeAt lists change key inner).map fun inner => replaceField name (.table inner) fields
    | some (.list items) =>
      match lists, items.getLast? with
      | true, some (.table inner) =>
        (changeAt lists change key inner).map fun inner =>
          replaceField name (.list (items.dropLast ++ [.table inner])) fields
      | _, _ => none
    | some _ => none

/-- Adds a field under a key. -/
def insertAt (lists : Bool) (key : Key) (value : Value) (fields : Fields) : Option Fields :=
  match key.getLast? with
  | none => none
  | some name => changeAt lists (addField name value) key.dropLast fields

/-- Adds an empty table to a list under a name. -/
def appendTable (name : Text) (fields : Fields) : Option Fields :=
  match fields.lookup name with
  | none => some (fields ++ [(name, .list [.table []])])
  | some (.list items) => some (replaceField name (.list (items ++ [.table []])) fields)
  | some _ => none

/-- Whether a value holds others. -/
def isContainer : Value → Bool
  | .list _ | .table _ => true
  | _ => false

/-- Whether a key is one of some or leads into one of them. -/
def isWithin (keys : List Key) (key : Key) : Bool := keys.any fun k => k.isPrefixOf key

/-- The fields of a table that is written on one line, and the keys under which
nothing may be added. -/
structure Inline where
  fields : Fields := []
  frozen : List Key := []

namespace Inline

/-- Adds a field to a table on one line. -/
def add (table : Inline) (key : Key) (value : Value) : Option Inline :=
  if isWithin table.frozen key then none
  else
    (insertAt false key value table.fields).map fun fields =>
      ⟨fields, if isContainer value then key :: table.frozen else table.frozen⟩

end Inline

/-- The document so far: its fields, the key of the open table, the keys under
which nothing may be added, those of tables that are not opened again, and those
that become so with the next table. -/
structure Document where
  fields : Fields := []
  header : Key := []
  frozen : List Key := []
  closed : List Key := []
  pending : List Key := []

namespace Document

/-- The document before the next table is opened. -/
def settle (d : Document) : Document :=
  { d with closed := d.closed ++ d.pending, pending := [] }

/-- Opens a table. -/
def openTable (d : Document) (key : Key) : Option Document :=
  let d := d.settle
  if d.closed.contains key || isWithin d.frozen key then none
  else
    (changeAt true some key d.fields).map fun fields =>
      { d with fields := fields, header := key, closed := key :: d.closed }

/-- Opens a new table at the end of a list of tables, in which everything may be
opened again. -/
def openListed (d : Document) (key : Key) : Option Document :=
  let d := d.settle
  if isWithin d.frozen key then none
  else
    match key.getLast? with
    | none => none
    | some name =>
      (changeAt true (appendTable name) key.dropLast d.fields).map fun fields =>
        { d with
          fields := fields
          header := key
          frozen := d.frozen.filter fun k => !key.isPrefixOf k
          closed := key :: d.closed.filter fun k => !key.isPrefixOf k }

/-- The keys of the tables that a key passes through in the open table. -/
def passed (d : Document) (key : Key) : List Key :=
  (List.range key.length).filterMap fun (n : Nat) =>
    if n = 0 then none else some (d.header ++ key.take n)

/-- Adds a field to the open table. -/
def add (d : Document) (key : Key) (value : Value) : Option Document :=
  let whole := d.header ++ key
  if (d.passed key).any d.closed.contains || isWithin d.frozen whole.dropLast then none
  else
    (insertAt true whole value d.fields).map fun fields =>
      { d with
        fields := fields
        frozen := if isContainer value then whole :: d.frozen else d.frozen
        pending := d.pending ++ d.passed key }

end Document

end MapScript.Settings.Toml
