import MapScript.Block.Node
import MapScript.Number.Format
import MapScript.Symbol.Evaluation

/-!
# Resolving names

First every constant declaration of a script is entered in the table, so that
constants may be used before they are declared.  Then, in the order of the
script, areas get their numbers where they are declared and used, and operands
of constants become numerals where they have a value.  The changes of one row of
tokens are collected as edits and made all at once.
-/

namespace MapScript

/-- A computation on the symbol table that may fail and keeps what it has entered
before it did. -/
abbrev Resolving := ExceptT Failure (StateM SymbolTable)

namespace Resolving

/-- Runs an evaluation on the table and keeps the values it finds. -/
def evaluate (f : SymbolTable → Evaluation α) : Resolving α := do
  let table ← get
  let (result, values) := (f table).run.run table.values
  set { table with values := values }
  match result with
  | .ok a => pure a
  | .error e => throw e

/-- A result of arithmetic in a computation. -/
def ofFault (result : Except Fault α) : Resolving α :=
  match result with
  | .ok a => pure a
  | .error f => throw (.fault f)

end Resolving

namespace Resolve

/-- The number of coordinates between a command that declares an area and the
name of the area. -/
def areaDeclaration? (command : Text) : Option Nat :=
  if command == "actor_area".toList then some 0
  else if command == "create_actor_area".toList then some 2
  else none

/-- Whether a command is followed by the name of a declared area. -/
def isAreaReference (command : Text) : Bool :=
  command == "avoid_actor_area".toList || command == "actor_area_to_place_in".toList

/-- Whether a token begins the declaration of a constant. -/
def isConst (t : Token) : Bool := t.kind == .directive && Text.lower t.value == "const".toList

/-! ### Declarations of constants -/

/-- The declarations in a row of significant tokens. -/
def declarations : List Token → List (Text × Declaration)
  | [] => []
  | t :: ts =>
    match isConst t, ts with
    | true, name :: rest =>
      if name.kind == .word then
        (name.raw, ⟨rest.take ((Operand.length? rest).getD 0), name.span⟩) :: declarations ts
      else declarations ts
    | _, _ => declarations ts

mutual

/-- The rows of tokens in a block that can declare constants. -/
def nodeGroups : Node → List (List Token)
  | .run r => [r.tokens]
  | .repeated _ children _ _ => groups children
  | .call c => c.body.toList
  | .marker _ _ | .header _ => []

/-- The rows of tokens in blocks, in the order of the script. -/
def groups : List Node → List (List Token)
  | [] => []
  | n :: ns => nodeGroups n ++ groups ns

end

/-- The table with all constants of a script. -/
def declare (table : SymbolTable) (nodes : List Node) : SymbolTable :=
  ((groups nodes).flatMap fun tokens => declarations (Token.significant tokens)).foldl
    (fun table (name, d) => table.declareConstant name d) table

/-! ### Edits -/

/-- A replacement of the tokens from one index to another by one token. -/
structure Edit where
  first : Nat
  last : Nat
  replacement : Token
deriving DecidableEq, Repr

namespace Edit

/-- Whether an index is in the replaced part. -/
def covers (e : Edit) (i : Nat) : Bool := e.first ≤ i && i ≤ e.last

/-- What stands at an index after the edits; of several that cover it the last
counts. -/
def resultAt (edits : List Edit) (t : Token) (i : Nat) : List Token :=
  match edits.reverse.find? fun e => e.covers i with
  | none => [t]
  | some e => if e.first = i then [e.replacement] else []

/-- The tokens after all edits. -/
def applyAll (edits : List Edit) (tokens : List Token) : List Token :=
  tokens.zipIdx.flatMap fun (t, i) => resultAt edits t i

end Edit

/-- A numeral in the place of other tokens, unless it is too long. -/
def numeral (value : Number) (span : Span) : Except Fault Token :=
  value.format.map fun raw => .made .number raw span

/-- The edit that puts a number in the place of the tokens between two indices. -/
def replaceBy (value : Number) (first last : Nat) (span : Span) : Resolving Edit := do
  return ⟨first, last, ← Resolving.ofFault (numeral value span)⟩

/-- A significant token and its index among all. -/
abbrev Indexed := Token × Nat

/-- The significant tokens with their indices. -/
def indexed (tokens : List Token) : List Indexed :=
  tokens.zipIdx.filter fun (t, _) => !t.isTrivia

/-- Whether an operand is a numeral with or without a sign. -/
def isLiteral (operand : List Token) : Bool :=
  operand.length ≤ 2 && operand.getLast?.any fun t => t.kind == .number

/-- The edit that folds the operand of the constant declared before `rest`. -/
def foldDeclaration (name : Token) (rest : List Indexed) : Resolving (Option Edit) := do
  match Operand.length? (rest.map Prod.fst) with
  | none => return none
  | some n =>
    let part := rest.take n
    let operand := part.map Prod.fst
    let table ← get
    Evaluation.check table operand
    let value ← Resolving.evaluate fun table =>
      Evaluation.foldDeclaration table name.raw ⟨operand, name.span⟩
    match value, part with
    | some value, (first, i) :: more =>
      if isLiteral operand then return none
      else
        let (last, j) := (first, i) :: more |>.getLast (by simp)
        some <$> replaceBy value i j ⟨first.span.start, last.span.stop⟩
    | _, _ => return none

/-- What is left after so many operands. -/
def skipOperands : Nat → List Indexed → Option (List Indexed)
  | 0, rest => some rest
  | n + 1, rest => do
    let length ← Operand.length? (rest.map Prod.fst)
    skipOperands n (rest.drop length)

/-- The edit that numbers the area declared by a command before `rest`. -/
def declareArea (coordinates : Nat) (rest : List Indexed) : Resolving (Option Edit) := do
  match skipOperands coordinates rest with
  | some ((name, i) :: _) =>
    if name.kind != .word || (← get).isConstant name.raw then return none
    modify fun table => table.declareArea name.raw
    match (← get).areaId? name.raw with
    | some area => some <$> replaceBy (.int area) i i name.span
    | none => return none
  | _ => return none

/-- The edit that numbers the area used by a command before `rest`. -/
def referArea (rest : List Indexed) : Resolving (Option Edit) := do
  match rest with
  | (name, i) :: _ =>
    if name.kind != .word then return none
    let table ← get
    match table.areaId? name.raw with
    | some area => some <$> replaceBy (.int area) i i name.span
    | none =>
      if table.isConstant name.raw then return none
      throw (.refuse (.undeclaredArea name.raw) name.span [])
  | [] => return none

/-- The edit that a token calls for, given the significant tokens after it. -/
def editAt (t : Token) (rest : List Indexed) : Resolving (Option Edit) := do
  if isConst t then
    match rest with
    | (name, _) :: rest => if name.kind == .word then foldDeclaration name rest else return none
    | [] => return none
  else if t.kind != .word then return none
  else
    match areaDeclaration? t.raw with
    | some coordinates => declareArea coordinates rest
    | none => if isAreaReference t.raw then referArea rest else return none

/-- The edits that a row of significant tokens calls for, in its order. -/
def edits : List Indexed → Resolving (List Edit)
  | [] => return []
  | (t, _) :: rest => do
    let here ← editAt t rest
    let later ← edits rest
    return here.toList ++ later

/-- A row of tokens with its names resolved. -/
def resolveTokens (tokens : List Token) : Resolving (List Token) := do
  let edits ← edits (indexed tokens)
  return Edit.applyAll edits tokens

/-- Refuses arguments in which a name is declared nowhere. -/
def checkArguments (args : List (List Token)) : Resolving Unit := do
  let table ← get
  args.forM fun arg => (Evaluation.check table arg : Except Failure Unit)

mutual

/-- A block with its names resolved. -/
def resolveNode : Node → Resolving Node
  | .run r => do return .run ⟨← resolveTokens r.tokens, r.span⟩
  | .repeated args children openSpan span => do
    checkArguments args
    return .repeated args (← resolveNodes children) openSpan span
  | .call c => do
    checkArguments c.args
    match c.body with
    | none => return .call c
    | some body => return .call { c with body := some (← resolveTokens body) }
  | .marker m span => return .marker m span
  | .header h => return .header h

/-- Blocks with their names resolved, in the order of the script. -/
def resolveNodes : List Node → Resolving (List Node)
  | [] => return []
  | n :: ns => do
    let n ← resolveNode n
    let ns ← resolveNodes ns
    return n :: ns

end

end Resolve

/-- The script with its names resolved; the table takes them up. -/
def Script.resolve (s : Script Node) : Resolving (Script Node) := do
  modify fun table => Resolve.declare table s.parts
  return { s with parts := ← Resolve.resolveNodes s.parts }

end MapScript
