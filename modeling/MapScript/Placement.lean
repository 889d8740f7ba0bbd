import MapScript.Expansion

/-!
# Objects for every player

An object whose body holds a player marker is written once for each land of a
player, each copy ending with the number of its land.  An object runs from its
command to the bracket that closes its body; a header or the end of the script
before that leaves it as it is, unless it holds a marker.
-/

namespace MapScript

namespace Placement

/-- What the search for objects sees, one at a time. -/
inductive Item where
  | token (t : Token)
  | marker (m : PlayerMarker) (span : Span)
  /-- A part that no object reaches across. -/
  | barrier (p : Piece)

/-- The items of a leaf. -/
def items : Leaf → List Item
  | .run r => r.tokens.map .token
  | .marker .cut span => [.barrier (.cut span)]
  | .marker (.players m) span => [.marker m span]
  | .header h => [.barrier (.header h)]

/-- An object whose end is not reached: its command, the tokens after it with the
newest first, the brackets open and the last marker seen. -/
structure Object where
  command : Token
  later : List Token
  depth : Int
  marker : Option (PlayerMarker × Span)

namespace Object

/-- The tokens in order. -/
def tokens (o : Object) : List Token := o.command :: o.later.reverse

/-- The object with one more token. -/
def push (o : Object) (t : Token) : Object := { o with later := t :: o.later }

/-- The copy of an object for a land. -/
def copy (o : Object) (closing : Token) (span : Span) (land : Nat) : List Token :=
  let made (kind : TokenKind) (raw : String) : Token := .made kind raw.toList span
  let newline := made .newline "\n"
  (if 1 < land then [newline] else []) ++ o.tokens ++
    [made .blank " ", made .word "place_on_specific_land_id", made .blank " ",
      .made .number (Text.ofNat land) span, newline, closing]

/-- The tokens of an object that its closing bracket ends. -/
def close (o : Object) (closing : Token) : List Token :=
  match o.marker with
  | none => o.tokens ++ [closing]
  | some (m, span) => (List.range m.lands).flatMap fun i => o.copy closing span (i + 1)

/-- The tokens of an object that is never closed, which must not hold a marker. -/
def abandon (o : Object) : Except Report (List Token) :=
  match o.marker with
  | none => .ok o.tokens
  | some (m, span) =>
    .error ⟨.openObject m.name, o.command.span,
      [⟨'#' :: m.name ++ " used here".toList, span⟩]⟩

end Object

/-- A token or a part between tokens. -/
abbrev Placed := Token ⊕ Piece

/-- Puts placed items in front of what is placed later. -/
def before (front : List Placed) (later : Except Report (List Placed)) :
    Except Report (List Placed) :=
  later.map (front ++ ·)

/-- The items with every marked object copied; `object` is the one being read. -/
def place (object : Option Object) : List Item → Except Report (List Placed)
  | [] =>
    match object with
    | none => .ok []
    | some o => o.abandon.map fun ts => ts.map .inl
  | .token t :: rest =>
    match object with
    | none =>
      if t.isWord "create_object".toList then place (some ⟨t, [], 0, none⟩) rest
      else before [.inl t] (place none rest)
    | some o =>
      if t.isPunct '\x7b' then place (some { o.push t with depth := o.depth + 1 }) rest
      else if t.isPunct '\x7d' then
        if o.depth = 1 then before ((o.close t).map .inl) (place none rest)
        else place (some { o.push t with depth := o.depth - 1 }) rest
      else place (some (o.push t)) rest
  | .marker m span :: rest =>
    match object with
    | some o =>
      if o.depth = 1 then place (some { o with marker := some (m, span) }) rest
      else .error ⟨.strayMarker m.name, span, []⟩
    | none => .error ⟨.strayMarker m.name, span, []⟩
  | .barrier p :: rest =>
    match object with
    | none => before [.inr p] (place none rest)
    | some o =>
      match o.abandon with
      | .error e => .error e
      | .ok ts => before (ts.map .inl ++ [.inr p]) (place none rest)

/-- Tokens, newest first, as a run in front of parts. -/
def flush (pending : List Token) (pieces : List Piece) : List Piece :=
  match Run.ofTokens? pending.reverse with
  | none => pieces
  | some r => .run r :: pieces

/-- Neighbouring tokens gathered into runs, after some that are pending. -/
def gather (pending : List Token) : List Placed → List Piece
  | [] => flush pending []
  | .inl t :: rest => gather (t :: pending) rest
  | .inr p :: rest => flush pending (p :: gather [] rest)

/-- A leaf as a part of an expanded script; player markers are none. -/
def toPiece? : Leaf → Option Piece
  | .run r => some (.run r)
  | .marker .cut span => some (.cut span)
  | .marker (.players _) _ => none
  | .header h => some (.header h)

/-- Whether a leaf is a player marker. -/
def isPlayerMarker : Leaf → Bool
  | .marker (.players _) _ => true
  | _ => false

/-- The parts of an expanded script with every marked object copied.  Without a
marker the runs stay as they are. -/
def placeAll (leaves : List Leaf) : Except Report (List Piece) :=
  if leaves.any isPlayerMarker then (place none (leaves.flatMap items)).map (gather [])
  else .ok (leaves.filterMap toPiece?)

end Placement

/-- The script without repeated blocks, calls and player markers. -/
def Script.expand (s : Script Node) : Pass (Script Piece) := do
  let leaves ← Expansion.expandNodes s.parts
  let pieces ← Pass.ofReport (Placement.placeAll leaves)
  return ⟨pieces, s.span⟩

end MapScript
