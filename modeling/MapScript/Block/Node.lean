import MapScript.Token.Lexer

/-!
# Blocks

A script as blocks: runs of plain tokens, markers, calls of patterns, repeated
blocks and headers.  Once a script is expanded only runs, headers and the places
where it is cut remain, and those have a type of their own.
-/

namespace MapScript

/-- Tokens in a row and the part of the script they come from. -/
structure Run where
  tokens : List Token
  span : Span
deriving DecidableEq, Repr

/-- The run of some tokens, from the first to the last; none of no tokens. -/
def Run.ofTokens? : List Token → Option Run
  | [] => none
  | t :: ts => some ⟨t :: ts, Token.spanOf t ts⟩

/-- The markers that copy an object to the lands of players. -/
inductive PlayerMarker where
  | everyPlayer
  | eight
deriving DecidableEq, Repr

namespace PlayerMarker

/-- The number of player lands an object is copied to. -/
def lands : PlayerMarker → Nat
  | everyPlayer => 2
  | eight => 8

/-- The directive of a marker. -/
def name : PlayerMarker → Text
  | everyPlayer => "SET_PLACE_FOR_EVERY_PLAYER".toList
  | eight => "PLACE8".toList

end PlayerMarker

/-- Directives that stand alone. -/
inductive Marker where
  /-- Ends the script here. -/
  | cut
  | players (marker : PlayerMarker)
deriving DecidableEq, Repr

namespace Marker

/-- The directive of a marker. -/
def name : Marker → Text
  | cut => "BREAK".toList
  | players m => m.name

/-- All markers. -/
def all : List Marker := [cut, players .everyPlayer, players .eight]

/-- The marker of a directive, upper case. -/
def ofName? (name : Text) : Option Marker := all.find? fun m => m.name == name

end Marker

/-- A pattern call with its arguments, each a list of significant tokens, and
its body. -/
structure Call where
  name : Text
  args : List (List Token)
  body : Option (List Token)
  span : Span
deriving DecidableEq, Repr

/-- The prose between the directives of a header. -/
structure Header where
  tokens : List Token
  span : Span
deriving DecidableEq, Repr

namespace Header

/-- The prose as it is written. -/
def text (h : Header) : Text := Token.rawText h.tokens

/-- The prose as a run, if there is any. -/
def run? (h : Header) : Option Run := Run.ofTokens? h.tokens

end Header

/-- A block of a script. -/
inductive Node where
  | run (run : Run)
  | marker (marker : Marker) (span : Span)
  | call (call : Call)
  /-- Blocks to be repeated, with the argument list of the count. -/
  | repeated (args : List (List Token)) (children : List Node) (openSpan span : Span)
  | header (header : Header)

/-- A part of an expanded script. -/
inductive Piece where
  | run (run : Run)
  /-- The script ends here. -/
  | cut (span : Span)
  | header (header : Header)
deriving DecidableEq, Repr

/-- The block that a part of an expanded script is. -/
def Piece.toNode : Piece → Node
  | run r => .run r
  | cut span => .marker .cut span
  | header h => .header h

/-- The part of an expanded script that a block already is; calls, repeated
blocks and player markers are none. -/
def Node.toPiece? : Node → Option Piece
  | run r => some (.run r)
  | marker .cut span => some (.cut span)
  | header h => some (.header h)
  | _ => none

/-- The parts of a script in order and the span of the whole. -/
structure Script (α : Type) where
  parts : List α
  span : Span
deriving DecidableEq, Repr

/-- The script up to the first place where it is cut. -/
def Script.truncate (s : Script Piece) : Script Piece :=
  { s with parts := s.parts.takeWhile fun
    | .cut _ => false
    | _ => true }

/-- Directives of the engine, which are not ours to interpret. -/
def nativeDirectives : List Text :=
  ["const", "define", "undefine", "include", "include_drs", "includexs"].map String.toList

/-- Whether a token is a directive of the engine, in any case. -/
def Token.isNative (t : Token) : Bool :=
  t.kind == .directive && nativeDirectives.contains (Text.lower t.value)

/-- Whether a token is a directive to be interpreted. -/
def Token.isOwnDirective (t : Token) : Bool := t.kind == .directive && !t.isNative

end MapScript
