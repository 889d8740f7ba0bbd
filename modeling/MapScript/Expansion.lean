import MapScript.Pattern
import MapScript.Session

/-!
# Expansion

Repeated blocks become copies of what they hold, and calls of patterns become the
lands they place.  A repeated block is expanded before it is copied.
-/

namespace MapScript

/-- A block of a script without repeated blocks and calls. -/
inductive Leaf where
  | run (run : Run)
  | marker (marker : Marker) (span : Span)
  | header (header : Header)
deriving DecidableEq, Repr

namespace Expansion

/-- The part of the script from the first token of an argument to the last. -/
def argumentSpan (arg : List Token) (empty : Span) : Span :=
  match arg with
  | [] => empty
  | t :: ts => Token.spanOf t ts

/-- The count of a repeated block; a negative one counts as none. -/
def repeatCount (args : List (List Token)) (openSpan : Span) : Pass Nat := do
  match args with
  | [t :: ts] =>
    match (← Pass.fold (t :: ts)).bind Number.asInt? with
    | none => Pass.refuse (.repeatCount (Token.rawText (t :: ts))) (Token.spanOf t ts)
    | some (.ofNat n) => return n
    | some count =>
      let _ ← Pass.ofFault (Number.writeInt count)
      Pass.warn (.negativeRepeat count) openSpan
      return 0
  | _ => Pass.refuse .repeatArity openSpan

/-- The value of an argument. -/
def argumentValue (c : Call) (parameter : Text) (arg : List Token) : Pass Number := do
  match ← (if arg.isEmpty then pure none else Pass.fold arg) with
  | some value => return value
  | none =>
    let shown := if arg.isEmpty then "<empty>".toList else Token.rawText arg
    Pass.refuse (.notNumeric c.name parameter shown) (argumentSpan arg c.span)

/-- The positive integer that a number is. -/
def positive? (value : Number) : Option Int :=
  match value.asInt? with
  | some count => if 1 ≤ count then some count else none
  | none => none

/-- The value of the argument that counts the lands. -/
def countValue (c : Call) (parameter : Text) (arg : List Token) : Pass Int := do
  let value ← argumentValue c parameter arg
  match positive? value with
  | some count => return count
  | none =>
    let shown ← Pass.ofFault value.format
    Pass.refuse (.notPositive c.name parameter shown) (argumentSpan arg c.span)

/-- The values of the arguments after the count. -/
def argumentValues (c : Call) : List Parameter → List (List Token) → Pass (List Number)
  | p :: ps, arg :: args => do
    let value ← argumentValue c p.name arg
    let values ← argumentValues c ps args
    return value :: values
  | _, _ => return []

/-- The tokens without trivia at their ends. -/
def stripTrivia (ts : List Token) : List Token :=
  ((ts.dropWhile Token.isTrivia).reverse.dropWhile Token.isTrivia).reverse

/-- The tokens of a land at a point with a body, on a line of its own. -/
def landTokens (span : Span) (body : List Token) (p : Point) : List Token :=
  let word (kind : TokenKind) (raw : String) : Token := .made kind raw.toList span
  let space := word .blank " "
  let inner := stripTrivia body
  [word .word "create_land", space, word .punct "\x7b", space, word .word "land_position", space,
    .made .number (Text.ofInt p.x) span, space, .made .number (Text.ofInt p.y) span] ++
    (if inner.isEmpty then [] else space :: inner) ++
    [space, word .punct "\x7d", word .newline "\n"]

/-- The lands that a call places. -/
def expandCall (c : Call) : Pass (List Leaf) := do
  match Pattern.ofName? c.name with
  | none => Pass.refuse (.unknownCall c.name (Pattern.all.map Pattern.name)) c.span
  | some pattern =>
    let arity : Pass (List Leaf) :=
      Pass.refuse (.callArity c.name pattern.signature c.args.length) c.span
    if c.args.length < pattern.requiredCount || pattern.parameters.length < c.args.length then arity
    else
      match pattern.parameters, c.args with
      | p :: ps, arg :: args =>
        let count ← countValue c p.name arg
        let values ← argumentValues c ps args
        let points ← Pass.ofFault (pattern.points count values)
        let tokens := points.flatMap (landTokens c.span (c.body.getD []))
        return if tokens.isEmpty then [] else [.run ⟨tokens, c.span⟩]
      | _, _ => arity

/-- So many copies of some leaves; of none, however many, nothing. -/
def copies (count : Nat) (body : List Leaf) : List Leaf :=
  if body.isEmpty then [] else (List.replicate count body).flatten

theorem copies_eq (count : Nat) (body : List Leaf) :
    copies count body = (List.replicate count body).flatten := by
  unfold copies
  split
  · next h =>
    rw [List.isEmpty_iff.1 h]
    simp
  · rfl

mutual

/-- The leaves of a block. -/
def expandNode : Node → Pass (List Leaf)
  | .run r => return [.run r]
  | .marker m span => return [.marker m span]
  | .header h => return [.header h]
  | .call c => expandCall c
  | .repeated args children openSpan _ => do
    let body ← expandNodes children
    let count ← repeatCount args openSpan
    return copies count body

/-- The leaves of blocks, in the order of the script. -/
def expandNodes : List Node → Pass (List Leaf)
  | [] => return []
  | n :: ns => do
    let leaves ← expandNode n
    let more ← expandNodes ns
    return leaves ++ more

end

end Expansion

end MapScript
