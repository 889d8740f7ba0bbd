import MapScript.Position
import MapScript.Number.Basic

/-!
# Causes of failure

Why a script is refused, and why something in it is worth a warning.  The wording
of every message is here, one function for errors and one for warnings.
-/

namespace MapScript

/-- The kinds of error that a reader of diagnostics can tell apart. -/
inductive ErrorKind where
  | lexical
  | structural
  | unresolved
  | cyclic
  | argument
deriving DecidableEq, Repr

namespace ErrorKind

/-- The code of a kind in diagnostics. -/
def code : ErrorKind → Text
  | lexical => "LexError".toList
  | structural => "StructureError".toList
  | unresolved => "UnresolvedSymbolError".toList
  | cyclic => "CyclicConstantError".toList
  | argument => "MacroArgumentError".toList

/-- Errors in the form of a script, as opposed to its meaning. -/
def isSyntactic : ErrorKind → Bool
  | lexical | structural => true
  | _ => false

end ErrorKind

/-- Why a script is refused. -/
inductive Cause where
  | nulCharacter
  | openString
  | openComment
  /-- Blocks that are never closed, the outermost first. -/
  | openBlocks (blocks : List (Text × Position))
  | missingCount
  | nestedHeader
  /-- A closing directive without an open block. -/
  | strayCloser (closer : Text)
  /-- A closing directive of another block than the innermost. -/
  | mismatchedCloser (closer block : Text) (opened : Position)
  | openArguments (call : Text)
  | openBody (call : Text)
  | directiveInBody (directive call : Text)
  | undeclaredConstant (name : Text)
  | undeclaredArea (name : Text)
  /-- Constants each of which needs the next; the last is the first again. -/
  | cycle (chain : List Text)
  | repeatArity
  | repeatCount (argument : Text)
  | unknownCall (call : Text) (known : List Text)
  | callArity (call signature : Text) (given : Nat)
  | notNumeric (call parameter argument : Text)
  | notPositive (call parameter value : Text)
  | strayMarker (marker : Text)
  | openObject (marker : Text)
deriving DecidableEq, Repr

namespace Cause

/-- The kind of error that a cause makes. -/
def kind : Cause → ErrorKind
  | nulCharacter | openString | openComment => .lexical
  | openBlocks _ | missingCount | nestedHeader | strayCloser _ | mismatchedCloser _ _ _
  | openArguments _ | openBody _ | directiveInBody _ _ => .structural
  | undeclaredConstant _ | undeclaredArea _ => .unresolved
  | cycle _ => .cyclic
  | repeatArity | repeatCount _ | unknownCall _ _ | callArity _ _ _ | notNumeric _ _ _
  | notPositive _ _ _ | strayMarker _ | openObject _ => .argument

/-- The words for a cause. -/
def message : Cause → Text
  | nulCharacter => "NUL character in source".toList
  | openString => "unterminated string literal".toList
  | openComment => "unterminated block comment".toList
  | openBlocks blocks =>
    "unterminated block: ".toList ++ Text.join ", ".toList (blocks.map fun (name, opened) =>
      '#' :: name ++ " opened at ".toList ++ opened.display)
  | missingCount => "expected '(' with a count after #REPEAT".toList
  | nestedHeader => "#HEADER_START must appear at the top level".toList
  | strayCloser closer => "unmatched #".toList ++ closer ++ ": no open block".toList
  | mismatchedCloser closer block opened =>
    "unmatched #".toList ++ closer ++ ": innermost open block is #".toList ++ block ++
      " at ".toList ++ opened.display
  | openArguments call => "unterminated argument list for #".toList ++ call
  | openBody call => "unterminated body for #".toList ++ call
  | directiveInBody directive call =>
    '#' :: directive ++ " is not allowed inside the body of #".toList ++ call
  | undeclaredConstant name => "unresolved constant: ".toList ++ name
  | undeclaredArea name =>
    "unresolved actor area: ".toList ++ name ++
      " (declare it with actor_area or create_actor_area before use)".toList
  | cycle chain => "cyclic constant definition: ".toList ++ Text.join " -> ".toList chain
  | repeatArity => "#REPEAT takes exactly one count argument".toList
  | repeatCount argument =>
    "invalid repeat count '".toList ++ argument ++
      "': expected an integer literal or a constant with a single integer value".toList
  | unknownCall call known =>
    "unknown macro: #".toList ++ call ++ " (known macros: ".toList ++
      Text.join ", ".toList (known.map ('#' :: ·)) ++ ")".toList
  | callArity call signature given =>
    '#' :: call ++ " expects ".toList ++ signature ++ ", got ".toList ++ Text.ofNat given ++
      " argument(s)".toList
  | notNumeric call parameter argument =>
    '#' :: call ++ " argument '".toList ++ parameter ++ "' must be numeric, got '".toList ++
      argument ++ "'".toList
  | notPositive call parameter value =>
    '#' :: call ++ " argument '".toList ++ parameter ++
      "' must be a positive integer, got ".toList ++ value
  | strayMarker marker =>
    '#' :: marker ++ " must appear directly inside a create_object body".toList
  | openObject marker => "create_object holding #".toList ++ marker ++ " is never closed".toList

end Cause

/-- A remark on another place that a report refers to. -/
structure Note where
  text : Text
  span : Span
deriving DecidableEq, Repr

/-- A refusal: the cause, the place and other places that matter for it. -/
structure Report where
  cause : Cause
  span : Span
  notes : List Note := []
deriving DecidableEq, Repr

/-- Why a run ends without a result: the script is refused, or its arithmetic has
no value, which no diagnostic reports. -/
inductive Failure where
  | report (report : Report)
  | fault (fault : Fault)
deriving DecidableEq, Repr

/-- The failure that refuses a script for a cause at a place. -/
def Failure.refuse (cause : Cause) (span : Span) (notes : List Note) : Failure :=
  .report ⟨cause, span, notes⟩

/-- Why a warning is given. -/
inductive WarningCause where
  | negativeRepeat (count : Int)
  | nameTaken (name : Text)
  /-- A random call that needs a constant without a single value. -/
  | blockedCall (constant : Text)
deriving DecidableEq, Repr

namespace WarningCause

/-- The code of a warning in diagnostics. -/
def code : WarningCause → Text
  | negativeRepeat _ => "MacroWarning".toList
  | nameTaken _ | blockedCall _ => "HoistWarning".toList

/-- The words for a warning. -/
def message : WarningCause → Text
  | negativeRepeat count =>
    "negative repeat count ".toList ++ Text.ofInt count ++ " expands to nothing".toList
  | nameTaken name =>
    "generated constant name ".toList ++ name ++ " is already used; skipping to the next".toList
  | blockedCall constant =>
    "rnd call uses ".toList ++ constant ++
      ", which has no single static value; left in place".toList

end WarningCause

/-- A remark that does not stop a run. -/
structure Warning where
  cause : WarningCause
  span : Span
deriving DecidableEq, Repr

end MapScript
