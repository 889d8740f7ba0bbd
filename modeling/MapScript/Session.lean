import MapScript.Symbol.Resolve

/-!
# Sessions

What the later passes over a script share: the symbol table, which goes on taking
up values, and the warnings given so far, the oldest first.  Both outlive a
failure.
-/

namespace MapScript

/-- The state of a run over one script. -/
structure Session where
  table : SymbolTable
  warnings : List Warning := []
deriving DecidableEq, Repr

/-- A pass that may fail and keeps its session. -/
abbrev Pass := ExceptT Failure (StateM Session)

namespace Pass

/-- A computation on the symbol table as a pass. -/
def onTable (f : Resolving α) : Pass α := do
  let session ← get
  let (result, table) := f.run.run session.table
  set { session with table := table }
  match result with
  | .ok a => pure a
  | .error e => throw e

/-- The value of an operand, none if it has no single one. -/
def fold (operand : List Token) : Pass (Option Number) :=
  onTable (Resolving.evaluate fun table => Evaluation.fold table [] operand)

/-- Gives a warning. -/
def warn (cause : WarningCause) (span : Span) : Pass Unit :=
  modify fun session => { session with warnings := session.warnings ++ [⟨cause, span⟩] }

/-- Refuses the script. -/
def refuse (cause : Cause) (span : Span) : Pass α := throw (.refuse cause span [])

/-- A result of arithmetic in a pass. -/
def ofFault (result : Except Fault α) : Pass α :=
  match result with
  | .ok a => pure a
  | .error f => throw (.fault f)

/-- A refusal or a result in a pass. -/
def ofReport (result : Except Report α) : Pass α :=
  match result with
  | .ok a => pure a
  | .error r => throw (.report r)

end Pass

end MapScript
