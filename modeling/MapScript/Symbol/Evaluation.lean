import MapScript.Symbol.Expression
import MapScript.Symbol.Operand
import MapScript.Symbol.Table
import MapScript.Diagnostic.Cause

/-!
# Values of constants

The value of an operand needs those of the names in it, and these need their
declarations.  Constants whose value is being found are on a stack; one that is
needed again while it is there closes a cycle.  A name on the stack is not
entered twice, so the search ends.
-/

namespace MapScript

/-- A computation that may fail and keeps the values found before it did. -/
abbrev Evaluation := ExceptT Failure (StateM Memo)

namespace Evaluation

/-- A constant whose value is being found, and the place of its name. -/
structure Frame where
  name : Text
  span : Span

/-- Refuses a name that is declared nowhere. -/
def require (table : SymbolTable) (ref : Token) : Except Failure Unit :=
  if table.isConstant ref.raw || table.areas.contains ref.raw then .ok ()
  else .error (.refuse (.undeclaredConstant ref.raw) ref.span [])

/-- The cycle that a name on the stack closes: the frames from it on. -/
def cycle (stack : List Frame) (name : Text) : Failure :=
  match stack.dropWhile fun f => f.name != name with
  | [] => .refuse (.cycle [name]) (.point .origin) []
  | first :: rest =>
    let frames := first :: rest
    .refuse (.cycle (frames.map Frame.name ++ [name])) first.span
      (frames.map fun f => ⟨f.name ++ " defined here".toList, f.span⟩)

/-- The constants of a table that are not among the given names. -/
def unvisited (table : SymbolTable) (names : List Text) : Nat :=
  (table.constants.filter fun entry => !names.contains entry.1).length

/-- Entering a constant leaves fewer to enter. -/
theorem unvisited_append_lt {table : SymbolTable} {names : List Text} {name : Text}
    {ds : List Declaration} (known : table.constants.lookup name = some ds)
    (fresh : names.contains name = false) :
    unvisited table (names ++ [name]) < unvisited table names := by
  unfold unvisited
  generalize table.constants = constants at known
  have mono (entries : List (Text × List Declaration)) :
      (entries.filter fun entry => !(names ++ [name]).contains entry.1).length ≤
        (entries.filter fun entry => !names.contains entry.1).length := by
    rw [← List.countP_eq_length_filter, ← List.countP_eq_length_filter]
    apply List.countP_mono_left
    intro entry _ h
    simp only [List.contains_append, Bool.not_or, Bool.and_eq_true] at h
    exact h.1
  induction constants with
  | nil => simp at known
  | cons entry rest ih =>
    obtain ⟨other, ds'⟩ := entry
    rw [List.lookup_cons] at known
    by_cases same : name == other
    · have heq : name = other := by simpa using same
      subst heq
      have hm := mono rest
      have inside : (names ++ [name]).contains name = true := by simp
      simp only [List.filter_cons, inside, fresh, Bool.not_true, Bool.not_false, if_true,
        Bool.false_eq_true, if_false, List.length_cons]
      omega
    · simp only [same] at known
      have hr := ih known
      have hne : other ≠ name := by
        intro h
        exact same (by simp [h])
      by_cases hc : names.contains other
      · have inside : (names ++ [name]).contains other = true := by
          simp only [List.contains_append, hc, Bool.true_or]
        simp only [List.filter_cons, hc, inside, Bool.not_true, Bool.false_eq_true, if_false]
        exact hr
      · have outside : (names ++ [name]).contains other = false := by
          simp only [List.contains_append, hc, Bool.false_or]
          simp [hne]
        simp only [List.filter_cons, hc, outside, Bool.not_false, if_true, List.length_cons]
        omega

/-- What the search has to do for declarations once it has entered their constant. -/
def work : List Declaration → Nat
  | [] => 0
  | d :: rest => 2 * (Operand.references d.operand).length + 3 + work rest

/-- More than what the search has to do for any constant. -/
def workBound (table : SymbolTable) : Nat :=
  table.constants.foldr (fun entry total => work entry.2 + total) 0 + 1

theorem work_lt_workBound {table : SymbolTable} {name : Text} {ds : List Declaration}
    (known : table.constants.lookup name = some ds) : work ds < workBound table := by
  unfold workBound
  generalize table.constants = constants at known
  induction constants with
  | nil => simp at known
  | cons entry rest ih =>
    obtain ⟨other, ds'⟩ := entry
    rw [List.lookup_cons] at known
    simp only [List.foldr_cons]
    by_cases same : name == other
    · simp only [same, Option.some.injEq] at known
      rw [known]
      omega
    · simp only [same] at known
      have hr := ih known
      omega

/-- Entering a constant leaves less to do, with its declarations still to come. -/
theorem enter_lt {table : SymbolTable} {names : List Text} {name : Text} {ds : List Declaration}
    (known : table.constants.lookup name = some ds) (fresh : names.contains name = false) :
    unvisited table (names ++ [name]) * workBound table + work ds <
      unvisited table names * workBound table := by
  have hless := Nat.mul_le_mul_right (workBound table) (unvisited_append_lt known fresh)
  have hwork := work_lt_workBound known
  rw [Nat.succ_mul] at hless
  omega

/-- What an expression evaluates to in a computation. -/
def foldExpression (values : Memo) (operand : List Token) : Evaluation (Option Number) :=
  match Expression.fold (fun name => (values.lookup name).join) (Token.significant operand) with
  | .ok value => pure value
  | .error fault => throw (.fault fault)

/-- The single value among those of all declarations. -/
def single : List (Option Number) → Option Number
  | [value] => value
  | _ => none

mutual

/-- The values of names, found in order. -/
def valuesOf (table : SymbolTable) (stack : List Frame) (refs : List Token) : Evaluation Memo :=
  match refs with
  | [] => pure []
  | ref :: rest => do
    let value ← valueOf table stack ref
    let values ← valuesOf table stack rest
    return (ref.raw, value) :: values
termination_by
  unvisited table (stack.map Frame.name) * workBound table + (2 * refs.length + 1)
decreasing_by
  · omega
  · simp only [List.length_cons]
    omega

/-- The value of a name.  Areas have their numbers; what is declared outside has
no value here. -/
def valueOf (table : SymbolTable) (stack : List Frame) (ref : Token) :
    Evaluation (Option Number) := do
  require table ref
  match (← get).lookup ref.raw with
  | some value => return value
  | none =>
    match _known : table.constants.lookup ref.raw with
    | none => return (table.areaId? ref.raw).map Number.int
    | some declarations =>
      if _fresh : (stack.map Frame.name).contains ref.raw = false then do
        let results ← foldAll table stack ref.raw declarations
        let value := single results
        modify fun memo => memo ++ [(ref.raw, value)]
        return value
      else throw (cycle stack ref.raw)
termination_by unvisited table (stack.map Frame.name) * workBound table
decreasing_by exact enter_lt _known _fresh

/-- The values of the declarations of a constant, each with the constant on the
stack. -/
def foldAll (table : SymbolTable) (stack : List Frame) (name : Text)
    (declarations : List Declaration) : Evaluation (List (Option Number)) :=
  match declarations with
  | [] => pure []
  | d :: rest => do
    let values ← valuesOf table (stack ++ [⟨name, d.span⟩]) (Operand.references d.operand)
    let value ← foldExpression values d.operand
    let results ← foldAll table stack name rest
    return value :: results
termination_by
  unvisited table (stack.map Frame.name ++ [name]) * workBound table + work declarations
decreasing_by
  · simp only [List.map_append, List.map_cons, List.map_nil, work]
    omega
  · simp only [work]
    omega

end

/-- The value of an operand, none if it has no single one. -/
def fold (table : SymbolTable) (stack : List Frame) (operand : List Token) :
    Evaluation (Option Number) := do
  let values ← valuesOf table stack (Operand.references operand)
  foldExpression values operand

/-- The value of one declaration of a constant. -/
def foldDeclaration (table : SymbolTable) (name : Text) (d : Declaration) :
    Evaluation (Option Number) :=
  fold table [⟨name, d.span⟩] d.operand

/-- Refuses an operand in which a name is declared nowhere. -/
def check (table : SymbolTable) (operand : List Token) : Except Failure Unit :=
  (Operand.references operand).forM (require table)

end Evaluation

end MapScript
