import MapScript.Token.Group

/-!
# Operands

The part of a line that stands for one value: a numeral, signed or not, a name,
a call, or an expression in parentheses.  Operands are read off significant
tokens, and the names in them that stand for values are those that are not
called.
-/

namespace MapScript.Operand

/-- The number of tokens of the operand that stands first. -/
def length? : List Token → Option Nat
  | [] => none
  | t :: ts =>
    if t.isPunct '-' && ts.head?.any (fun n => n.kind == .number) then some 2
    else if t.kind == .number then some 1
    else if t.kind == .word then
      match ts with
      | [] => some 1
      | u :: us =>
        if u.isPunct '(' then (Group.parens? us).map fun g => g.inner.length + 3 else some 1
    else if t.isPunct '(' then (Group.parens? ts).map fun g => g.inner.length + 2
    else none

/-- The offset of the parenthesis that closes the one standing first. -/
def closeOffset? : List Token → Option Nat
  | [] => none
  | t :: ts => if t.isPunct '(' then (Group.parens? ts).map fun g => g.inner.length + 1 else none

/-- The words that are not directly followed by a parenthesis. -/
def references : List Token → List Token
  | [] => []
  | t :: ts =>
    if t.kind == .word && !ts.head?.any (Token.isPunct '(') then t :: references ts
    else references ts

end MapScript.Operand
