import MapScript.Token.Basic
import MapScript.Number.Format

/-!
# Expressions

The value of an expression: sums of products of signed numerals, names with a
value and expressions in parentheses, operators of one rank taken from the left.
Reading and computing go together, so of a fault and a token out of place the
one met first decides.  Integers divide to the nearest integer by way of a
double; a division by zero has no value.
-/

namespace MapScript.Expression

/-- Why an expression has no value: it is not of the form that has one, or its
arithmetic is at fault. -/
inductive Halt where
  | unfoldable
  | fault (fault : Fault)
deriving DecidableEq, Repr

/-- A result of arithmetic as one of an expression. -/
def lift : Except Fault α → Except Halt α
  | .ok a => .ok a
  | .error f => .error (.fault f)

/-- The quotient of two integers, rounded to an integer. -/
def divideInt (a b : Int) : Except Fault Int :=
  match Number.intQuotient a b with
  | .error f => .error f
  | .ok q => Number.roundAway q

/-- The quotient in an expression. -/
def divide (a b : Number) : Except Halt Number :=
  if b.isZero then .error .unfoldable
  else
    match a, b with
    | .int m, .int n => (lift (divideInt m n)).map Number.int
    | a, b => (lift (a.div b)).map Number.float

/-- A value read off tokens, and what is left of them: fewer than `bound`. -/
structure Reading (bound : Nat) where
  value : Number
  rest : List Token
  shorter : rest.length < bound

mutual

/-- Reads a sum. -/
def sum (values : Text → Option Number) (ts : List Token) : Except Halt (Reading ts.length) :=
  match product values ts with
  | .error e => .error e
  | .ok first => sumTail values first
termination_by 4 * ts.length + 3
decreasing_by
  · omega
  · have := first.shorter
    omega

/-- Reads what is added to or taken from a value. -/
def sumTail (values : Text → Option Number) {bound : Nat} (left : Reading bound) :
    Except Halt (Reading bound) :=
  match _h : left.rest with
  | [] => .ok left
  | t :: ts =>
    let operation? : Option (Number → Number → Except Fault Number) :=
      if t.isPunct '+' then some Number.add
      else if t.isPunct '-' then some Number.sub
      else none
    match operation? with
    | none => .ok left
    | some operation =>
      match product values ts with
      | .error e => .error e
      | .ok right =>
        match lift (operation left.value right.value) with
        | .error e => .error e
        | .ok value =>
          sumTail values ⟨value, right.rest, by
            have hl := left.shorter
            have hr := right.shorter
            rw [_h] at hl
            simp only [List.length_cons] at hl
            omega⟩
termination_by 4 * left.rest.length + 3
decreasing_by
  · simp only [_h, List.length_cons]
    omega
  · have hr := right.shorter
    simp only [_h, List.length_cons]
    omega

/-- Reads a product. -/
def product (values : Text → Option Number) (ts : List Token) :
    Except Halt (Reading ts.length) :=
  match signed values ts with
  | .error e => .error e
  | .ok first => productTail values first
termination_by 4 * ts.length + 2
decreasing_by
  · omega
  · have := first.shorter
    omega

/-- Reads what a value is multiplied or divided by. -/
def productTail (values : Text → Option Number) {bound : Nat} (left : Reading bound) :
    Except Halt (Reading bound) :=
  match _h : left.rest with
  | [] => .ok left
  | t :: ts =>
    let operation? : Option (Number → Number → Except Halt Number) :=
      if t.isPunct '*' then some fun a b => lift (a.mul b)
      else if t.isPunct '/' then some divide
      else none
    match operation? with
    | none => .ok left
    | some operation =>
      match signed values ts with
      | .error e => .error e
      | .ok right =>
        match operation left.value right.value with
        | .error e => .error e
        | .ok value =>
          productTail values ⟨value, right.rest, by
            have hl := left.shorter
            have hr := right.shorter
            rw [_h] at hl
            simp only [List.length_cons] at hl
            omega⟩
termination_by 4 * left.rest.length + 2
decreasing_by
  · simp only [_h, List.length_cons]
    omega
  · have hr := right.shorter
    simp only [_h, List.length_cons]
    omega

/-- Reads a value with any number of signs before it. -/
def signed (values : Text → Option Number) (ts : List Token) :
    Except Halt (Reading ts.length) :=
  match ts with
  | [] => .error .unfoldable
  | t :: rest =>
    if t.isPunct '-' then
      match signed values rest with
      | .error e => .error e
      | .ok r => .ok ⟨r.value.neg, r.rest, Nat.lt_succ_of_lt r.shorter⟩
    else primary values t rest
termination_by 4 * ts.length + 1
decreasing_by
  · simp only [List.length_cons]
    omega
  · simp only [List.length_cons]
    omega

/-- Reads a numeral, a name or an expression in parentheses. -/
def primary (values : Text → Option Number) (t : Token) (ts : List Token) :
    Except Halt (Reading (ts.length + 1)) :=
  if t.kind == .number then
    match Number.parse t.raw with
    | .error f => .error (.fault f)
    | .ok value => .ok ⟨value, ts, by omega⟩
  else if t.kind == .word then
    match values t.raw with
    | none => .error .unfoldable
    | some value =>
      if ts.head?.any (Token.isPunct '(') then .error .unfoldable
      else .ok ⟨value, ts, by omega⟩
  else if t.isPunct '(' then
    match sum values ts with
    | .error e => .error e
    | .ok r =>
      match _h : r.rest with
      | [] => .error .unfoldable
      | u :: rest =>
        if u.isPunct ')' then
          .ok ⟨r.value, rest, by
            have hr := r.shorter
            rw [_h] at hr
            simp only [List.length_cons] at hr
            omega⟩
        else .error .unfoldable
  else .error .unfoldable
termination_by 4 * (ts.length + 1)
decreasing_by omega

end

/-- The value of an expression, all of whose tokens must be used. -/
def evaluate (values : Text → Option Number) (ts : List Token) : Except Halt Number :=
  match sum values ts with
  | .error e => .error e
  | .ok r => if r.rest.isEmpty then .ok r.value else .error .unfoldable

/-- The value of an expression, if it has one. -/
def fold (values : Text → Option Number) (ts : List Token) : Except Fault (Option Number) :=
  match evaluate values ts with
  | .ok n => .ok (some n)
  | .error .unfoldable => .ok none
  | .error (.fault f) => .error f

end MapScript.Expression
