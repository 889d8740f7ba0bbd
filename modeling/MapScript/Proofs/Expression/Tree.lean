import MapScript.Symbol.Expression
import Mathlib

/-!
# Trees of expressions

The grammar of expressions, one rank of trees for each precedence: sums and products
taken from the left, signs before a value, and numerals, names and sums in
parentheses.  A tree has the lexemes it is written as, and the integer it stands for
where names have integer values.  No two trees are written the same way.
-/

namespace MapScript.Expression

/-- How tightly the parts of a tree hold together. -/
inductive Rank where
  | sum
  | product
  | signed
  | primary

/-- The operators of a sum. -/
inductive AddOp where
  | add
  | subtract

/-- The operators of a product. -/
inductive MulOp where
  | multiply
  | divide

/-- An expression, with the operators of one rank taken from the left. -/
inductive Tree : Rank → Type where
  | numeral (digits : Text) (whole : '.' ∉ digits) : Tree .primary
  | name (word : Text) : Tree .primary
  | group (inner : Tree .sum) : Tree .primary
  | plain (inner : Tree .primary) : Tree .signed
  | negative (inner : Tree .signed) : Tree .signed
  | factor (inner : Tree .signed) : Tree .product
  | scaled (left : Tree .product) (operator : MulOp) (right : Tree .signed) : Tree .product
  | term (inner : Tree .product) : Tree .sum
  | shifted (left : Tree .sum) (operator : AddOp) (right : Tree .product) : Tree .sum

/-- A mark of punctuation. -/
def mark (c : Char) : Lexeme := ⟨.punct, [c]⟩

theorem mark_inj {c d : Char} : mark c = mark d ↔ c = d := by simp [mark]

def AddOp.char : AddOp → Char
  | add => '+'
  | subtract => '-'

def MulOp.char : MulOp → Char
  | multiply => '*'
  | divide => '/'

def AddOp.apply : AddOp → Int → Int → Int
  | add, a, b => a + b
  | subtract, a, b => a - b

/-- A product, or a quotient by a divisor other than zero. -/
def MulOp.apply : MulOp → Int → Int → Except Halt Int
  | multiply, a, b => .ok (a * b)
  | divide, a, b => if b = 0 then .error .unfoldable else lift (divideInt a b)

namespace Tree

/-- The lexemes that a tree is written as. -/
def lexemes : {r : Rank} → Tree r → List Lexeme
  | _, numeral digits _ => [⟨.number, digits⟩]
  | _, name word => [⟨.word, word⟩]
  | _, group inner => mark '(' :: (inner.lexemes ++ [mark ')'])
  | _, plain inner => inner.lexemes
  | _, negative inner => mark '-' :: inner.lexemes
  | _, factor inner => inner.lexemes
  | _, scaled left operator right => left.lexemes ++ mark operator.char :: right.lexemes
  | _, term inner => inner.lexemes
  | _, shifted left operator right => left.lexemes ++ mark operator.char :: right.lexemes

/-- The integer that a tree stands for, its parts taken from the left. -/
def value (env : Text → Option Int) : {r : Rank} → Tree r → Except Halt Int
  | _, numeral digits _ => lift ((Number.readNat digits).map Int.ofNat)
  | _, name word => (env word).elim (.error .unfoldable) .ok
  | _, group inner => inner.value env
  | _, plain inner => inner.value env
  | _, negative inner => (inner.value env).map fun v => -v
  | _, factor inner => inner.value env
  | _, scaled left operator right => do
    let a ← left.value env
    let b ← right.value env
    operator.apply a b
  | _, term inner => inner.value env
  | _, shifted left operator right => do
    let a ← left.value env
    let b ← right.value env
    return operator.apply a b

/-! ### Spines -/

/-- The summands of a tree: the first, and the others with the operators before them. -/
def summands : Tree .sum → Tree .product × List (AddOp × Tree .product)
  | term inner => (inner, [])
  | shifted left operator right => (left.summands.1, left.summands.2 ++ [(operator, right)])

/-- The factors of a tree: the first, and the others with the operators before them. -/
def factors : Tree .product → Tree .signed × List (MulOp × Tree .signed)
  | factor inner => (inner, [])
  | scaled left operator right => (left.factors.1, left.factors.2 ++ [(operator, right)])

/-- The lexemes of operands with the operators before them. -/
def row {α : Type} {r : Rank} (char : α → Char) (operands : List (α × Tree r)) : List Lexeme :=
  operands.flatMap fun operand => mark (char operand.1) :: operand.2.lexemes

theorem row_cons {α : Type} {r : Rank} (char : α → Char) (operator : α) (t : Tree r)
    (os : List (α × Tree r)) :
    row char ((operator, t) :: os) = mark (char operator) :: (t.lexemes ++ row char os) := rfl

theorem foldl_summands (t : Tree .sum) :
    t.summands.2.foldl (fun left step => shifted left step.1 step.2) (term t.summands.1) = t := by
  match t with
  | term inner => simp [summands]
  | shifted left operator right =>
      rw [summands, List.foldl_append, foldl_summands left]
      rfl

theorem foldl_factors (t : Tree .product) :
    t.factors.2.foldl (fun left step => scaled left step.1 step.2) (factor t.factors.1) = t := by
  match t with
  | factor inner => simp [factors]
  | scaled left operator right =>
      rw [factors, List.foldl_append, foldl_factors left]
      rfl

theorem lexemes_summands (t : Tree .sum) :
    t.lexemes = t.summands.1.lexemes ++ row AddOp.char t.summands.2 := by
  match t with
  | term inner => simp [lexemes, summands, row]
  | shifted left operator right =>
      rw [lexemes, lexemes_summands left]
      simp [summands, row]

theorem lexemes_factors (t : Tree .product) :
    t.lexemes = t.factors.1.lexemes ++ row MulOp.char t.factors.2 := by
  match t with
  | factor inner => simp [lexemes, factors, row]
  | scaled left operator right =>
      rw [lexemes, lexemes_factors left]
      simp [factors, row]

/-! ### One tree for each writing -/

/-- No operator stands at the front. -/
def Ended {α : Type} (char : α → Char) (rest : List Lexeme) : Prop :=
  ∀ operator, rest.head? ≠ some (mark (char operator))

theorem AddOp.char_injective : Function.Injective AddOp.char := by
  rintro (_ | _) (_ | _) h <;> first | rfl | cases h

theorem MulOp.char_injective : Function.Injective MulOp.char := by
  rintro (_ | _) (_ | _) h <;> first | rfl | cases h

/-- The tree can be told from what follows it: of two such writings that are the same,
the trees are the same. -/
def Told (closed : List Lexeme → Prop) {r : Rank} (t : Tree r) : Prop :=
  ∀ (t' : Tree r) (rest rest' : List Lexeme), closed rest → closed rest' →
    t.lexemes ++ rest = t'.lexemes ++ rest' → t = t' ∧ rest = rest'

/-- Rows of operands that are written the same way are the same, as long as each operand
can be told and no operator follows the rows. -/
theorem row_unique {α : Type} {r : Rank} {char : α → Char} (hchar : Function.Injective char)
    {closed : List Lexeme → Prop} {os os' : List (α × Tree r)} {rest rest' : List Lexeme}
    (hrow : ∀ os : List (α × Tree r), closed (row char os ++ rest) ∧ closed (row char os ++ rest'))
    (hrest : Ended char rest) (hrest' : Ended char rest') (htold : ∀ o ∈ os, o.2.Told closed)
    (h : row char os ++ rest = row char os' ++ rest') : os = os' ∧ rest = rest' := by
  induction os generalizing os' with
  | nil =>
      cases os' with
      | nil => exact ⟨rfl, by simpa [row] using h⟩
      | cons o' os' =>
          rw [show rest = row char (o' :: os') ++ rest' by simpa [row] using h] at hrest
          exact absurd rfl (hrest o'.1)
  | cons o os ih =>
      cases os' with
      | nil =>
          rw [show rest' = row char (o :: os) ++ rest by simpa [row] using h.symm] at hrest'
          exact absurd rfl (hrest' o.1)
      | cons o' os' =>
          obtain ⟨operator, t⟩ := o
          obtain ⟨operator', t'⟩ := o'
          rw [List.forall_mem_cons] at htold
          rw [row_cons, row_cons, List.cons_append, List.cons_append, List.append_assoc,
            List.append_assoc, List.cons.injEq, mark_inj] at h
          obtain ⟨hoperator, htail⟩ := h
          obtain ⟨hoperand, htail⟩ := htold.1 t' _ _ (hrow os).1 (hrow os').2 htail
          obtain ⟨rfl, hends⟩ := ih htold.2 htail
          obtain rfl : t = t' := hoperand
          rw [hchar hoperator]
          exact ⟨rfl, hends⟩

/-- What follows a product where it can be told. -/
def Closed (rest : List Lexeme) : Prop := Ended AddOp.char rest ∧ Ended MulOp.char rest

theorem closed_parenthesis (rest : List Lexeme) : Closed (mark ')' :: rest) := by
  constructor <;> rintro (_ | _) h <;> simp [mark, AddOp.char, MulOp.char] at h

theorem told_primary (t : Tree .primary)
    (h : ∀ inner : Tree .sum, inner.lexemes.length < t.lexemes.length → inner.Told Closed) :
    t.Told fun _ => True := by
  rintro t' rest rest' - - heq
  match t, t' with
  | numeral _ _, numeral _ _ | name _, name _ => simpa [lexemes] using heq
  | numeral _ _, name _ | numeral _ _, group _ | name _, numeral _ _ | name _, group _
  | group _, numeral _ _ | group _, name _ => simp [lexemes, mark] at heq
  | group inner, group inner' =>
      simp only [lexemes, List.cons_append, List.append_assoc, List.cons.injEq,
        true_and] at heq
      obtain ⟨rfl, hrest⟩ := h inner (by simp [lexemes]) inner' _ _ (closed_parenthesis rest)
        (closed_parenthesis rest') heq
      exact ⟨rfl, (List.cons.inj hrest).2⟩

/-- No primary begins with a sign. -/
theorem lexemes_primary (t : Tree .primary) : ∃ l ls, t.lexemes = l :: ls ∧ l ≠ mark '-' := by
  match t with
  | numeral _ _ | name _ | group _ => simp [lexemes, mark]

theorem ne_negative_of_primary (t : Tree .primary) {rest ls : List Lexeme} :
    t.lexemes ++ rest ≠ mark '-' :: ls := by
  obtain ⟨l, ls, hlexemes, hsign⟩ := lexemes_primary t
  rw [hlexemes, List.cons_append]
  intro h
  exact hsign (List.cons.inj h).1

theorem told_signed (t : Tree .signed)
    (h : ∀ inner : Tree .primary, inner.lexemes.length ≤ t.lexemes.length →
      inner.Told fun _ => True) :
    t.Told fun _ => True := by
  rintro t' rest rest' - - heq
  match t, t' with
  | plain inner, plain inner' =>
      obtain ⟨rfl, hrest⟩ := h inner le_rfl inner' rest rest' trivial trivial heq
      exact ⟨rfl, hrest⟩
  | plain inner, negative inner' =>
      exact absurd heq (ne_negative_of_primary inner)
  | negative inner, plain inner' =>
      exact absurd heq.symm (ne_negative_of_primary inner')
  | negative inner, negative inner' =>
      have htold : inner.Told fun _ => True := by
        apply told_signed inner
        intro primary hlength
        exact h primary (hlength.trans (by simp [lexemes]))
      obtain ⟨rfl, hrest⟩ := htold inner' rest rest' trivial trivial (List.cons.inj heq).2
      exact ⟨rfl, hrest⟩

theorem length_le_of_mem_row {α : Type} {r : Rank} {char : α → Char} {o : α × Tree r}
    {os : List (α × Tree r)} (ho : o ∈ os) : o.2.lexemes.length ≤ (row char os).length := by
  obtain ⟨front, back, rfl⟩ := List.append_of_mem ho
  simp only [row, List.flatMap_append, List.flatMap_cons, List.length_append, List.length_cons]
  omega

theorem told_product (t : Tree .product)
    (h : ∀ inner : Tree .signed, inner.lexemes.length ≤ t.lexemes.length →
      inner.Told fun _ => True) :
    t.Told (Ended MulOp.char) := by
  intro t' rest rest' hrest hrest' heq
  have hlexemes := lexemes_factors t
  rw [hlexemes, lexemes_factors t', List.append_assoc, List.append_assoc] at heq
  have hfirst : t.factors.1.Told fun _ => True := h _ (by simp [hlexemes])
  obtain ⟨hfirst, htail⟩ := hfirst _ _ _ trivial trivial heq
  obtain ⟨hothers, hends⟩ := row_unique MulOp.char_injective (fun _ => ⟨trivial, trivial⟩) hrest
    hrest' (fun o ho => h o.2 (by
      rw [hlexemes, List.length_append]
      exact (length_le_of_mem_row ho).trans (Nat.le_add_left _ _))) htail
  rw [← foldl_factors t, ← foldl_factors t', hfirst, hothers]
  exact ⟨rfl, hends⟩

theorem told_sum (t : Tree .sum)
    (h : ∀ inner : Tree .product, inner.lexemes.length ≤ t.lexemes.length →
      inner.Told (Ended MulOp.char)) :
    t.Told Closed := by
  intro t' rest rest' hrest hrest' heq
  have hlexemes := lexemes_summands t
  rw [hlexemes, lexemes_summands t', List.append_assoc, List.append_assoc] at heq
  -- what follows a summand begins with an operator of sums or is what follows the sum
  have hrow {rest : List Lexeme} (hrest : Closed rest) (os : List (AddOp × Tree .product)) :
      Ended MulOp.char (row AddOp.char os ++ rest) := by
    match os with
    | [] => simpa [row] using hrest.2
    | (operator, t) :: os =>
        rintro (_ | _) h <;> cases operator <;> simp [row_cons, mark, AddOp.char, MulOp.char] at h
  have hfirst : t.summands.1.Told (Ended MulOp.char) := h _ (by simp [hlexemes])
  obtain ⟨hfirst, htail⟩ := hfirst _ _ _ (hrow hrest _) (hrow hrest' _) heq
  obtain ⟨hothers, hends⟩ := row_unique AddOp.char_injective
    (fun os => ⟨hrow hrest os, hrow hrest' os⟩) hrest.1 hrest'.1 (fun o ho => h o.2 (by
      rw [hlexemes, List.length_append]
      exact (length_le_of_mem_row ho).trans (Nat.le_add_left _ _))) htail
  rw [← foldl_summands t, ← foldl_summands t', hfirst, hothers]
  exact ⟨rfl, hends⟩

/-- Every expression can be told: what stands in its parentheses is shorter. -/
theorem told_of_length (n : Nat) : ∀ t : Tree .sum, t.lexemes.length = n → t.Told Closed := by
  induction n using Nat.strongRecOn with
  | _ n ih =>
      rintro t rfl
      apply told_sum
      intro product hproduct
      apply told_product
      intro signed hsigned
      apply told_signed
      intro primary hprimary
      apply told_primary
      intro inner hinner
      exact ih inner.lexemes.length (by omega) inner rfl

/-- No two expressions are written the same way. -/
theorem lexemes_injective : Function.Injective (lexemes : Tree .sum → List Lexeme) := by
  intro t t' h
  have hclosed : Closed [] := ⟨fun _ => by simp, fun _ => by simp⟩
  exact (told_of_length _ t rfl t' [] [] hclosed hclosed (by rw [h])).1

/-! ### Names are not called -/

/-- No name stands directly before an opening parenthesis. -/
def CallFree (ls : List Lexeme) : Prop :=
  ls.IsChain fun l next => ¬ (l.kind = .word ∧ next = mark '(')

theorem callFree_mark {c : Char} {ls : List Lexeme} (h : CallFree ls) :
    CallFree (mark c :: ls) := by
  cases ls with
  | nil => exact List.isChain_singleton _
  | cons l ls => exact h.cons_cons (by simp [mark])

theorem callFree_append_mark {c : Char} {ls ls' : List Lexeme} (h : CallFree ls)
    (h' : CallFree ls') (hc : c ≠ '(') : CallFree (ls ++ mark c :: ls') := by
  refine List.isChain_append.2 ⟨h, callFree_mark h', ?_⟩
  rintro l - next hnext ⟨-, hopen⟩
  rw [List.head?_cons, Option.mem_def, Option.some.injEq, hopen, mark_inj] at hnext
  exact hc hnext

theorem callFree_lexemes {r : Rank} (t : Tree r) : CallFree t.lexemes := by
  induction t with
  | numeral | name => exact List.isChain_singleton _
  | group inner ih =>
      exact callFree_mark (callFree_append_mark ih List.isChain_nil (by decide))
  | plain inner ih | factor inner ih | term inner ih => exact ih
  | negative inner ih => exact callFree_mark ih
  | scaled left operator right ihl ihr =>
      exact callFree_append_mark ihl ihr (by cases operator <;> decide)
  | shifted left operator right ihl ihr =>
      exact callFree_append_mark ihl ihr (by cases operator <;> decide)

end Tree

end MapScript.Expression
