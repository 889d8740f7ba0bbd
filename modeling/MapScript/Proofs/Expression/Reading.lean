import MapScript.Proofs.Expression.Tree

/-!
# Expressions are read as they are written

The reader of expressions against their grammar, where names have integer values and
numerals have no points.  Tokens that are written from a tree evaluate to the value of
the tree: each reader reads a tree of its rank off the front of its tokens and goes on
behind it.  And what is read was written from a tree, so the reader has no value for any
other tokens; then it stops as it does for what has no value, unless a numeral is too
long or a quotient is out of range.
-/

namespace MapScript.Expression

variable {values : Text → Option Number} {env : Text → Option Int}

theorem isPunct_iff {t : Token} {c : Char} : t.isPunct c = true ↔ t.toLexeme = mark c := by
  rw [Token.isPunct, Bool.and_eq_true, beq_iff_eq, beq_iff_eq, mark, Lexeme.mk.injEq]

theorem isPunct_eq {t : Token} {c : Char} (h : t.toLexeme = mark c) (d : Char) :
    t.isPunct d = decide (c = d) := by
  rw [Bool.eq_iff_iff, isPunct_iff, h, mark_inj, decide_eq_true_iff]

/-- Names with integer values. -/
def integers (env : Text → Option Int) (word : Text) : Option Number := (env word).map Number.int

/-- What was read is a value, with what is left of the tokens, and the reading goes on
from there; or the value is at fault. -/
def Yields {n : Nat} (next : Reading n → Except Halt (Reading n)) (x : Except Halt (Reading n))
    (value : Except Halt Int) (rest : List Token) : Prop :=
  match value with
  | .error h => x = .error h
  | .ok v => ∃ shorter, x = next ⟨.int v, rest, shorter⟩

/-- What was read is handed on. -/
theorem Yields.follow {n : Nat} {next : Reading n → Except Halt (Reading n)}
    {x : Except Halt (Reading n)} {value : Except Halt Int} {rest : List Token}
    (h : Yields .ok x value rest) : Yields next (x.bind next) value rest := by
  cases value with
  | error e =>
      obtain rfl : x = .error e := h
      rfl
  | ok v =>
      obtain ⟨hshort, rfl⟩ := h
      exact ⟨hshort, rfl⟩

/-- None of the characters stands at the front of the tokens. -/
def Stops (chars : List Char) (rest : List Token) : Prop :=
  ∀ t ∈ rest.head?, ∀ c ∈ chars, t.isPunct c = false

theorem stops_nil (chars : List Char) : Stops chars [] := by simp [Stops]

theorem stops_of_mark {t : Token} {c : Char} {chars : List Char} (h : t.toLexeme = mark c)
    (hc : c ∉ chars) (rest : List Token) : Stops chars (t :: rest) := by
  rintro u hu d hd
  obtain rfl : t = u := by simpa using hu
  rw [isPunct_eq h, decide_eq_false_iff_not]
  rintro rfl
  exact hc hd

theorem Stops.mono {chars chars' : List Char} {rest : List Token} (h : Stops chars rest)
    (hchars : chars' ⊆ chars) : Stops chars' rest :=
  fun t ht c hc => h t ht c (hchars hc)

/-! ### One step of a chain -/

theorem product_eq (ts : List Token) :
    product values ts = (signed values ts).bind (productTail values) := by
  rw [product]
  cases signed values ts <;> rfl

theorem sum_eq (ts : List Token) :
    sum values ts = (product values ts).bind (sumTail values) := by
  rw [sum]
  cases product values ts <;> rfl

theorem sumTail_of_stops {n : Nat} {left : Reading n} (h : Stops ['+', '-'] left.rest) :
    sumTail values left = .ok left := by
  rw [sumTail]
  split
  · rfl
  · next t ts hrest =>
    rw [hrest] at h
    simp [h t rfl]

theorem productTail_of_stops {n : Nat} {left : Reading n} (h : Stops ['*', '/'] left.rest) :
    productTail values left = .ok left := by
  rw [productTail]
  split
  · rfl
  · next t ts hrest =>
    rw [hrest] at h
    simp [h t rfl]

/-- A product that nothing continues has been read as a whole. -/
theorem Yields.stop {n : Nat} {x : Except Halt (Reading n)} {value : Except Halt Int}
    {rest : List Token} (h : Yields (productTail values) x value rest)
    (hstops : Stops ['*', '/'] rest) : Yields .ok x value rest := by
  cases value with
  | error e => exact h
  | ok v =>
      obtain ⟨hshort, hx⟩ := h
      exact ⟨hshort, hx.trans (productTail_of_stops hstops)⟩

theorem sumTail_yields {n : Nat} (operator : AddOp) {a : Int} {o : Token} {ts rest : List Token}
    {shorter : (o :: ts).length < n} {b : Except Halt Int}
    (ho : o.toLexeme = mark operator.char) (h : Yields .ok (product values ts) b rest) :
    Yields (sumTail values) (sumTail values (⟨.int a, o :: ts, shorter⟩ : Reading n))
      (b.map (operator.apply a)) rest := by
  rw [sumTail]
  simp only [isPunct_eq ho]
  cases b with
  | error e =>
      have hproduct : product values ts = .error e := h
      cases operator <;> simp [AddOp.char, hproduct, Yields, Except.map]
  | ok b =>
      obtain ⟨hshort, hproduct⟩ := h
      rw [List.length_cons] at shorter
      refine ⟨by omega, ?_⟩
      cases operator <;>
        simp [AddOp.char, hproduct, Number.add, Number.sub, Number.arith, lift, AddOp.apply]

theorem divide_int (a b : Int) :
    divide (.int a) (.int b) = (MulOp.divide.apply a b).map Number.int := by
  by_cases hb : b = 0 <;> simp [divide, Number.isZero, MulOp.apply, hb, Except.map]

theorem productTail_yields {n : Nat} (operator : MulOp) {a : Int} {o : Token}
    {ts rest : List Token} {shorter : (o :: ts).length < n} {b : Except Halt Int}
    (ho : o.toLexeme = mark operator.char) (h : Yields .ok (signed values ts) b rest) :
    Yields (productTail values) (productTail values (⟨.int a, o :: ts, shorter⟩ : Reading n))
      (b.bind (operator.apply a)) rest := by
  rw [productTail]
  simp only [isPunct_eq ho]
  cases b with
  | error e =>
      have hsigned : signed values ts = .error e := h
      cases operator <;> simp [MulOp.char, hsigned, Yields, Except.bind]
  | ok b =>
      obtain ⟨hshort, hsigned⟩ := h
      rw [List.length_cons] at shorter
      rw [Except.bind]
      cases operator with
      | multiply =>
          exact ⟨by omega, by simp [MulOp.char, hsigned, Number.mul, Number.arith, lift]⟩
      | divide =>
          have hdivide := divide_int a b
          cases hvalue : MulOp.divide.apply a b with
          | error e =>
              rw [hvalue] at hdivide
              simp [MulOp.char, hsigned, hdivide, Yields, Except.map]
          | ok v =>
              rw [hvalue] at hdivide
              exact ⟨by omega, by simp [MulOp.char, hsigned, hdivide, Except.map]⟩

/-! ### What is written is read -/

/-- The reader of a rank. -/
def readAt (values : Text → Option Number) :
    (r : Rank) → (ts : List Token) → Except Halt (Reading ts.length)
  | .sum, ts => sum values ts
  | .product, ts => product values ts
  | .signed, ts => signed values ts
  | .primary, [] => .error .unfoldable
  | .primary, t :: ts => primary values t ts

/-- How the reader of a rank goes on once it has read a value. -/
def goOn (values : Text → Option Number) {n : Nat} : Rank → Reading n → Except Halt (Reading n)
  | .sum, left => sumTail values left
  | .product, left => productTail values left
  | .signed, left | .primary, left => .ok left

/-- What would be taken as a part of the last operand of a tree. -/
def Rank.grasp : Rank → List Char
  | .sum => ['(', '*', '/']
  | .product | .signed | .primary => ['(']

/-- A numeral without a point is an integer, unless it is too long. -/
theorem parse_whole {digits : Text} (h : '.' ∉ digits) :
    Number.parse digits = (Number.readNat digits).map fun n => Number.int n := by
  have hspan : digits.span (· != '.') = (digits, []) := by
    rw [List.span_eq_takeWhile_dropWhile, Prod.mk.injEq, List.takeWhile_eq_self_iff,
      List.dropWhile_eq_nil_iff]
    constructor <;>
    · intro c hc
      rw [bne_iff_ne]
      rintro rfl
      exact h hc
  rw [Number.parse, hspan]

theorem readAt_numeral {t : Token} {digits : Text} (ht : t.toLexeme = ⟨.number, digits⟩)
    (hwhole : '.' ∉ digits) (rest : List Token) :
    Yields .ok (primary values t rest) (lift ((Number.readNat digits).map Int.ofNat)) rest := by
  obtain ⟨hkind, hraw⟩ := Lexeme.mk.inj ht
  rw [primary]
  simp only [hkind, hraw, parse_whole hwhole, beq_self_eq_true, if_true]
  cases Number.readNat digits with
  | error f => rfl
  | ok n => exact ⟨by simp, rfl⟩

theorem readAt_name {t : Token} {word : Text} (ht : t.toLexeme = ⟨.word, word⟩) {rest : List Token}
    (hrest : Stops ['('] rest) :
    Yields .ok (primary (integers env) t rest) ((env word).elim (.error .unfoldable) .ok) rest := by
  obtain ⟨hkind, hraw⟩ := Lexeme.mk.inj ht
  have hopen : rest.head?.any (Token.isPunct '(') = false := by
    cases rest with
    | nil => rfl
    | cons u us => exact hrest u rfl '(' (by simp)
  rw [primary]
  simp only [hkind, hraw, hopen, integers, beq_self_eq_true, if_true]
  cases env word with
  | none => rfl
  | some v => exact ⟨by simp, rfl⟩

theorem readAt_group {o c : Token} (ho : o.toLexeme = mark '(') (hc : c.toLexeme = mark ')')
    {value : Except Halt Int} {ts rest : List Token}
    (h : Yields (sumTail values) (sum values ts) value (c :: rest)) :
    Yields .ok (primary values o ts) value rest := by
  obtain ⟨hkind, -⟩ := Lexeme.mk.inj ho
  have hstops : Stops ['+', '-'] (c :: rest) := stops_of_mark hc (by decide) rest
  rw [primary]
  simp only [hkind, isPunct_eq ho]
  cases value with
  | error e =>
      have hsum : sum values ts = .error e := h
      simp [hsum, Yields]
  | ok v =>
      obtain ⟨hshort, hsum⟩ := h
      rw [sumTail_of_stops hstops] at hsum
      rw [List.length_cons] at hshort
      exact ⟨by omega, by simp [hsum, isPunct_eq hc]⟩

/-- A tree is read where it is written, and its value is the one that is read. -/
theorem readAt_yields {r : Rank} (t : Tree r) : ∀ front rest : List Token,
    front.map Token.toLexeme = t.lexemes → Stops r.grasp rest →
      Yields (goOn (integers env) r) (readAt (integers env) r (front ++ rest)) (t.value env)
        rest := by
  induction t with
  | numeral digits whole =>
      intro front rest hfront hstops
      obtain ⟨t, rfl, ht⟩ := List.map_eq_singleton_iff.1 hfront
      exact readAt_numeral ht whole rest
  | name word =>
      intro front rest hfront hstops
      obtain ⟨t, rfl, ht⟩ := List.map_eq_singleton_iff.1 hfront
      exact readAt_name ht hstops
  | group inner ih =>
      intro front rest hfront hstops
      obtain ⟨o, tail, rfl, ho, htail⟩ := List.map_eq_cons_iff.1 hfront
      obtain ⟨middle, last, rfl, hmiddle, hlast⟩ := List.map_eq_append_iff.1 htail
      obtain ⟨c, rfl, hc⟩ := List.map_eq_singleton_iff.1 hlast
      have hinner := ih middle (c :: rest) hmiddle (stops_of_mark hc (by decide) rest)
      rw [List.cons_append, List.append_assoc]
      exact readAt_group ho hc hinner
  | plain inner ih =>
      intro front rest hfront hstops
      have hinner := ih front rest hfront hstops
      obtain ⟨l, ls, hlexemes, hsign⟩ := Tree.lexemes_primary inner
      rw [Tree.lexemes, hlexemes] at hfront
      obtain ⟨u, us, rfl, hu, -⟩ := List.map_eq_cons_iff.1 hfront
      have hplain : u.isPunct '-' = false := by
        rw [Bool.eq_false_iff, ne_eq, isPunct_iff, hu]
        exact hsign
      show Yields .ok (signed (integers env) (u :: (us ++ rest))) (inner.value env) rest
      rw [signed, hplain]
      exact hinner
  | negative inner ih =>
      intro front rest hfront hstops
      obtain ⟨o, tail, rfl, ho, htail⟩ := List.map_eq_cons_iff.1 hfront
      have hinner := ih tail rest htail hstops
      show Yields .ok (signed (integers env) (o :: (tail ++ rest))) _ rest
      rw [signed, isPunct_eq ho, Tree.value]
      cases hvalue : inner.value env with
      | error e =>
          rw [hvalue] at hinner
          have hsigned : signed (integers env) (tail ++ rest) = .error e := hinner
          simp [hsigned, Yields, Except.map]
      | ok v =>
          rw [hvalue] at hinner
          obtain ⟨hshort, hsigned⟩ := hinner
          have hread : signed (integers env) (tail ++ rest) = .ok ⟨.int v, rest, hshort⟩ := hsigned
          exact ⟨Nat.lt_succ_of_lt hshort, by simp [hread, Number.neg]⟩
  | factor inner ih =>
      intro front rest hfront hstops
      have hinner := ih front rest hfront hstops
      show Yields (productTail (integers env)) (product (integers env) (front ++ rest)) _ rest
      rw [product_eq]
      exact hinner.follow
  | scaled left operator right ihl ihr =>
      intro front rest hfront hstops
      obtain ⟨first, tail, rfl, hfirst, htail⟩ := List.map_eq_append_iff.1 hfront
      obtain ⟨o, last, rfl, ho, hlast⟩ := List.map_eq_cons_iff.1 htail
      have hleft := ihl first (o :: (last ++ rest)) hfirst
        (stops_of_mark ho (by cases operator <;> decide) _)
      have hright := ihr last rest hlast hstops
      rw [List.append_assoc, List.cons_append, Tree.value]
      cases hvalue : left.value env with
      | error e =>
          rw [hvalue] at hleft
          exact hleft
      | ok a =>
          rw [hvalue] at hleft
          obtain ⟨hshort, hproduct⟩ := hleft
          rw [hproduct]
          exact productTail_yields operator ho hright
  | term inner ih =>
      intro front rest hfront hstops
      have hinner := ih front rest hfront (hstops.mono (by decide))
      show Yields (sumTail (integers env)) (sum (integers env) (front ++ rest)) _ rest
      rw [sum_eq]
      exact (hinner.stop (hstops.mono (by decide))).follow
  | shifted left operator right ihl ihr =>
      intro front rest hfront hstops
      obtain ⟨first, tail, rfl, hfirst, htail⟩ := List.map_eq_append_iff.1 hfront
      obtain ⟨o, last, rfl, ho, hlast⟩ := List.map_eq_cons_iff.1 htail
      have hleft := ihl first (o :: (last ++ rest)) hfirst
        (stops_of_mark ho (by cases operator <;> decide) _)
      have hright := ihr last rest hlast (hstops.mono (by decide))
      rw [List.append_assoc, List.cons_append, Tree.value]
      cases hvalue : left.value env with
      | error e =>
          rw [hvalue] at hleft
          exact hleft
      | ok a =>
          rw [hvalue] at hleft
          obtain ⟨hshort, hsum⟩ := hleft
          rw [hsum]
          exact sumTail_yields operator ho (hright.stop (hstops.mono (by decide)))

/-- The tokens of an expression evaluate to its value. -/
theorem evaluate_of_lexemes (t : Tree .sum) {ts : List Token}
    (ht : ts.map Token.toLexeme = t.lexemes) :
    evaluate (integers env) ts = (t.value env).map Number.int := by
  have hread : Yields (sumTail (integers env)) (sum (integers env) (ts ++ [])) (t.value env) [] :=
    readAt_yields t ts [] ht (stops_nil _)
  rw [List.append_nil] at hread
  rw [evaluate]
  cases hvalue : t.value env with
  | error e =>
      rw [hvalue] at hread
      have hsum : sum (integers env) ts = .error e := hread
      rw [hsum]
      rfl
  | ok v =>
      rw [hvalue] at hread
      obtain ⟨hshort, hsum⟩ := hread
      have hend : sum (integers env) ts = .ok ⟨.int v, [], hshort⟩ :=
        hsum.trans (sumTail_of_stops (stops_nil _))
      rw [hend]
      rfl

/-! ### What is read was written -/

/-- What is at fault in a row of lexemes: a numeral that is too long, or a quotient that
is beyond the range of the format. -/
def FaultIn (env : Text → Option Int) (ls : List Lexeme) (f : Fault) : Prop :=
  (∃ digits, ⟨.number, digits⟩ ∈ ls ∧ Number.readNat digits = .error f) ∨
    ∃ (left : Tree .product) (right : Tree .signed) (a b : Int),
      (left.scaled .divide right).lexemes <:+: ls ∧ left.value env = .ok a ∧
        right.value env = .ok b ∧ b ≠ 0 ∧ divideInt a b = .error f

theorem FaultIn.mono {ls ls' : List Lexeme} {f : Fault} (h : FaultIn env ls f) (hls : ls <:+: ls') :
    FaultIn env ls' f := by
  obtain ⟨digits, hmem, hread⟩ | ⟨left, right, a, b, hinfix, hvalues⟩ := h
  · exact Or.inl ⟨digits, hls.subset hmem, hread⟩
  · exact Or.inr ⟨left, right, a, b, hinfix.trans hls, hvalues⟩

/-- The numerals among the lexemes have no points. -/
def Whole (ls : List Lexeme) : Prop := ∀ l ∈ ls, l.kind = .number → '.' ∉ l.raw

/-- What was read is the value of a tree at the front of the lexemes, and a fault is one
of something in them. -/
def Explains (env : Text → Option Int) (r : Rank) (ls : List Lexeme) {n : Nat} :
    Except Halt (Reading n) → Prop
  | .ok reading => ∃ (t : Tree r) (v : Int), ls = t.lexemes ++ reading.rest.map Token.toLexeme ∧
      t.value env = .ok v ∧ reading.value = .int v
  | .error .unfoldable => True
  | .error (.fault f) => FaultIn env ls f

theorem Explains.of_error {r r' : Rank} {ls ls' : List Lexeme} {n n' : Nat}
    {x : Except Halt (Reading n)} {e : Halt} (h : Explains env r ls x) (hx : x = .error e)
    (hls : ls <:+: ls') : Explains env r' ls' (.error e : Except Halt (Reading n')) := by
  subst hx
  cases e with
  | unfoldable => trivial
  | fault f => exact FaultIn.mono h hls

theorem primary_explains (t : Token) {ts : List Token} (hwhole : t.kind = .number → '.' ∉ t.raw)
    (hsum : Explains env .sum (ts.map Token.toLexeme) (sum (integers env) ts)) :
    Explains env .primary ((t :: ts).map Token.toLexeme) (primary (integers env) t ts) := by
  rw [primary]
  split
  · next hkind =>
    rw [beq_iff_eq] at hkind
    have hlexeme : t.toLexeme = ⟨.number, t.raw⟩ := by rw [← hkind]
    rw [parse_whole (hwhole hkind)]
    cases hread : Number.readNat t.raw with
    | error f => exact Or.inl ⟨t.raw, List.mem_cons.2 (Or.inl hlexeme.symm), hread⟩
    | ok n =>
        refine ⟨.numeral t.raw (hwhole hkind), n, congrArg₂ List.cons hlexeme rfl, ?_, rfl⟩
        rw [Tree.value, hread]
        rfl
  split
  · next hkind =>
    rw [beq_iff_eq] at hkind
    have hlexeme : t.toLexeme = ⟨.word, t.raw⟩ := by rw [← hkind]
    rw [integers]
    cases hvalue : env t.raw with
    | none => trivial
    | some v =>
        dsimp only [Option.map_some]
        split
        · trivial
        · refine ⟨.name t.raw, v, congrArg₂ List.cons hlexeme rfl, ?_, rfl⟩
          rw [Tree.value, hvalue]
          rfl
  split
  · next hopen =>
    rw [isPunct_iff] at hopen
    split
    · next e he => exact hsum.of_error he (List.infix_cons (List.infix_refl _))
    · next r hr =>
      rw [hr] at hsum
      obtain ⟨inner, v, hlexemes, hvalue, hint⟩ := hsum
      split
      · trivial
      · next u rest hrest =>
        split
        · next hclose =>
          rw [isPunct_iff] at hclose
          refine ⟨.group inner, v, ?_, hvalue, hint⟩
          rw [hrest, List.map_cons, hclose] at hlexemes
          rw [List.map_cons, hopen, hlexemes]
          simp [Tree.lexemes]
        · trivial
  · trivial

theorem signed_explains {ts : List Token}
    (h : ∀ t us, (t :: us).map Token.toLexeme <:+ ts.map Token.toLexeme →
      Explains env .primary ((t :: us).map Token.toLexeme) (primary (integers env) t us)) :
    Explains env .signed (ts.map Token.toLexeme) (signed (integers env) ts) := by
  induction ts with
  | nil =>
      rw [signed]
      trivial
  | cons t rest ih =>
      rw [signed]
      split
      · next hsign =>
        rw [isPunct_iff] at hsign
        have hrest := ih fun u us hus => h u us (hus.trans (List.suffix_cons _ _))
        split
        · next e he => exact hrest.of_error he (List.suffix_cons _ _).isInfix
        · next r hr =>
          rw [hr] at hrest
          obtain ⟨inner, v, hlexemes, hvalue, hint⟩ := hrest
          refine ⟨.negative inner, -v, ?_, ?_, congrArg Number.neg hint⟩
          · rw [List.map_cons, hsign, hlexemes]
            rfl
          · rw [Tree.value, hvalue]
            rfl
      · have hprimary := h t rest (List.suffix_refl _)
        cases hread : primary (integers env) t rest with
        | error e => exact hprimary.of_error hread (List.infix_refl _)
        | ok r =>
            rw [hread] at hprimary
            obtain ⟨inner, v, hlexemes, hvalue, hint⟩ := hprimary
            exact ⟨.plain inner, v, hlexemes, hvalue, hint⟩

/-- Only a quotient is at fault, and not one by zero. -/
theorem apply_fault {operator : MulOp} {a b : Int} {f : Fault}
    (h : operator.apply a b = .error (.fault f)) :
    operator = .divide ∧ b ≠ 0 ∧ divideInt a b = .error f := by
  cases operator with
  | multiply => cases h
  | divide =>
      rw [MulOp.apply] at h
      split_ifs at h with hzero
      · cases h
      · cases hquotient : divideInt a b with
        | ok q => simp [hquotient, lift] at h
        | error f' => simpa [hquotient, lift, hzero] using h

/-- A product takes in what follows it, as long as its operands are explained. -/
theorem productTail_explains {n : Nat} (left : Tree .product) {a : Int} {rest : List Token}
    (shorter : rest.length < n) {ls : List Lexeme} (hvalue : left.value env = .ok a)
    (hls : ls = left.lexemes ++ rest.map Token.toLexeme)
    (h : ∀ us, us.map Token.toLexeme <:+ rest.map Token.toLexeme →
      Explains env .signed (us.map Token.toLexeme) (signed (integers env) us)) :
    Explains env .product ls
      (productTail (integers env) (⟨.int a, rest, shorter⟩ : Reading n)) := by
  induction hn : rest.length using Nat.strongRecOn generalizing left a rest with
  | _ m ih =>
      rw [productTail]
      dsimp only
      split
      · exact ⟨left, a, hls, hvalue, rfl⟩
      next t ts =>
        split
        · exact ⟨left, a, hls, hvalue, rfl⟩
        next operation hoperation =>
          have hright := h ts (List.suffix_cons _ _)
          have htail : ts.map Token.toLexeme <:+: ls :=
            hls ▸ ((List.suffix_cons _ _).trans (List.suffix_append _ _)).isInfix
          split
          · next e he => exact hright.of_error he htail
          next r hr =>
            rw [hr] at hright
            obtain ⟨right, b, hlexemes, hb, hint⟩ := hright
            obtain ⟨operator, ht, hoperator⟩ : ∃ operator : MulOp,
                t.toLexeme = mark operator.char ∧
                  operation (.int a) (.int b) = (operator.apply a b).map Number.int := by
              split_ifs at hoperation with hmultiply hdivide
              · rw [isPunct_iff] at hmultiply
                cases hoperation
                exact ⟨.multiply, hmultiply, rfl⟩
              · rw [isPunct_iff] at hdivide
                cases hoperation
                exact ⟨.divide, hdivide, divide_int a b⟩
            have hscaled : ls = (left.scaled operator right).lexemes
                ++ r.rest.map Token.toLexeme := by
              rw [hls, List.map_cons, ht, hlexemes]
              simp [Tree.lexemes]
            have happly : (left.scaled operator right).value env = operator.apply a b := by
              rw [Tree.value, hvalue, hb]
              rfl
            rw [hint, hoperator]
            cases hresult : operator.apply a b with
            | error e =>
                cases e with
                | unfoldable => trivial
                | fault f =>
                    obtain ⟨rfl, hzero, hfault⟩ := apply_fault hresult
                    refine Or.inr ⟨left, right, a, b, ?_, hvalue, hb, hzero, hfault⟩
                    rw [hscaled]
                    exact (List.prefix_append _ _).isInfix
            | ok v =>
                have hshort := r.shorter
                rw [List.length_cons] at hn
                refine ih r.rest.length (by omega) (left.scaled operator right) _
                  (happly.trans hresult) hscaled ?_ rfl
                intro us hus
                apply h us
                rw [List.map_cons, hlexemes]
                exact hus.trans ((List.suffix_append _ _).trans (List.suffix_cons _ _))

theorem product_explains {ts : List Token}
    (h : ∀ us, us.map Token.toLexeme <:+ ts.map Token.toLexeme →
      Explains env .signed (us.map Token.toLexeme) (signed (integers env) us)) :
    Explains env .product (ts.map Token.toLexeme) (product (integers env) ts) := by
  have hfirst := h ts (List.suffix_refl _)
  rw [product]
  split
  · next e he => exact hfirst.of_error he (List.infix_refl _)
  next r hr =>
    rw [hr] at hfirst
    obtain ⟨first, a, hlexemes, hvalue, hint⟩ := hfirst
    obtain ⟨_, rest, hshort⟩ := r
    obtain rfl : _ = Number.int a := hint
    refine productTail_explains (.factor first) hshort hvalue hlexemes ?_
    intro us hus
    apply h us
    rw [hlexemes]
    exact hus.trans (List.suffix_append _ _)

/-- A sum takes in what follows it, as long as its operands are explained. -/
theorem sumTail_explains {n : Nat} (left : Tree .sum) {a : Int} {rest : List Token}
    (shorter : rest.length < n) {ls : List Lexeme} (hvalue : left.value env = .ok a)
    (hls : ls = left.lexemes ++ rest.map Token.toLexeme)
    (h : ∀ us, us.map Token.toLexeme <:+ rest.map Token.toLexeme →
      Explains env .product (us.map Token.toLexeme) (product (integers env) us)) :
    Explains env .sum ls (sumTail (integers env) (⟨.int a, rest, shorter⟩ : Reading n)) := by
  induction hn : rest.length using Nat.strongRecOn generalizing left a rest with
  | _ m ih =>
      rw [sumTail]
      dsimp only
      split
      · exact ⟨left, a, hls, hvalue, rfl⟩
      next t ts =>
        split
        · exact ⟨left, a, hls, hvalue, rfl⟩
        next operation hoperation =>
          have hright := h ts (List.suffix_cons _ _)
          have htail : ts.map Token.toLexeme <:+: ls :=
            hls ▸ ((List.suffix_cons _ _).trans (List.suffix_append _ _)).isInfix
          split
          · next e he => exact hright.of_error he htail
          next r hr =>
            rw [hr] at hright
            obtain ⟨right, b, hlexemes, hb, hint⟩ := hright
            obtain ⟨operator, ht, hoperator⟩ : ∃ operator : AddOp,
                t.toLexeme = mark operator.char ∧
                  operation (.int a) (.int b) = .ok (.int (operator.apply a b)) := by
              split_ifs at hoperation with hadd hsubtract
              · rw [isPunct_iff] at hadd
                cases hoperation
                exact ⟨.add, hadd, rfl⟩
              · rw [isPunct_iff] at hsubtract
                cases hoperation
                exact ⟨.subtract, hsubtract, rfl⟩
            have hshifted : ls = (left.shifted operator right).lexemes
                ++ r.rest.map Token.toLexeme := by
              rw [hls, List.map_cons, ht, hlexemes]
              simp [Tree.lexemes]
            have happly : (left.shifted operator right).value env
                = .ok (operator.apply a b) := by
              rw [Tree.value, hvalue, hb]
              rfl
            have hshort := r.shorter
            rw [List.length_cons] at hn
            rw [hint, hoperator]
            refine ih r.rest.length (by omega) (left.shifted operator right) _ happly
              hshifted ?_ rfl
            intro us hus
            apply h us
            rw [List.map_cons, hlexemes]
            exact hus.trans ((List.suffix_append _ _).trans (List.suffix_cons _ _))

theorem sum_explains {ts : List Token}
    (h : ∀ us, us.map Token.toLexeme <:+ ts.map Token.toLexeme →
      Explains env .product (us.map Token.toLexeme) (product (integers env) us)) :
    Explains env .sum (ts.map Token.toLexeme) (sum (integers env) ts) := by
  have hfirst := h ts (List.suffix_refl _)
  rw [sum]
  split
  · next e he => exact hfirst.of_error he (List.infix_refl _)
  next r hr =>
    rw [hr] at hfirst
    obtain ⟨first, a, hlexemes, hvalue, hint⟩ := hfirst
    obtain ⟨_, rest, hshort⟩ := r
    obtain rfl : _ = Number.int a := hint
    refine sumTail_explains (.term first) hshort hvalue hlexemes ?_
    intro us hus
    apply h us
    rw [hlexemes]
    exact hus.trans (List.suffix_append _ _)

/-- Every sum that is read was written: what stands in its parentheses is shorter. -/
theorem sum_explains_of_length (n : Nat) : ∀ ts, ts.length = n → Whole (ts.map Token.toLexeme) →
    Explains env .sum (ts.map Token.toLexeme) (sum (integers env) ts) := by
  induction n using Nat.strongRecOn with
  | _ n ih =>
      rintro ts rfl hwhole
      apply sum_explains
      intro us hus
      apply product_explains
      intro vs hvs
      apply signed_explains
      intro t ws hws
      have hsuffix := hws.trans (hvs.trans hus)
      have hlength := hsuffix.length_le
      rw [List.length_map, List.length_map, List.length_cons] at hlength
      have hnumber : t.kind = .number → '.' ∉ t.raw :=
        hwhole t.toLexeme (hsuffix.subset List.mem_cons_self)
      apply primary_explains t hnumber
      apply ih ws.length (by omega) ws rfl
      intro l hl
      exact hwhole l (hsuffix.subset (List.mem_cons_of_mem _ hl))

/-- The evaluator reads the grammar: a value is that of a tree the tokens are written
from, in one way only; what is not written from a tree with a value is not foldable, unless
it has a numeral that is too long or a quotient that is out of range. -/
theorem evaluate_grammar (env : Text → Option Int) (ts : List Token)
    (hwhole : ∀ t ∈ ts, t.kind = .number → '.' ∉ t.raw) :
    (∀ n, evaluate (integers env) ts = .ok n ↔
      ∃ (t : Tree .sum) (v : Int), ts.map Token.toLexeme = t.lexemes ∧
        Tree.CallFree (ts.map Token.toLexeme) ∧ t.value env = .ok v ∧ n = .int v) ∧
    (∀ t t' : Tree .sum, ts.map Token.toLexeme = t.lexemes →
      ts.map Token.toLexeme = t'.lexemes → t = t') ∧
    (∀ t : Tree .sum, ts.map Token.toLexeme = t.lexemes →
      evaluate (integers env) ts = (t.value env).map Number.int) ∧
    ∀ e, evaluate (integers env) ts = .error e →
      e = .unfoldable ∨ ∃ f, e = .fault f ∧ FaultIn env (ts.map Token.toLexeme) f := by
  have hread : Explains env .sum (ts.map Token.toLexeme) (sum (integers env) ts) :=
    sum_explains_of_length _ ts rfl (List.forall_mem_map.2 hwhole)
  refine ⟨fun n => ⟨?_, ?_⟩, ?_, fun t ht => evaluate_of_lexemes t ht, ?_⟩
  · intro hvalue
    rw [evaluate] at hvalue
    split at hvalue
    · cases hvalue
    next r hr =>
      rw [hr] at hread
      obtain ⟨t, v, hlexemes, hv, hint⟩ := hread
      split_ifs at hvalue with hend
      cases hvalue
      rw [List.isEmpty_iff] at hend
      rw [hend, List.map_nil, List.append_nil] at hlexemes
      exact ⟨t, v, hlexemes, hlexemes ▸ t.callFree_lexemes, hv, hint⟩
  · rintro ⟨t, v, hlexemes, -, hv, rfl⟩
    rw [evaluate_of_lexemes t hlexemes, hv]
    rfl
  · intro t t' ht ht'
    exact Tree.lexemes_injective (ht.symm.trans ht')
  · intro e he
    cases e with
    | unfoldable => exact Or.inl rfl
    | fault f =>
        rw [evaluate] at he
        split at he
        · next e' hsum =>
          cases he
          rw [hsum] at hread
          exact Or.inr ⟨f, rfl, hread⟩
        · split_ifs at he
          cases he

/-- A product of sums, with a sign and a quotient in it. -/
theorem evaluate_grammar_product :
    let env : Text → Option Int := fun word => if word = ['A'] then some 5 else none
    let made (kind : TokenKind) (raw : String) : Token := .made kind raw.toList (.point .origin)
    evaluate (integers env)
      [made .punct "(", made .word "A", made .punct "-", made .punct "-", made .number "7",
        made .punct ")", made .punct "*", made .punct "(", made .number "10", made .punct "/",
        made .number "4", made .punct ")"] = .ok (.int 36) := by
  intro env made
  let ten : Tree .signed := .plain (.numeral ['1', '0'] (by decide))
  let four : Tree .signed := .plain (.numeral ['4'] (by decide))
  let seven : Tree .signed := .negative (.plain (.numeral ['7'] (by decide)))
  let quotient : Tree .sum := .term (.scaled (.factor ten) .divide four)
  let difference : Tree .sum :=
    .shifted (.term (.factor (.plain (.name ['A'])))) .subtract (.factor seven)
  let product : Tree .sum :=
    .term (.scaled (.factor (.plain (.group difference))) .multiply (.plain (.group quotient)))
  refine ((evaluate_grammar env _ ?_).1 _).2 ⟨product, 36, rfl, product.callFree_lexemes, ?_, rfl⟩
  · decide
  · decide +kernel

/-- A numeral of 4301 digits is an expression by the grammar, and reading it is at fault. -/
theorem evaluate_tooLong :
    let digits := List.replicate 4301 '7'
    let ts := [Token.made .number digits (.point .origin)]
    (∀ t ∈ ts, t.kind = .number → '.' ∉ t.raw) ∧
      (∃ whole : '.' ∉ digits,
        ts.map Token.toLexeme
          = (Tree.term (.factor (.plain (.numeral digits whole)))).lexemes) ∧
      evaluate (integers fun _ => none) ts = .error (.fault .tooLong) := by
  intro digits ts
  have hwhole : '.' ∉ digits := fun h => absurd (List.eq_of_mem_replicate h) (by decide)
  have hlong : Number.maxDigits < digits.length := by
    rw [List.length_replicate]
    decide
  refine ⟨fun t ht _ => ?_, ⟨hwhole, rfl⟩, ?_⟩
  · rw [List.eq_of_mem_singleton ht]
    exact hwhole
  · rw [evaluate_of_lexemes (.term (.factor (.plain (.numeral digits hwhole)))) rfl]
    simp only [Tree.value, Number.readNat, if_pos hlong]
    rfl

end MapScript.Expression
