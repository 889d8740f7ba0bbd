import MapScript.Pattern
import MapScript.Symbol.Expression
import Mathlib

/-!
# No division by zero

Arithmetic may leave the range of its formats, but it never divides by zero: an
expression asks before it divides, and a layout divides by counts that are not
zero.  An integer other than zero stays other than zero as a double.
-/

namespace MapScript

/-- The result does not fail by a division by zero. -/
def Divides {α : Type} (x : Except Fault α) : Prop := x ≠ .error .zeroDivision

namespace Divides

variable {α β : Type}

theorem ok (a : α) : Divides (.ok a) := by simp [Divides]

theorem bind {x : Except Fault α} {f : α → Except Fault β} (hx : Divides x)
    (hf : ∀ a, Divides (f a)) : Divides (x >>= f) := by
  cases x with
  | error e =>
      intro h
      cases h
      exact hx rfl
  | ok a => exact hf a

theorem mapM {f : α → Except Fault β} (hf : ∀ a, Divides (f a)) (xs : List α) :
    Divides (xs.mapM f) := by
  induction xs with
  | nil => exact ok []
  | cons x xs ih =>
      rw [List.mapM_cons]
      apply (hf x).bind
      intro y
      apply ih.bind
      intro ys
      exact ok (y :: ys)

end Divides

/-! ### Numbers -/

namespace Binary64

theorem le_nearestEven (num den : Nat) : num / den ≤ nearestEven num den := by
  unfold nearestEven
  simp only
  split_ifs <;> omega

/-- Rounding to 53 binary digits keeps a count of units from falling to zero. -/
theorem roundRatio_pos {num : Nat} (h : num ≠ 0) : 0 < roundRatio num 1 := by
  unfold roundRatio spacing
  simp only [Nat.div_one, Nat.one_mul]
  have hspacing : Nat.pow 2 (num.log2 - 52) ≤ num := by
    apply Nat.le_trans _ (Nat.log2_self_le h)
    exact Nat.pow_le_pow_right (by decide) (by omega)
  have hpos : 0 < Nat.pow 2 (num.log2 - 52) := Nat.pow_pos (by decide)
  have hone : 1 ≤ num / Nat.pow 2 (num.log2 - 52) := (Nat.one_le_div_iff hpos).2 hspacing
  exact Nat.mul_pos (Nat.lt_of_lt_of_le hone (le_nearestEven _ _)) hpos

theorem isZero_ofInt {n : Int} (h : n ≠ 0) : (ofInt n).isZero = false := by
  have hone : one ≠ 0 := by decide +kernel
  have hunits : 0 < roundRatio (n.natAbs * one) 1 :=
    roundRatio_pos (Nat.mul_ne_zero (Int.natAbs_ne_zero.2 h) hone)
  unfold ofInt ofRatio ofUnits
  simp only
  split_ifs
  · obtain ⟨k, hk⟩ := Nat.exists_eq_succ_of_ne_zero (Nat.ne_of_gt hunits)
    rw [hk]
    rfl
  · rfl

end Binary64

namespace Number

theorem toDouble_divides (a : Number) : Divides a.toDouble := by
  unfold toDouble
  split
  · exact .ok _
  · simp only
    split_ifs <;> simp [Divides]

theorem toDouble_isZero {b : Number} {y : Binary64} (h : b.toDouble = .ok y)
    (hb : b.isZero = false) : y.isZero = false := by
  cases b with
  | float x =>
      cases h
      exact hb
  | int n =>
      simp only [toDouble] at h
      split_ifs at h
      rw [← Except.ok.inj h]
      exact Binary64.isZero_ofInt (by simpa [isZero] using hb)

theorem arith_divides (exact : Int → Int → Int) (rounded : Binary64 → Binary64 → Binary64)
    (a b : Number) : Divides (arith exact rounded a b) := by
  unfold arith
  split
  · exact .ok _
  · apply (toDouble_divides _).bind
    intro x
    apply (toDouble_divides _).bind
    intro y
    exact .ok _

theorem add_divides (a b : Number) : Divides (a.add b) := arith_divides _ _ a b

theorem sub_divides (a b : Number) : Divides (a.sub b) := arith_divides _ _ a b

theorem mul_divides (a b : Number) : Divides (a.mul b) := arith_divides _ _ a b

theorem intQuotient_divides (a : Int) {b : Int} (h : b ≠ 0) : Divides (intQuotient a b) := by
  unfold intQuotient
  simp only [h, if_false]
  split_ifs <;> simp [Divides]

theorem div_divides (a : Number) {b : Number} (h : b.isZero = false) : Divides (a.div b) := by
  unfold div
  split
  · exact intQuotient_divides _ (by simpa [isZero] using h)
  · apply (toDouble_divides a).bind
    intro x
    cases hy : b.toDouble with
    | error e =>
        have hb := toDouble_divides b
        rw [hy] at hb
        exact hb
    | ok y =>
        show Divides (if y.isZero then .error .zeroDivision else .ok (x.div y))
        rw [toDouble_isZero hy h]
        exact .ok _

theorem roundAway_divides (x : Binary64) : Divides (roundAway x) := by
  unfold roundAway
  split <;> simp [Divides]

theorem round_divides (a : Number) : Divides a.round := (toDouble_divides a).bind roundAway_divides

theorem parse_divides (numeral : Text) : Divides (parse numeral) := by
  unfold parse readNat
  split
  · split_ifs <;> simp [Divides, Except.map]
  · exact .ok _

end Number

/-! ### Expressions -/

namespace Expression

/-- Reading an expression does not halt by a division by zero. -/
def Safe {α : Type} (x : Except Halt α) : Prop := x ≠ .error (.fault .zeroDivision)

theorem Safe.ok {α : Type} (a : α) : Safe (.ok a) := by simp [Safe]

theorem Safe.unfoldable {α : Type} : Safe (.error .unfoldable : Except Halt α) := by simp [Safe]

theorem Safe.of_error {α β : Type} {x : Except Halt α} {e : Halt} (h : Safe x)
    (hx : x = .error e) : Safe (.error e : Except Halt β) := by
  intro he
  cases he
  exact h hx

theorem Safe.lift {α : Type} {x : Except Fault α} (h : Divides x) : Safe (lift x) := by
  cases x with
  | ok a => simp [Safe, Expression.lift]
  | error f =>
      intro he
      cases he
      exact h rfl

theorem divide_safe (a b : Number) : Safe (divide a b) := by
  unfold divide
  split_ifs with hb
  · simp [Safe]
  · have hb' : b.isZero = false := by simpa using hb
    split
    · next m n =>
      have hn : n ≠ 0 := by simpa [Number.isZero] using hb'
      have hd : Divides (divideInt m n) := by
        unfold divideInt
        split
        · next f hf =>
          intro he
          cases he
          exact Number.intQuotient_divides m hn hf
        · exact Number.roundAway_divides _
      have hl := Safe.lift hd
      cases hx : Expression.lift (divideInt m n) with
      | error e => exact hl.of_error hx
      | ok q => simp [Safe, Except.map]
    · have hl := Safe.lift (Number.div_divides a hb')
      cases hx : Expression.lift (a.div b) with
      | error e => exact hl.of_error hx
      | ok q => simp [Safe, Except.map]

section
variable {values : Text → Option Number}

theorem primary_safe (t : Token) {ts : List Token} (hsum : Safe (sum values ts)) :
    Safe (primary values t ts) := by
  rw [primary]
  split
  · split
    · next f hf =>
      intro h
      cases h
      exact Number.parse_divides t.raw hf
    · exact .ok _
  split
  · split
    · exact .unfoldable
    split
    · exact .unfoldable
    · exact .ok _
  split
  · split
    · next e he => exact hsum.of_error he
    split
    · exact .unfoldable
    split
    · exact .ok _
    · exact .unfoldable
  · exact .unfoldable

theorem signed_safe {ts : List Token}
    (h : ∀ t us, us.length < ts.length → Safe (primary values t us)) : Safe (signed values ts) := by
  induction ts with
  | nil =>
      rw [signed]
      exact .unfoldable
  | cons t rest ih =>
      rw [signed]
      split
      · have hrest : Safe (signed values rest) := by
          apply ih
          intro u us hlt
          exact h u us (by simp only [List.length_cons]; omega)
        split
        · next e he => exact hrest.of_error he
        · exact .ok _
      · exact h t rest (by simp)

theorem productTail_safe {bound : Nat} (left : Reading bound)
    (h : ∀ us, us.length < left.rest.length → Safe (signed values us)) :
    Safe (productTail values left) := by
  induction hn : left.rest.length using Nat.strongRecOn generalizing left with
  | _ n ih =>
      rw [productTail]
      split
      · exact .ok left
      next t ts hrest =>
        have hts : ts.length < left.rest.length := by simp [hrest]
        dsimp only
        split
        · exact .ok left
        next operation hoperation =>
          have hsafe (a b : Number) : Safe (operation a b) := by
            split_ifs at hoperation <;> cases hoperation
            · exact Safe.lift (Number.mul_divides a b)
            · exact divide_safe a b
          split
          · next e he => exact (h ts hts).of_error he
          next right _ =>
            split
            · next e he => exact (hsafe _ _).of_error he
            · have hright := right.shorter
              apply ih right.rest.length (by omega) _ _ rfl
              intro us hus
              exact h us (by dsimp only at hus; omega)

theorem product_safe {ts : List Token}
    (h : ∀ us, us.length ≤ ts.length → Safe (signed values us)) : Safe (product values ts) := by
  rw [product]
  split
  · next e he => exact (h ts (Nat.le_refl _)).of_error he
  · next first _ =>
    apply productTail_safe
    intro us hus
    exact h us (by have := first.shorter; omega)

theorem sumTail_safe {bound : Nat} (left : Reading bound)
    (h : ∀ us, us.length < left.rest.length → Safe (product values us)) :
    Safe (sumTail values left) := by
  induction hn : left.rest.length using Nat.strongRecOn generalizing left with
  | _ n ih =>
      rw [sumTail]
      split
      · exact .ok left
      next t ts hrest =>
        have hts : ts.length < left.rest.length := by simp [hrest]
        dsimp only
        split
        · exact .ok left
        next operation hoperation =>
          have hsafe (a b : Number) : Divides (operation a b) := by
            split_ifs at hoperation <;> cases hoperation
            · exact Number.add_divides a b
            · exact Number.sub_divides a b
          split
          · next e he => exact (h ts hts).of_error he
          next right _ =>
            split
            · next e he => exact (Safe.lift (hsafe _ _)).of_error he
            · have hright := right.shorter
              apply ih right.rest.length (by omega) _ _ rfl
              intro us hus
              exact h us (by dsimp only at hus; omega)

/-- Reading a sum is safe: what stands in its parentheses is shorter. -/
theorem sum_safe_of_length (n : Nat) : ∀ ts, ts.length = n → Safe (sum values ts) := by
  induction n using Nat.strongRecOn with
  | _ n ih =>
      intro ts hn
      have hsigned : ∀ us, us.length ≤ n → Safe (signed values us) := by
        intro us hus
        apply signed_safe
        intro t vs hvs
        exact primary_safe t (ih vs.length (by omega) vs rfl)
      have hproduct : ∀ us, us.length ≤ n → Safe (product values us) := by
        intro us hus
        apply product_safe
        intro vs hvs
        exact hsigned vs (by omega)
      rw [sum]
      split
      · next e he => exact (hproduct ts (by omega)).of_error he
      · next first _ =>
        apply sumTail_safe
        intro us hus
        exact hproduct us (by have := first.shorter; omega)

end

theorem fold_divides (values : Text → Option Number) (ts : List Token) :
    Divides (fold values ts) := by
  have hsum := @sum_safe_of_length values ts.length ts rfl
  unfold fold evaluate
  cases hs : sum values ts with
  | error e =>
      cases e with
      | unfoldable => simp [Divides]
      | fault f =>
          intro h
          cases h
          exact hsum hs
  | ok r => by_cases hr : r.rest.isEmpty <;> simp [Divides, hr]

end Expression

/-! ### Layouts -/

namespace Layout

theorem toGrid_divides (x y : Number) : Divides (toGrid x y) := by
  apply (Number.round_divides x).bind
  intro gx
  apply (Number.round_divides y).bind
  intro gy
  exact .ok _

theorem ofAngle_divides (f : Binary64 → Binary64) (angle : Number) :
    Divides (ofAngle f angle) := by
  apply (Number.toDouble_divides angle).bind
  intro a
  split <;> simp [Divides, pure, Except.pure]

theorem circle_divides {count : Int} (h : 1 ≤ count) (radius cx cy start : Number) :
    Divides (circle count radius cx cy start) := by
  have hcount : (Number.int count).isZero = false := by
    simp only [Number.isZero, beq_eq_false_iff_ne]
    omega
  apply (Number.div_divides _ hcount).bind
  intro step
  apply (Number.toDouble_divides start).bind
  intro first
  apply Divides.mapM
  intro i
  apply (Number.mul_divides i _).bind
  intro turned
  apply (Number.add_divides _ turned).bind
  intro angle
  apply (ofAngle_divides .cos angle).bind
  intro c
  apply (Number.mul_divides radius c).bind
  intro dx
  apply (Number.add_divides cx dx).bind
  intro x
  apply (ofAngle_divides .sin angle).bind
  intro s
  apply (Number.mul_divides radius s).bind
  intro dy
  apply (Number.add_divides cy dy).bind
  intro y
  exact toGrid_divides x y

theorem between_divides (a b i : Number) {last : Number} (h : last.isZero = false) :
    Divides (between a b i last) := by
  apply (Number.sub_divides b a).bind
  intro whole
  apply (Number.mul_divides whole i).bind
  intro way
  apply (Number.div_divides way h).bind
  intro part
  exact Number.add_divides a _

theorem line_divides (count : Int) (x1 y1 x2 y2 : Number) :
    Divides (line count x1 y1 x2 y2) := by
  unfold line
  split
  · apply (toGrid_divides x1 y1).bind
    intro p
    exact .ok _
  · have hlast : (Number.int (count - 1)).isZero = false := by
      simp only [Number.isZero, beq_eq_false_iff_ne]
      omega
    apply Divides.mapM
    intro i
    apply (between_divides x1 x2 i hlast).bind
    intro x
    apply (between_divides y1 y2 i hlast).bind
    intro y
    exact toGrid_divides x y

theorem along_divides (a b t : Number) : Divides (along a b t) := by
  apply (Number.sub_divides b a).bind
  intro whole
  apply (Number.mul_divides whole t).bind
  intro part
  exact Number.add_divides a part

theorem walk_divides (distance : Binary64) (a : Corner) (path : List Corner) :
    Divides (walk distance a path) := by
  induction path generalizing distance a with
  | nil => exact toGrid_divides a.x a.y
  | cons b path ih =>
      apply (Number.sub_divides b.x a.x).bind
      intro width
      apply (Number.toDouble_divides width).bind
      intro dx
      apply (Number.sub_divides b.y a.y).bind
      intro height
      apply (Number.toDouble_divides height).bind
      intro dy
      dsimp only
      split
      · apply (along_divides a.x b.x _).bind
        intro x
        apply (along_divides a.y b.y _).bind
        intro y
        exact toGrid_divides x y
      · exact ih _ b

theorem corners_divides (h cx cy : Number) : Divides (corners h cx cy) := by
  apply (Number.add_divides cx h).bind
  intro right
  apply (Number.sub_divides cx h).bind
  intro left
  apply (Number.add_divides cy h).bind
  intro top
  apply (Number.sub_divides cy h).bind
  intro bottom
  exact .ok _

theorem square_divides {count : Int} (h : 1 ≤ count) (halfSide cx cy : Number) :
    Divides (square count halfSide cx cy) := by
  have hcount : (Number.int count).isZero = false := by
    simp only [Number.isZero, beq_eq_false_iff_ne]
    omega
  apply (corners_divides halfSide cx cy).bind
  rintro ⟨start, path⟩
  apply (Number.mul_divides _ halfSide).bind
  intro perimeter
  apply Divides.mapM
  intro i
  apply (Number.mul_divides perimeter i).bind
  intro way
  apply (Number.div_divides way hcount).bind
  intro distance
  exact walk_divides distance start path

end Layout

/-- The points of a pattern with a positive count. -/
theorem Pattern.points_divides (p : Pattern) {count : Int} (h : 1 ≤ count) (args : List Number) :
    Divides (p.points count args) := by
  cases p with
  | circle => exact Layout.circle_divides h _ _ _ _
  | line => exact Layout.line_divides count _ _ _ _
  | square => exact Layout.square_divides h _ _ _

end MapScript
