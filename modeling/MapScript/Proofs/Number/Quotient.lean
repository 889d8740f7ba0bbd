import MapScript.Proofs.Number.Units

/-!
# Quotients of integers

The quotient of two integers is rounded twice on its way to an integer: into the format,
and once more when a half is added to it.  As long as the dividend has no more than 51
binary digits neither rounding reaches the middle between two integers from the outside,
so the result is the integer nearest to the exact quotient, from the middle the one farther
from zero.
-/

namespace MapScript

/-! ### The nearest integer -/

/-- The integer nearest to a number, of two that are as near the one farther from zero. -/
def NearestAway (x : ℚ) (q : Int) : Prop :=
  ∀ k : Int, |x - q| < |x - k| ∨ |x - q| = |x - k| ∧ |k| ≤ |q|

namespace NearestAway

variable {x : ℚ} {q q' : Int}

theorem distance_le (h : NearestAway x q) (k : Int) : |x - q| ≤ |x - k| :=
  (h k).elim le_of_lt fun hsame => hsame.1.le

/-- Only one integer is nearest. -/
theorem unique (h : NearestAway x q) (h' : NearestAway x q') : q = q' := by
  have hsame : |x - q| = |x - q'| := le_antisymm (h.distance_le q') (h'.distance_le q)
  have habs : |q'| ≤ |q| := (h q').elim (fun hlt => absurd hsame hlt.ne) And.right
  have habs' : |q| ≤ |q'| := (h' q).elim (fun hlt => absurd hsame.symm hlt.ne) And.right
  rcases abs_eq_abs.1 (le_antisymm habs' habs) with heq | hneg
  · exact heq
  · -- of two opposite integers neither is nearer than zero, unless they are zero
    have hleft := sq_le_sq.2 (h.distance_le 0)
    have hright := sq_le_sq.2 (h'.distance_le 0)
    have hcast : (q : ℚ) = -q' := by exact_mod_cast hneg
    rw [hcast, Int.cast_zero] at hleft
    rw [Int.cast_zero] at hright
    have hsquares : (x - -(q' : ℚ)) ^ 2 + (x - q') ^ 2 = 2 * (x - 0) ^ 2 + 2 * (q' : ℚ) ^ 2 := by
      ring
    have hzero : (q' : ℚ) = 0 := by
      apply pow_eq_zero_iff (two_ne_zero) |>.1
      exact le_antisymm (by linarith) (sq_nonneg _)
    have hq' : q' = 0 := by exact_mod_cast hzero
    rw [hneg, hq', neg_zero]

theorem neg (h : NearestAway x q) : NearestAway (-x) (-q) := by
  intro k
  have hk := h (-k)
  have hdistance (n : Int) : |-x - ((-n : Int) : ℚ)| = |x - n| := by
    rw [Int.cast_neg, ← abs_neg]
    congr 1
    ring
  rw [hdistance q, ← neg_neg k, hdistance (-k), neg_neg, abs_neg]
  rwa [abs_neg] at hk

/-- Of a number that is not below zero, the nearest integer is less than a half above it or
at most a half below it. -/
theorem of_nonneg {n : Nat} (hx : 0 ≤ x) (hlow : n - 1 / 2 ≤ x) (hhigh : x < n + 1 / 2) :
    NearestAway x n := by
  have hdistance : |x - ((n : Int) : ℚ)| ≤ 1 / 2 := by
    rw [Int.cast_natCast, abs_le]
    constructor <;> linarith
  intro k
  rcases lt_trichotomy k n with hk | rfl | hk
  · have hk' : (k : ℚ) + 1 ≤ n := by exact_mod_cast hk
    have hfar : 1 / 2 ≤ |x - k| := le_abs.2 (Or.inl (by linarith))
    rcases hdistance.trans hfar |>.lt_or_eq with hlt | hsame
    · exact Or.inl hlt
    · have hnonneg : 0 ≤ k := by
        by_contra hneg
        have hbelow : (k : ℚ) ≤ -1 := by exact_mod_cast (show k ≤ -1 by omega)
        have habove : 1 ≤ |x - k| := le_abs.2 (Or.inl (by linarith))
        linarith
      rw [abs_of_nonneg hnonneg]
      exact Or.inr ⟨hsame, hk.le.trans (le_abs_self _)⟩
  · exact Or.inr ⟨rfl, le_rfl⟩
  · left
    have hk' : (n : ℚ) + 1 ≤ k := by exact_mod_cast hk
    have hfar : 1 / 2 < |x - k| := lt_abs.2 (Or.inr (by linarith))
    exact hdistance.trans_lt hfar

end NearestAway

/-- The nearest integer to a quotient, by division with a remainder. -/
theorem nearestAway_div {a b : Int} (hb : b ≠ 0) :
    NearestAway (a / b) (Binary64.signed ((a < 0) != (b < 0))
      ((2 * a.natAbs + b.natAbs) / (2 * b.natAbs) : Nat)) := by
  have hpos : 0 < b.natAbs := Int.natAbs_pos.2 hb
  generalize hn : (2 * a.natAbs + b.natAbs) / (2 * b.natAbs) = n
  have hlow : n * (2 * b.natAbs) ≤ 2 * a.natAbs + b.natAbs := hn ▸ Nat.div_mul_le_self _ _
  have hhigh : 2 * a.natAbs + b.natAbs < (n + 1) * (2 * b.natAbs) := by
    rw [← hn, Nat.mul_comm _ (2 * b.natAbs)]
    exact Nat.lt_mul_div_succ _ (by omega)
  have hmagnitude : NearestAway ((a.natAbs : ℚ) / b.natAbs) n := by
    have hposq : (0 : ℚ) < b.natAbs := by exact_mod_cast hpos
    have hlowq : (n : ℚ) * (2 * b.natAbs) ≤ 2 * a.natAbs + b.natAbs := by exact_mod_cast hlow
    have hhighq : 2 * (a.natAbs : ℚ) + b.natAbs < (n + 1) * (2 * b.natAbs) := by
      exact_mod_cast hhigh
    apply NearestAway.of_nonneg (by positivity)
    · rw [le_div_iff₀ hposq]
      linarith
    · rw [div_lt_iff₀ hposq]
      linarith
  have hsigns (s t : Bool) : NearestAway ((Binary64.signed s a.natAbs : ℚ)
      / Binary64.signed t b.natAbs) (Binary64.signed (s != t) n) := by
    cases s <;> cases t
    · exact hmagnitude
    · simpa [Binary64.signed, div_neg] using hmagnitude.neg
    · simpa [Binary64.signed, neg_div] using hmagnitude.neg
    · simpa [Binary64.signed, neg_div_neg_eq] using hmagnitude
  have hquotient := hsigns (a < 0) (b < 0)
  rwa [Binary64.signed_natAbs, Binary64.signed_natAbs] at hquotient

/-! ### The roundings of a quotient -/

namespace Number

open Binary64

attribute [local irreducible] one limit reach

/-- A quotient that stays a step below the middle between two whole numbers is below
the upper one after a half is added in the format. -/
theorem wholeNear_le_of_gap {a b n k j : Nat} (hb : 0 < b) (hone : one = 2 * (k * 2 ^ j))
    (hk : 0 < k) (hdigits : (2 * n + 2) * k ≤ 2 ^ 53)
    (hgap : 2 * a * k + b ≤ (2 * n + 1) * k * b) : wholeNear (roundRatio (a * one) b) ≤ n := by
  have hhalf : one / 2 = k * 2 ^ j := by rw [hone, Nat.mul_div_cancel_left _ (by decide)]
  have hpos : 0 < 2 ^ j := Nat.two_pow_pos j
  -- the step is `2 ^ j`, and `k` of them are a half
  obtain ⟨m, hm⟩ : ∃ m, (2 * n + 1) * k = m + 1 :=
    Nat.exists_eq_succ_of_ne_zero (Nat.mul_pos (by omega) hk).ne'
  have hroom : m + 1 + k ≤ 2 ^ 53 := by
    calc m + 1 + k = (2 * n + 2) * k := by rw [← hm]; ring
      _ ≤ 2 ^ 53 := hdigits
  have hquotient : roundRatio (a * one) b ≤ m * 2 ^ j := by
    apply roundRatio_le (representable_mul_two_pow (by omega) j) hb
    have hsteps : 2 * a * k ≤ m * b := by
      rw [hm, Nat.add_one_mul m b] at hgap
      omega
    calc a * one = 2 * a * k * 2 ^ j := by rw [hone]; ring
      _ ≤ m * b * 2 ^ j := Nat.mul_le_mul_right _ hsteps
      _ = m * 2 ^ j * b := by ring
  have hsum : roundRatio (roundRatio (a * one) b + one / 2) 1 ≤ (m + k) * 2 ^ j := by
    apply roundRatio_le (representable_mul_two_pow _ j) Nat.one_pos
    · rw [hhalf, Nat.mul_one, Nat.add_mul]
      exact Nat.add_le_add_right hquotient _
    · omega
  have htop : (m + k) * 2 ^ j < (n + 1) * one := by
    calc (m + k) * 2 ^ j < (m + 1 + k) * 2 ^ j := Nat.mul_lt_mul_of_pos_right (by omega) hpos
      _ = (n + 1) * one := by rw [← hm, hone]; ring
  exact Nat.le_of_lt_succ ((Nat.div_lt_iff_lt_mul Binary64.one_pos).2 (hsum.trans_lt htop))

/-- A quotient from the middle below a whole number on is not below that number. -/
theorem le_wholeNear_of_middle {a b n : Nat} (hb : 0 < b) (hn : n ≤ 2 ^ 51)
    (hmiddle : (2 * n) * b ≤ 2 * a + b) : n ≤ wholeNear (roundRatio (a * one) b) := by
  have hquotient : n * one ≤ roundRatio (a * one) b + one / 2 := by
    rcases Nat.eq_zero_or_pos n with rfl | hpos
    · simp
    obtain ⟨m, rfl⟩ := Nat.exists_eq_succ_of_ne_zero hpos.ne'
    have hhalves : (2 * m + 1) * (one / 2) ≤ roundRatio (a * one) b := by
      apply le_roundRatio (representable_halves (by omega)) hb
      have hodd : (2 * m + 1) * b ≤ 2 * a := by
        rw [Nat.mul_succ, Nat.add_mul] at hmiddle
        rw [Nat.add_mul]
        omega
      calc (2 * m + 1) * (one / 2) * b = (2 * m + 1) * b * (one / 2) := by ring
        _ ≤ 2 * a * (one / 2) := Nat.mul_le_mul_right _ hodd
        _ = a * (2 * (one / 2)) := by ring
        _ = a * one := by rw [two_mul_half]
    calc (m + 1) * one = (m + 1) * (2 * (one / 2)) := by rw [two_mul_half]
      _ = (2 * m + 1) * (one / 2) + one / 2 := by ring
      _ ≤ roundRatio (a * one) b + one / 2 := Nat.add_le_add_right hhalves _
  rw [wholeNear, Nat.le_div_iff_mul_le Binary64.one_pos]
  apply le_roundRatio (representable_whole (by omega)) Nat.one_pos
  rwa [Nat.mul_one]

/-- With `k` steps in a half, a quotient below the middle is a step below it, as long as the
dividend is below `k` times the whole number. -/
theorem gap_below_middle {a b n k : Nat} (hk : 0 < k) (ha : a < n * k)
    (hhigh : 2 * a + b < (n + 1) * (2 * b)) : 2 * a * k + b ≤ (2 * n + 1) * k * b := by
  rcases le_or_gt a (n * b) with hbelow | habove
  · -- the quotient is not even above the whole number
    calc 2 * a * k + b ≤ 2 * (n * b) * k + k * b :=
          Nat.add_le_add (Nat.mul_le_mul_right k (Nat.mul_le_mul_left 2 hbelow))
            (Nat.le_mul_of_pos_left b hk)
      _ = (2 * n + 1) * k * b := by ring
  · -- the divisor is small, and quotients by it are far apart
    have hdivisor : b < k := Nat.lt_of_mul_lt_mul_left (habove.trans ha)
    have hwhole : 2 * a + 1 ≤ (2 * n + 1) * b := by
      have hsplit : (n + 1) * (2 * b) = (2 * n + 1) * b + b := by ring
      omega
    calc 2 * a * k + b ≤ 2 * a * k + k := Nat.add_le_add_left hdivisor.le _
      _ = (2 * a + 1) * k := by ring
      _ ≤ (2 * n + 1) * b * k := Nat.mul_le_mul_right k hwhole
      _ = (2 * n + 1) * k * b := by ring

/-- The two roundings of a quotient with a small dividend, to the format and then to an
integer by way of adding a half, are the one rounding of the exact quotient. -/
theorem wholeNear_roundRatio {a b : Nat} (hb : 0 < b) (ha : a < 2 ^ 51) :
    wholeNear (roundRatio (a * one) b) = (2 * a + b) / (2 * b) := by
  generalize hn : (2 * a + b) / (2 * b) = n
  have hlow : n * (2 * b) ≤ 2 * a + b := hn ▸ Nat.div_mul_le_self _ _
  have hhigh : 2 * a + b < (n + 1) * (2 * b) := by
    rw [← hn, Nat.mul_comm _ (2 * b)]
    exact Nat.lt_mul_div_succ _ (by omega)
  have hsmall : n ≤ a := by
    by_contra hlt
    have hmore : (a + 1) * (2 * b) ≤ 2 * a + b :=
      (Nat.mul_le_mul_right _ (by omega)).trans hlow
    have hproduct : (a + 1) * (2 * b) = 2 * (a * b) + 2 * b := by ring
    have hfactor : a ≤ a * b := Nat.le_mul_of_pos_right a hb
    omega
  apply le_antisymm
  · obtain ⟨e, he⟩ := one_eq_two_pow
    rcases Nat.eq_zero_or_pos n with rfl | hpos
    · -- next below one half the doubles are twice as close as next below one
      apply wholeNear_le_of_gap (k := 2 ^ 52) (j := e + 1) hb _ (by decide) (by decide)
      · omega
      · rw [he]
        ring
    · -- as close as the doubles about the upper whole number
      have hpower : 2 ^ n.log2 ≤ n := Nat.log2_self_le hpos.ne'
      have hnext : n < 2 ^ (n.log2 + 1) := Nat.lt_log2_self
      have hlog : n.log2 ≤ 51 := by
        have : n.log2 < 51 := (Nat.log2_lt hpos.ne').2 (hsmall.trans_lt ha)
        omega
      have hsplit : 2 ^ n.log2 * 2 ^ (51 - n.log2) = 2 ^ 51 := by
        rw [← Nat.pow_add]
        congr 1
        omega
      rw [Nat.pow_succ] at hnext
      generalize hk : 2 ^ (51 - n.log2) = k at hsplit
      have hkpos : 0 < k := hk ▸ Nat.two_pow_pos _
      have hdividend : a < n * k := by
        calc a < 2 ^ n.log2 * k := hsplit ▸ ha
          _ ≤ n * k := Nat.mul_le_mul_right k hpower
      apply wholeNear_le_of_gap (k := k) (j := e + 2 + n.log2) hb _ hkpos
      · calc (2 * n + 2) * k = 2 * (n + 1) * k := by ring
          _ ≤ 2 * (2 ^ n.log2 * 2) * k := Nat.mul_le_mul_right k (Nat.mul_le_mul_left 2 hnext)
          _ = 4 * (2 ^ n.log2 * k) := by ring
          _ = 2 ^ 53 := by rw [hsplit]; rfl
      · exact gap_below_middle hkpos hdividend hhigh
      · rw [he, ← hk]
        calc 2 ^ (e + 54) = 2 ^ (1 + (51 - n.log2) + (e + 2 + n.log2)) := by congr 1; omega
          _ = 2 * (2 ^ (51 - n.log2) * 2 ^ (e + 2 + n.log2)) := by ring
  · exact le_wholeNear_of_middle hb (by omega) (by linarith)

end Number

end MapScript
