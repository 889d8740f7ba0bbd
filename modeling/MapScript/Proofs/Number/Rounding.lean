import MapScript.Proofs.Division

/-!
# Rounding to the format

Bringing a ratio into the format is monotone and leaves alone what is in the format
already, so it never passes a representable count of units on its way.
-/

namespace MapScript

/-! ### Whole numbers next to a ratio -/

/-- The whole part of the larger of two ratios is the larger one. -/
theorem div_le_div_of_mul_le_mul {num den num' den' : Nat} (hden : 0 < den) (hden' : 0 < den')
    (h : num * den' ≤ num' * den) : num / den ≤ num' / den' := by
  rw [Nat.le_div_iff_mul_le hden']
  apply Nat.le_of_mul_le_mul_right _ hden
  calc num / den * den' * den = num / den * den * den' := by ring
    _ ≤ num * den' := Nat.mul_le_mul_right _ (Nat.div_mul_le_self num den)
    _ ≤ num' * den := h

theorem le_nearestEven_of_mul_le {num den k : Nat} (hden : 0 < den) (h : k * den ≤ num) :
    k ≤ nearestEven num den :=
  ((Nat.le_div_iff_mul_le hden).2 h).trans (Binary64.le_nearestEven num den)

theorem nearestEven_le_of_le_mul {num den k : Nat} (hden : 0 < den) (h : num ≤ k * den) :
    nearestEven num den ≤ k := by
  have hdivision := Nat.div_add_mod num den
  have hbelow : num / den ≤ k := Nat.div_le_of_le_mul (by rwa [Nat.mul_comm])
  rcases hbelow.lt_or_eq with hlt | rfl
  · unfold nearestEven
    dsimp only
    split_ifs <;> omega
  · -- the ratio is the whole number
    have hrest : num % den = 0 := by
      rw [Nat.mul_comm] at h
      omega
    simp [nearestEven, hrest, hden]

/-- The whole number above a ratio is taken past the middle, and in the middle if the
one below is odd. -/
theorem nearestEven_eq (num den : Nat) : nearestEven num den =
    num / den + if den < 2 * (num % den) ∨ den = 2 * (num % den) ∧ num / den % 2 = 1 then 1
      else 0 := by
  unfold nearestEven
  dsimp only
  split_ifs <;> omega

theorem nearestEven_mono {num den num' den' : Nat} (hden : 0 < den) (hden' : 0 < den')
    (h : num * den' ≤ num' * den) : nearestEven num den ≤ nearestEven num' den' := by
  rcases (div_le_div_of_mul_le_mul hden hden' h).lt_or_eq with hlt | hsame
  · calc nearestEven num den ≤ num / den + 1 := by
          apply nearestEven_le_of_le_mul hden
          rw [Nat.mul_comm]
          exact (Nat.lt_mul_div_succ num hden).le
      _ ≤ num' / den' := hlt
      _ ≤ nearestEven num' den' := Binary64.le_nearestEven num' den'
  · -- of one whole number below both, the fractions decide
    have hrest : num % den * den' ≤ num' % den' * den := by
      have hnum := Nat.div_add_mod num den
      have hnum' := Nat.div_add_mod num' den'
      rw [← hnum, ← hnum', hsame] at h
      nlinarith
    have hpast (hup : den < 2 * (num % den)) : den' < 2 * (num' % den') := by
      nlinarith
    have hmiddle (hup : den = 2 * (num % den)) : den' ≤ 2 * (num' % den') := by
      nlinarith
    rw [nearestEven_eq, nearestEven_eq, hsame]
    apply Nat.add_le_add_left
    split_ifs <;> omega

namespace Binary64

/-! ### Counts of units of the format -/

/-- The count of units has 53 binary digits, and zeros after them. -/
def Representable (units : Nat) : Prop := spacing units 1 ∣ units

theorem spacing_pos (num den : Nat) : 0 < spacing num den := Nat.pow_pos (by decide)

/-- Around a larger ratio the neighbours are as far apart, or farther. -/
theorem spacing_dvd_of_le {num den num' den' : Nat} (h : num / den ≤ num' / den') :
    spacing num den ∣ spacing num' den' := by
  apply Nat.pow_dvd_pow 2 (Nat.sub_le_sub_right _ 52)
  rw [Nat.log2_eq_log_two, Nat.log2_eq_log_two]
  exact Nat.log_mono_right h

theorem representable_mul_two_pow {m : Nat} (hm : m < 2 ^ 53) (e : Nat) :
    Representable (m * 2 ^ e) := by
  rcases Nat.eq_zero_or_pos m with rfl | hpos
  · simp [Representable]
  · apply Nat.dvd_mul_left_of_dvd
    apply Nat.pow_dvd_pow 2
    have hlog : (m * 2 ^ e).log2 < 53 + e := by
      rw [Nat.log2_lt (Nat.mul_ne_zero hpos.ne' (Nat.two_pow_pos e).ne'), Nat.pow_add]
      exact Nat.mul_lt_mul_of_pos_right hm (Nat.two_pow_pos e)
    rw [Nat.div_one]
    omega

theorem representable_two_pow (e : Nat) : Representable (2 ^ e) := by
  simpa using representable_mul_two_pow (m := 1) (by decide) e

/-- A multiple of the distance between neighbours that is no more than a ratio is no
more than what the ratio is rounded to. -/
theorem le_roundRatio_of_dvd {units num den : Nat} (hunits : spacing num den ∣ units)
    (hden : 0 < den) (h : units * den ≤ num) : units ≤ roundRatio num den := by
  obtain ⟨k, rfl⟩ := hunits
  rw [roundRatio, Nat.mul_comm]
  apply Nat.mul_le_mul_right
  apply le_nearestEven_of_mul_le (Nat.mul_pos hden (spacing_pos num den))
  calc k * (den * spacing num den) = spacing num den * k * den := by ring
    _ ≤ num := h

/-- Rounding does not pass a representable count on the way down. -/
theorem le_roundRatio {units num den : Nat} (hunits : Representable units) (hden : 0 < den)
    (h : units * den ≤ num) : units ≤ roundRatio num den := by
  have hfloor : units ≤ num / den := (Nat.le_div_iff_mul_le hden).2 h
  rcases Nat.eq_zero_or_pos units with rfl | hpos
  · exact Nat.zero_le _
  have hne : num / den ≠ 0 := (hpos.trans_le hfloor).ne'
  rcases le_or_gt (2 ^ (num / den).log2) units with hclose | hfar
  · -- the neighbours of the count are as far apart as those of the ratio
    apply le_roundRatio_of_dvd _ hden h
    refine Dvd.dvd.trans (Nat.pow_dvd_pow 2 (Nat.sub_le_sub_right ?_ 52)) hunits
    rw [Nat.div_one]
    exact (Nat.le_log2 hpos.ne').2 hclose
  · -- a power of two stands between
    refine hfar.le.trans (le_roundRatio_of_dvd ?_ hden ?_)
    · exact Nat.pow_dvd_pow 2 (Nat.sub_le _ _)
    · exact (Nat.le_div_iff_mul_le hden).1 (Nat.log2_self_le hne)

/-- Rounding does not pass a representable count on the way up. -/
theorem roundRatio_le {units num den : Nat} (hunits : Representable units) (hden : 0 < den)
    (h : num ≤ units * den) : roundRatio num den ≤ units := by
  have hdvd : spacing num den ∣ units := by
    refine (spacing_dvd_of_le ?_).trans hunits
    rw [Nat.div_one]
    exact Nat.div_le_of_le_mul (by rwa [Nat.mul_comm])
  obtain ⟨k, rfl⟩ := hdvd
  rw [roundRatio, Nat.mul_comm]
  apply Nat.mul_le_mul_left
  apply nearestEven_le_of_le_mul (Nat.mul_pos hden (spacing_pos num den))
  calc num ≤ spacing num den * k * den := h
    _ = k * (den * spacing num den) := by ring

/-- The larger of two ratios is rounded to the larger count. -/
theorem roundRatio_mono {num den num' den' : Nat} (hden : 0 < den) (hden' : 0 < den')
    (h : num * den' ≤ num' * den) : roundRatio num den ≤ roundRatio num' den' := by
  rcases eq_or_ne (num / den).log2 (num' / den').log2 with hsame | hother
  · -- on one grid the multiples of the spacing compare
    have hspacing : spacing num den = spacing num' den' := by rw [spacing, spacing, hsame]
    rw [roundRatio, roundRatio, hspacing]
    apply Nat.mul_le_mul_right
    have hpos := spacing_pos num' den'
    apply nearestEven_mono (Nat.mul_pos hden hpos) (Nat.mul_pos hden' hpos)
    calc num * (den' * spacing num' den') = num * den' * spacing num' den' := by ring
      _ ≤ num' * den * spacing num' den' := Nat.mul_le_mul_right _ h
      _ = num' * (den * spacing num' den') := by ring
  · -- the power of two below the larger ratio stands between
    have hlog : (num / den).log2 < (num' / den').log2 := by
      refine lt_of_le_of_ne ?_ hother
      rw [Nat.log2_eq_log_two, Nat.log2_eq_log_two]
      exact Nat.log_mono_right (div_le_div_of_mul_le_mul hden hden' h)
    have hne : num' / den' ≠ 0 := by
      intro hzero
      simp [hzero] at hlog
    have hpower : num / den < 2 ^ (num' / den').log2 :=
      Nat.lt_log2_self.trans_le (Nat.pow_le_pow_right (by decide) hlog)
    have hrep := representable_two_pow (num' / den').log2
    calc roundRatio num den ≤ 2 ^ (num' / den').log2 :=
          roundRatio_le hrep hden ((Nat.div_lt_iff_lt_mul hden).1 hpower).le
      _ ≤ roundRatio num' den' := by
          apply le_roundRatio hrep hden'
          exact (Nat.le_div_iff_mul_le hden').1 (Nat.log2_self_le hne)

/-- A representable count stays as it is. -/
theorem roundRatio_mul_self {units den : Nat} (hunits : Representable units) (hden : 0 < den) :
    roundRatio (units * den) den = units :=
  le_antisymm (roundRatio_le hunits hden le_rfl) (le_roundRatio hunits hden le_rfl)

/-! ### One and one half -/

/-- One is a power of two, and there is room below it. -/
theorem one_eq_two_pow : ∃ e, one = 2 ^ (e + 54) := ⟨1020, by decide +kernel⟩

theorem one_pos : 0 < one := by
  obtain ⟨e, he⟩ := one_eq_two_pow
  rw [he]
  exact Nat.two_pow_pos _

theorem two_mul_half : 2 * (one / 2) = one := by
  obtain ⟨e, he⟩ := one_eq_two_pow
  rw [he, Nat.pow_succ', Nat.mul_div_cancel_left _ (by decide)]

theorem representable_whole {n : Nat} (hn : n < 2 ^ 53) : Representable (n * one) := by
  obtain ⟨e, he⟩ := one_eq_two_pow
  rw [he]
  exact representable_mul_two_pow hn _

theorem representable_halves {n : Nat} (hn : n < 2 ^ 53) : Representable (n * (one / 2)) := by
  obtain ⟨e, he⟩ := one_eq_two_pow
  rw [he, Nat.pow_succ', Nat.mul_div_cancel_left _ (by decide)]
  exact representable_mul_two_pow hn _

/-! ### Signed counts -/

/-- The count of units of the format nearest to `num / den` units, on the side of
zero where `num` is. -/
def roundUnits (num : Int) (den : Nat) : Int := num.sign * roundRatio num.natAbs den

theorem roundRatio_zero (den : Nat) : roundRatio 0 den = 0 := by
  simp [roundRatio, nearestEven_eq]

theorem roundUnits_natCast (num den : Nat) : roundUnits num den = roundRatio num den := by
  rcases Nat.eq_zero_or_pos num with rfl | hpos
  · simp [roundUnits, roundRatio_zero]
  · simp [roundUnits, Int.sign_eq_one_of_pos (Int.natCast_pos.2 hpos)]

theorem roundUnits_neg (num : Int) (den : Nat) : roundUnits (-num) den = -roundUnits num den := by
  simp [roundUnits]

theorem roundUnits_nonneg {num : Int} (h : 0 ≤ num) (den : Nat) : 0 ≤ roundUnits num den := by
  obtain ⟨n, rfl⟩ := Int.eq_ofNat_of_zero_le h
  rw [roundUnits_natCast]
  exact Int.natCast_nonneg _

theorem roundUnits_mono {num num' : Int} {den den' : Nat} (hden : 0 < den) (hden' : 0 < den')
    (h : num * den' ≤ num' * den) : roundUnits num den ≤ roundUnits num' den' := by
  have hnat {n n' d d' : Nat} (hd : 0 < d) (hd' : 0 < d') (h : (n : Int) * d' ≤ n' * d) :
      roundUnits n d ≤ roundUnits n' d' := by
    rw [roundUnits_natCast, roundUnits_natCast, Int.ofNat_le]
    exact roundRatio_mono hd hd' (by exact_mod_cast h)
  obtain ⟨n, rfl | rfl⟩ := num.eq_nat_or_neg <;> obtain ⟨n', rfl | rfl⟩ := num'.eq_nat_or_neg
  · exact hnat hden hden' h
  · -- both are zero
    have hn : n = 0 := by
      by_contra hne
      have : 0 < (n : Int) * den' := by positivity
      nlinarith [Int.natCast_nonneg (n' * den)]
    have hn' : n' = 0 := by
      by_contra hne
      have : 0 < (n' : Int) * den := by positivity
      nlinarith [Int.natCast_nonneg (n * den')]
    simp [hn, hn', roundUnits]
  · rw [roundUnits_neg]
    have hleft := roundUnits_nonneg (Int.natCast_nonneg n) den
    have hright := roundUnits_nonneg (Int.natCast_nonneg n') den'
    omega
  · rw [roundUnits_neg, roundUnits_neg]
    exact Int.neg_le_neg (hnat hden' hden (by linarith))

theorem roundUnits_mul_self {units : Int} {den : Nat} (hunits : Representable units.natAbs)
    (hden : 0 < den) : roundUnits (units * den) den = units := by
  obtain ⟨n, rfl | rfl⟩ := units.eq_nat_or_neg
  · rw [Int.natAbs_natCast] at hunits
    rw [← Int.natCast_mul, roundUnits_natCast, roundRatio_mul_self hunits hden]
  · rw [Int.natAbs_neg, Int.natAbs_natCast] at hunits
    rw [Int.neg_mul, roundUnits_neg, ← Int.natCast_mul, roundUnits_natCast,
      roundRatio_mul_self hunits hden]

theorem roundUnits_le {num units : Int} {den : Nat} (hunits : Representable units.natAbs)
    (hden : 0 < den) (h : num ≤ units * den) : roundUnits num den ≤ units := by
  rw [← roundUnits_mul_self hunits hden]
  exact roundUnits_mono hden hden (mul_le_mul_of_nonneg_right h (Int.natCast_nonneg den))

theorem le_roundUnits {num units : Int} {den : Nat} (hunits : Representable units.natAbs)
    (hden : 0 < den) (h : units * den ≤ num) : units ≤ roundUnits num den := by
  rw [← roundUnits_mul_self hunits hden]
  exact roundUnits_mono hden hden (mul_le_mul_of_nonneg_right h (Int.natCast_nonneg den))

theorem natAbs_roundUnits_le {num : Int} {units den : Nat} (hunits : Representable units)
    (hden : 0 < den) (h : num.natAbs ≤ units * den) : (roundUnits num den).natAbs ≤ units := by
  obtain ⟨n, rfl | rfl⟩ := num.eq_nat_or_neg
  · rw [roundUnits_natCast, Int.natAbs_natCast]
    exact roundRatio_le hunits hden h
  · rw [roundUnits_neg, roundUnits_natCast, Int.natAbs_neg, Int.natAbs_natCast]
    rw [Int.natAbs_neg, Int.natAbs_natCast] at h
    exact roundRatio_le hunits hden h

theorem representable_mul_one {n : Int} (h : n.natAbs < 2 ^ 53) :
    Representable (n * one).natAbs := by
  rw [Int.natAbs_mul, Int.natAbs_natCast]
  exact representable_whole h

/-- A whole number stays as it is. -/
theorem roundUnits_mul_one {n : Int} (h : n.natAbs < 2 ^ 53) :
    roundUnits (n * one) 1 = n * one := by
  have hexact := roundUnits_mul_self (representable_mul_one h) Nat.one_pos
  rwa [Nat.cast_one, Int.mul_one] at hexact

end Binary64

end MapScript
