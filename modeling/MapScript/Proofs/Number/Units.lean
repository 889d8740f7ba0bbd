import MapScript.Proofs.Number.Rounding

/-!
# Doubles as signed counts of units

A finite double holds a signed count of units, zero with either sign.  Every operation
on doubles holds the exact result brought into the format, as long as that stays far
below the limit, and so does an operation on numbers with a double in it.
-/

namespace MapScript

namespace Binary64

/-- The number is finite and is so many units. -/
def Holds (x : Binary64) (units : Int) : Prop :=
  ∃ negative magnitude, x = .finite negative magnitude ∧ signed negative magnitude = units

/-- A count of units up to which nothing overflows. -/
def reach : Nat := 2 ^ 52 * one

theorem representable_reach : Representable reach := representable_whole (by decide)

theorem mul_one_le_reach {n : Nat} (h : n ≤ 2 ^ 52) : n * one ≤ reach := Nat.mul_le_mul_right one h

theorem reach_lt_limit : reach < limit := by decide +kernel

attribute [local irreducible] one limit reach

variable {x y : Binary64} {m n : Int}

/-! ### Signs -/

theorem natAbs_signed (negative : Bool) (u : Nat) : (signed negative u).natAbs = u := by
  cases negative <;> simp [signed]

theorem signed_natAbs (n : Int) : signed (n < 0) n.natAbs = n := by
  by_cases h : n < 0
  · simp only [signed, h, decide_true, if_true]
    omega
  · simp only [signed, h, decide_false, Bool.false_eq_true, if_false]
    omega

theorem signed_zero (negative : Bool) : signed negative 0 = 0 := by
  cases negative <;> rfl

theorem signed_mul_signed (s t : Bool) (a b : Nat) :
    signed s a * signed t b = signed (s != t) (a * b) := by
  cases s <;> cases t <;> simp [signed]

theorem signed_natAbs_mul_one (n : Int) : signed (n < 0) (n.natAbs * one) = n * one := by
  have hproduct := signed_mul_signed (n < 0) false n.natAbs one
  rw [Bool.bne_false, signed_natAbs] at hproduct
  exact hproduct.symm

theorem signed_roundRatio (negative : Bool) (num den : Nat) :
    signed negative (roundRatio num den) = roundUnits (signed negative num) den := by
  cases negative
  · exact (roundUnits_natCast num den).symm
  · show -(roundRatio num den : Int) = roundUnits (-(num : Int)) den
    rw [roundUnits_neg, roundUnits_natCast]

/-! ### Operations -/

theorem Holds.zero (negative : Bool) : (finite negative 0).Holds 0 :=
  ⟨negative, 0, rfl, signed_zero negative⟩

/-- What is brought into the format below the limit is held. -/
theorem holds_ofUnits (negative : Bool) {num den : Nat} (hden : 0 < den)
    (hreach : num ≤ reach * den) :
    (ofUnits negative num den).Holds (roundUnits (signed negative num) den) := by
  have hlimit : roundRatio num den < limit :=
    (roundRatio_le representable_reach hden hreach).trans_lt reach_lt_limit
  refine ⟨negative, roundRatio num den, ?_, signed_roundRatio negative num den⟩
  unfold ofUnits
  dsimp only
  rw [if_pos hlimit]

theorem Holds.add (hx : x.Holds m) (hy : y.Holds n) (hreach : (m + n).natAbs ≤ reach) :
    (x.add y).Holds (roundUnits (m + n) 1) := by
  obtain ⟨s, a, rfl, rfl⟩ := hx
  obtain ⟨t, b, rfl, rfl⟩ := hy
  rw [Binary64.add]
  split_ifs with hzero
  · rw [hzero]
    exact Holds.zero _
  · rw [← Nat.mul_one reach] at hreach
    have hheld := holds_ofUnits (signed s a + signed t b < 0) Nat.one_pos hreach
    rwa [signed_natAbs] at hheld

theorem Holds.neg (hx : x.Holds m) : x.neg.Holds (-m) := by
  obtain ⟨s, a, rfl, rfl⟩ := hx
  refine ⟨!s, a, rfl, ?_⟩
  cases s <;> simp [signed]

theorem Holds.sub (hx : x.Holds m) (hy : y.Holds n) (hreach : (m - n).natAbs ≤ reach) :
    (x.sub y).Holds (roundUnits (m - n) 1) := by
  have hsum : x.sub y = x.add y.neg := by
    obtain ⟨s, a, rfl, -⟩ := hx
    obtain ⟨t, b, rfl, -⟩ := hy
    rfl
  rw [hsum, Int.sub_eq_add_neg]
  exact hx.add hy.neg hreach

theorem Holds.mul (hx : x.Holds m) (hy : y.Holds n) (hreach : (m * n).natAbs ≤ reach * one) :
    (x.mul y).Holds (roundUnits (m * n) one) := by
  obtain ⟨s, a, rfl, rfl⟩ := hx
  obtain ⟨t, b, rfl, rfl⟩ := hy
  rw [signed_mul_signed] at hreach ⊢
  rw [natAbs_signed] at hreach
  exact holds_ofUnits _ one_pos hreach

theorem Holds.div {n : Nat} (hx : x.Holds m) (hy : y.Holds n) (hpos : 0 < n)
    (hreach : (m * one).natAbs ≤ reach * n) : (x.div y).Holds (roundUnits (m * one) n) := by
  obtain ⟨s, a, rfl, rfl⟩ := hx
  obtain ⟨t, b, rfl, hb⟩ := hy
  obtain ⟨rfl, rfl⟩ : t = false ∧ b = n := by
    cases t
    · exact ⟨rfl, Int.ofNat.inj hb⟩
    · have : -(b : Int) = n := hb
      omega
  have hproduct : signed s a * one = signed (s != false) (a * one) := by
    cases s <;> simp [signed]
  rw [hproduct] at hreach ⊢
  rw [natAbs_signed] at hreach
  exact holds_ofUnits _ hpos hreach

theorem Holds.le (hx : x.Holds m) (hy : y.Holds n) : x.le y = decide (m ≤ n) := by
  obtain ⟨s, a, rfl, rfl⟩ := hx
  obtain ⟨t, b, rfl, rfl⟩ := hy
  rfl

theorem Holds.lt (hx : x.Holds m) (hy : y.Holds n) : x.lt y = decide (m < n) := by
  rw [Binary64.lt, hx.le hy, hy.le hx, Bool.eq_iff_iff]
  simp only [Bool.and_eq_true, Bool.not_eq_true', decide_eq_true_eq, decide_eq_false_iff_not]
  omega

theorem Holds.abs (hx : x.Holds m) : x.abs.Holds m.natAbs := by
  obtain ⟨s, a, rfl, rfl⟩ := hx
  rw [natAbs_signed]
  exact ⟨false, a, rfl, rfl⟩

theorem Holds.isInfinite (hx : x.Holds m) : x.isInfinite = false := by
  obtain ⟨s, a, rfl, -⟩ := hx
  rfl

/-- An integer of up to 53 binary digits is a double. -/
theorem holds_ofInt {n : Int} (hn : n.natAbs ≤ 2 ^ 52) : (ofInt n).Holds (n * one) := by
  have hreach : n.natAbs * one ≤ reach * 1 := by
    rw [Nat.mul_one]
    exact mul_one_le_reach hn
  have hheld := holds_ofUnits (n < 0) Nat.one_pos hreach
  rwa [signed_natAbs_mul_one, roundUnits_mul_one (hn.trans_lt (by decide))] at hheld

end Binary64

namespace Number

open Binary64

attribute [local irreducible] one limit reach

variable {x : Binary64} {n : Int}

/-! ### Numbers with a double among them -/

theorem toDouble_int {n : Int} (hn : n.natAbs ≤ 2 ^ 52) : (int n).toDouble = .ok (ofInt n) := by
  rw [toDouble, (holds_ofInt hn).isInfinite]
  rfl

theorem int_add_float {a : Int} (ha : a.natAbs ≤ 2 ^ 52) (hx : x.Holds n)
    (hreach : (a * one + n).natAbs ≤ reach) :
    ∃ y, (int a).add (float x) = .ok (float y) ∧ y.Holds (roundUnits (a * one + n) 1) := by
  refine ⟨(ofInt a).add x, ?_, (holds_ofInt ha).add hx hreach⟩
  simp only [Number.add, arith, toDouble_int ha]
  rfl

theorem int_mul_float {a : Int} (ha : a.natAbs ≤ 2 ^ 52) (hx : x.Holds n)
    (hreach : (a * one * n).natAbs ≤ reach * one) :
    ∃ y, (int a).mul (float x) = .ok (float y) ∧ y.Holds (roundUnits (a * one * n) one) := by
  refine ⟨(ofInt a).mul x, ?_, (holds_ofInt ha).mul hx hreach⟩
  simp only [Number.mul, arith, toDouble_int ha]
  rfl

/-- The quotient of two integers is the exact one brought into the format. -/
theorem intQuotient_holds {a b : Int} (hb : b ≠ 0)
    (hreach : a.natAbs * one ≤ reach * b.natAbs) : ∃ y, intQuotient a b = .ok y ∧
      y.Holds (roundUnits (signed ((a < 0) != (b < 0)) (a.natAbs * one)) b.natAbs) := by
  have hheld := holds_ofUnits ((a < 0) != (b < 0)) (Int.natAbs_pos.2 hb) hreach
  refine ⟨ofRatio ((a < 0) != (b < 0)) a.natAbs b.natAbs, ?_, hheld⟩
  rw [intQuotient, if_neg hb]
  dsimp only
  rw [ofRatio, hheld.isInfinite]
  rfl

theorem intQuotient_natCast_holds {a : Int} {n : Nat} (hn : 0 < n)
    (hreach : a.natAbs * one ≤ reach * n) :
    ∃ y, intQuotient a n = .ok y ∧ y.Holds (roundUnits (a * one) n) := by
  have hsigns : ((a < 0) != ((n : Int) < 0)) = decide (a < 0) := by
    rw [decide_eq_false (p := (n : Int) < 0) (by omega), Bool.bne_false]
  have hquotient := intQuotient_holds (a := a) (b := n) (by omega) (by rwa [Int.natAbs_natCast])
  rwa [hsigns, signed_natAbs_mul_one, Int.natAbs_natCast] at hquotient

/-! ### Rounding to integers -/

/-- The whole number of units nearest to a count of units, by way of adding a half in
the format. -/
def wholeNear (units : Nat) : Nat := roundRatio (units + one / 2) 1 / one

theorem wholeNear_mono {u v : Nat} (h : u ≤ v) : wholeNear u ≤ wholeNear v := by
  apply Nat.div_le_div_right
  apply roundRatio_mono Nat.one_pos Nat.one_pos
  omega

/-- A whole number of units is its own nearest. -/
theorem wholeNear_mul_one {n : Nat} (hn : n < 2 ^ 52) : wholeNear (n * one) = n := by
  have hsum : n * one + one / 2 = (2 * n + 1) * (one / 2) := by
    have hone := two_mul_half
    rw [Nat.add_mul, Nat.mul_assoc, Nat.mul_comm 2, Nat.mul_assoc, Nat.mul_comm _ 2, hone]
    omega
  have hrounded : roundRatio ((2 * n + 1) * (one / 2)) 1 = (2 * n + 1) * (one / 2) := by
    have hexact :=
      roundRatio_mul_self (representable_halves (n := 2 * n + 1) (by omega)) Nat.one_pos
    rwa [Nat.mul_one] at hexact
  have hhalf : one / 2 < one := Nat.div_lt_self Binary64.one_pos (by decide)
  rw [wholeNear, hsum, hrounded, ← hsum, Nat.add_comm,
    Nat.add_mul_div_right _ _ Binary64.one_pos, Nat.div_eq_of_lt hhalf, Nat.zero_add]

/-- The integer nearest to a signed count of units. -/
def nearestWhole (units : Int) : Int := units.sign * wholeNear units.natAbs

theorem nearestWhole_signed (negative : Bool) (u : Nat) :
    nearestWhole (signed negative u) = signed negative (wholeNear u) := by
  rw [nearestWhole, natAbs_signed]
  rcases Nat.eq_zero_or_pos u with rfl | hpos
  · have hzero : wholeNear 0 = 0 := by simpa using wholeNear_mul_one (n := 0) (by decide)
    rw [hzero, signed_zero]
    rfl
  · cases negative <;> simp [signed, Int.sign_eq_one_of_pos, hpos]

theorem nearestWhole_mono {m n : Int} (h : m ≤ n) : nearestWhole m ≤ nearestWhole n := by
  unfold nearestWhole
  rcases lt_trichotomy m 0 with hm | rfl | hm
  · rw [Int.sign_eq_neg_one_of_neg hm]
    rcases lt_trichotomy n 0 with hn | rfl | hn
    · have hmagnitude : wholeNear n.natAbs ≤ wholeNear m.natAbs := wholeNear_mono (by omega)
      rw [Int.sign_eq_neg_one_of_neg hn]
      omega
    · simp
    · rw [Int.sign_eq_one_of_pos hn]
      omega
  · rcases h.lt_or_eq with hn | rfl
    · rw [Int.sign_eq_one_of_pos hn]
      simp
    · rfl
  · have hmagnitude : wholeNear m.natAbs ≤ wholeNear n.natAbs := wholeNear_mono (by omega)
    rw [Int.sign_eq_one_of_pos hm, Int.sign_eq_one_of_pos (hm.trans_le h)]
    omega

/-- A whole number of units is its own nearest integer. -/
theorem nearestWhole_mul_one {n : Int} (hn : n.natAbs < 2 ^ 52) : nearestWhole (n * one) = n := by
  have hpos : (0 : Int) < one := by exact_mod_cast Binary64.one_pos
  rw [nearestWhole, Int.natAbs_mul, Int.natAbs_natCast, wholeNear_mul_one hn, Int.sign_mul,
    Int.sign_eq_one_of_pos hpos, Int.mul_one, Int.sign_mul_natAbs]

/-- A double is rounded to an integer by its count of units. -/
theorem roundAway_holds (hx : x.Holds n) (hn : n.natAbs ≤ 2 ^ 51 * one) :
    roundAway x = .ok (nearestWhole n) := by
  have hhalf : half.Holds ((one / 2 : Nat) : Int) := ⟨false, one / 2, rfl, rfl⟩
  have hsum := hx.abs.add hhalf (by
    rw [← Int.natCast_add, Int.natAbs_natCast, reach]
    omega)
  rw [← Int.natCast_add, roundUnits_natCast] at hsum
  obtain ⟨s, u, hadd, hu⟩ := hsum
  have hwhole : u / one = wholeNear n.natAbs := by
    rw [wholeNear, ← Int.natAbs_natCast (roundRatio _ _), ← hu, natAbs_signed]
  obtain ⟨t, a, rfl, rfl⟩ := hx
  rw [roundAway, hadd]
  dsimp only
  rw [hwhole, nearestWhole_signed, natAbs_signed]
  rfl

end Number

end MapScript
