import MapScript.Proofs.Number.Units

/-!
# Places on the grid

A coordinate of a layout is an integer moved by a quotient, rounded when the quotient is
brought into the format, when it is added and when the sum is brought to the nearest
integer.  All three roundings are monotone and leave integers alone, so the coordinate is
on the same side of every integer as the exact place.
-/

namespace MapScript

/-- The point is one of the grid of the map. -/
structure Point.InGrid (p : Point) : Prop where
  left : 0 ≤ p.x
  right : p.x ≤ Layout.maxX
  bottom : 0 ≤ p.y
  top : p.y ≤ Layout.maxY

namespace Point.InGrid

variable {p q : Point}

theorem natAbs_x (h : p.InGrid) : p.x.natAbs ≤ 100 := by
  have hright := h.right
  rw [Layout.maxX] at hright
  have hleft := h.left
  omega

theorem natAbs_y (h : p.InGrid) : p.y.natAbs ≤ 100 := by
  have htop := h.top
  rw [Layout.maxY] at htop
  have hbottom := h.bottom
  omega

theorem natAbs_sub_x (hp : p.InGrid) (hq : q.InGrid) : (q.x - p.x).natAbs ≤ 200 := by
  have hleft := hp.natAbs_x
  have hright := hq.natAbs_x
  omega

theorem natAbs_sub_y (hp : p.InGrid) (hq : q.InGrid) : (q.y - p.y).natAbs ≤ 200 := by
  have hbottom := hp.natAbs_y
  have htop := hq.natAbs_y
  omega

end Point.InGrid

namespace Layout

open Binary64 Number

attribute [local irreducible] one limit reach

/-- An integer moved by a ratio of units and brought to the nearest integer, all in the
format. -/
def moved (a num : Int) (den : Nat) : Int :=
  nearestWhole (roundUnits (a * one + roundUnits num den) 1)

variable {a m num num' : Int} {den : Nat}

theorem moved_mono (hden : 0 < den) (h : num ≤ num') : moved a num den ≤ moved a num' den := by
  apply nearestWhole_mono
  apply roundUnits_mono Nat.one_pos Nat.one_pos
  have hquotient : roundUnits num den ≤ roundUnits num' den :=
    roundUnits_mono hden hden (mul_le_mul_of_nonneg_right h (Int.natCast_nonneg den))
  rw [Nat.cast_one]
  linarith

/-- By an integer a place is moved exactly. -/
theorem moved_whole (hden : 0 < den) (hm : m.natAbs ≤ 2 ^ 50) (ha : a.natAbs ≤ 2 ^ 50) :
    moved a (m * one * den) den = a + m := by
  have hquotient : roundUnits (m * one * den) den = m * one :=
    roundUnits_mul_self (representable_mul_one (by omega)) hden
  rw [moved, hquotient, ← Int.add_mul, roundUnits_mul_one (by omega),
    nearestWhole_mul_one (by omega)]

theorem moved_zero (hden : 0 < den) (ha : a.natAbs ≤ 2 ^ 50) : moved a 0 den = a := by
  simpa using moved_whole (m := 0) hden (by decide) ha

theorem moved_le (hden : 0 < den) (hm : m.natAbs ≤ 2 ^ 50) (ha : a.natAbs ≤ 2 ^ 50)
    (h : num ≤ m * one * den) : moved a num den ≤ a + m :=
  (moved_mono hden h).trans_eq (moved_whole hden hm ha)

theorem le_moved (hden : 0 < den) (hm : m.natAbs ≤ 2 ^ 50) (ha : a.natAbs ≤ 2 ^ 50)
    (h : m * one * den ≤ num) : a + m ≤ moved a num den :=
  (moved_whole hden hm ha).symm.trans_le (moved_mono hden h)

theorem ok_bind {α β : Type} (a : α) (f : α → Except Fault β) : (Except.ok a >>= f) = f a := rfl

theorem round_eq {x : Number} {y : Binary64} (h : x.toDouble = .ok y) : x.round = roundAway y := by
  rw [Number.round, h, ok_bind]

/-- The sum of an integer and a quotient, brought to the nearest integer. -/
theorem add_round {x : Binary64} (hx : x.Holds (roundUnits num den)) (hden : 0 < den)
    (ha : a.natAbs ≤ 2 ^ 50) (hnum : num.natAbs ≤ 2 ^ 50 * one * den) :
    ∃ y, (int a).add (float x) = .ok y ∧ y.round = .ok (moved a num den) := by
  have hquotient : (roundUnits num den).natAbs ≤ 2 ^ 50 * one :=
    natAbs_roundUnits_le (representable_whole (by decide)) hden hnum
  have hwhole : (a * one).natAbs ≤ 2 ^ 50 * one := by
    rw [Int.natAbs_mul, Int.natAbs_natCast]
    exact Nat.mul_le_mul_right one ha
  have hsum : (a * one + roundUnits num den).natAbs ≤ 2 ^ 51 * one := by omega
  have hreach : 2 ^ 51 * one ≤ reach := mul_one_le_reach (by decide)
  obtain ⟨y, hadd, hy⟩ := int_add_float (ha.trans (by decide)) hx (hsum.trans hreach)
  refine ⟨float y, hadd, ?_⟩
  have hrounded : (roundUnits (a * one + roundUnits num den) 1).natAbs ≤ 2 ^ 51 * one :=
    natAbs_roundUnits_le (representable_whole (by decide)) Nat.one_pos (by rwa [Nat.mul_one])
  rw [round_eq rfl, moved, roundAway_holds hy hrounded]

theorem int_round {n : Int} (hn : n.natAbs ≤ 2 ^ 50) : (int n).round = .ok n := by
  have hunits : (n * one).natAbs ≤ 2 ^ 51 * one := by
    rw [Int.natAbs_mul, Int.natAbs_natCast]
    exact Nat.mul_le_mul_right one (hn.trans (by decide))
  have hsmall : n.natAbs ≤ 2 ^ 52 := hn.trans (by decide)
  rw [round_eq (toDouble_int hsmall), roundAway_holds (holds_ofInt hsmall) hunits,
    nearestWhole_mul_one (by omega)]

/-! ### The grid -/

theorem clamp_mono {largest m n : Int} (h : m ≤ n) : clamp largest m ≤ clamp largest n := by
  unfold clamp
  omega

theorem clamp_of_mem {largest n : Int} (hn : 0 ≤ n) (hlargest : n ≤ largest) :
    clamp largest n = n := by
  unfold clamp
  omega

theorem toGrid_eq {x y : Number} {gx gy : Int} (hx : x.round = .ok gx) (hy : y.round = .ok gy) :
    toGrid x y = .ok ⟨clamp maxX gx, clamp maxY gy⟩ := by
  rw [toGrid, hx, ok_bind, hy, ok_bind]
  rfl

theorem toGrid_int {p : Point} (hp : p.InGrid) : toGrid (.int p.x) (.int p.y) = .ok p := by
  rw [toGrid_eq (int_round (hp.natAbs_x.trans (by decide)))
    (int_round (hp.natAbs_y.trans (by decide))), clamp_of_mem hp.left hp.right,
    clamp_of_mem hp.bottom hp.top]

/-- The points of a layout, one for each index. -/
theorem mapM_indices {count : Int} {f : Number → Except Fault Point} {g : Nat → Point}
    (h : ∀ i < count.toNat, f (.int i) = .ok (g i)) :
    (indices count).mapM f = .ok ((List.range count.toNat).map g) := by
  have hlist (is : List Nat) (his : ∀ i ∈ is, f (.int i) = .ok (g i)) :
      (is.map fun (n : Nat) => Number.int n).mapM f = .ok (is.map g) := by
    induction is with
    | nil => rfl
    | cons i is ih =>
        rw [List.forall_mem_cons] at his
        rw [List.map_cons, List.mapM_cons, his.1, ih his.2]
        rfl
  exact hlist _ fun i hi => h i (List.mem_range.1 hi)

/-- What is known of the point of each index is known of the points of a layout. -/
theorem exists_mapM_indices {count : Int} {f : Number → Except Fault Point} {P : Nat → Point → Prop}
    (h : ∀ i < count.toNat, ∃ p, f (.int i) = .ok p ∧ P i p) :
    ∃ g : Nat → Point, (indices count).mapM f = .ok ((List.range count.toNat).map g) ∧
      ∀ i < count.toNat, P i (g i) := by
  have hpoint (i : Nat) : ∃ p, i < count.toNat → f (.int i) = .ok p ∧ P i p := by
    by_cases hi : i < count.toNat
    · exact (h i hi).imp fun p hp _ => hp
    · exact ⟨⟨0, 0⟩, fun hlt => absurd hlt hi⟩
  choose g hg using hpoint
  exact ⟨g, mapM_indices fun i hi => (hg i hi).1, fun i hi => (hg i hi).2⟩

end Layout

end MapScript
