import MapScript.Proofs.Layout.Grid

/-!
# Lines

The points of a line between two points of the grid: one for each index, from the one end
to the other, and each coordinate runs one way only.
-/

namespace MapScript.Layout

open Binary64 Number

attribute [local irreducible] one limit reach

variable {p q : Point} {a b : Int} {n i : Nat}

/-- A coordinate of a line is moved by a part of the difference between its ends. -/
theorem between_round (hn : 0 < n) (hi : i ≤ n) (ha : a.natAbs ≤ 100) (hb : b.natAbs ≤ 100) :
    ∃ x, between (.int a) (.int b) (.int i) (.int n) = .ok x ∧
      x.round = .ok (moved a ((b - a) * i * one) n) := by
  have hway : ((b - a) * i).natAbs ≤ 200 * n := by
    rw [Int.natAbs_mul, Int.natAbs_natCast]
    exact Nat.mul_le_mul (by omega) hi
  have hunits : ((b - a) * i).natAbs * one ≤ 2 ^ 50 * one * n := by
    calc ((b - a) * i).natAbs * one ≤ 200 * n * one := Nat.mul_le_mul_right one hway
      _ ≤ 2 ^ 50 * n * one := Nat.mul_le_mul_right one (Nat.mul_le_mul_right n (by decide))
      _ = 2 ^ 50 * one * n := by ring
  have hreach : 2 ^ 50 * one ≤ reach := mul_one_le_reach (by decide)
  obtain ⟨x, hquotient, hx⟩ :=
    intQuotient_natCast_holds hn (hunits.trans (Nat.mul_le_mul_right n hreach))
  have hnum : ((b - a) * i * one).natAbs ≤ 2 ^ 50 * one * n := by
    rwa [Int.natAbs_mul, Int.natAbs_natCast]
  obtain ⟨y, hsum, hy⟩ := add_round hx hn (ha.trans (by decide)) hnum
  refine ⟨y, ?_, hy⟩
  have hdifference : (int b).sub (int a) = .ok (int (b - a)) := rfl
  have hproduct : (int (b - a)).mul (int i) = .ok (int ((b - a) * i)) := rfl
  have hpart : (int ((b - a) * i)).div (int n) = .ok x := hquotient
  rw [between, hdifference, ok_bind, hproduct, ok_bind, hpart, ok_bind, hsum]

/-- The point of a line at an index, the last one being `n`. -/
def linePoint (p q : Point) (n i : Nat) : Point where
  x := clamp maxX (moved p.x ((q.x - p.x) * i * one) n)
  y := clamp maxY (moved p.y ((q.y - p.y) * i * one) n)

theorem line_eq (hp : p.InGrid) (hq : q.InGrid) (hn : 0 < n) :
    line (n + 1) (.int p.x) (.int p.y) (.int q.x) (.int q.y)
      = .ok ((List.range (n + 1)).map (linePoint p q n)) := by
  have hcount : (n : Int) + 1 ≠ 1 := by omega
  rw [line, if_neg hcount, Int.add_sub_cancel]
  refine (mapM_indices (g := linePoint p q n) fun i hi => ?_).trans rfl
  have hle : i ≤ n := by omega
  obtain ⟨x, hx, hgx⟩ := between_round hn hle hp.natAbs_x hq.natAbs_x
  obtain ⟨y, hy, hgy⟩ := between_round hn hle hp.natAbs_y hq.natAbs_y
  rw [hx, ok_bind, hy, ok_bind, toGrid_eq hgx hgy]
  rfl

theorem linePoint_zero (hp : p.InGrid) (q : Point) (hn : 0 < n) : linePoint p q n 0 = p := by
  have hstart {a : Int} (ha : a.natAbs ≤ 100) (d : Int) :
      moved a (d * (0 : Nat) * one) n = a := by
    rw [Nat.cast_zero, Int.mul_zero, Int.zero_mul, moved_zero hn (ha.trans (by decide))]
  rw [linePoint, hstart hp.natAbs_x, hstart hp.natAbs_y, clamp_of_mem hp.left hp.right,
    clamp_of_mem hp.bottom hp.top]

theorem linePoint_last (hp : p.InGrid) (hq : q.InGrid) (hn : 0 < n) : linePoint p q n n = q := by
  have hend {a b : Int} (ha : a.natAbs ≤ 100) (hb : b.natAbs ≤ 100) :
      moved a ((b - a) * n * one) n = b := by
    have hmoved := moved_whole (m := b - a) hn (by omega) (ha.trans (by decide))
    rwa [mul_right_comm, add_sub_cancel] at hmoved
  rw [linePoint, hend hp.natAbs_x hq.natAbs_x, hend hp.natAbs_y hq.natAbs_y,
    clamp_of_mem hq.left hq.right, clamp_of_mem hq.bottom hq.top]

/-- Coordinates that run from one to another without turning back. -/
def Runs (first last : Int) (coordinates : List Int) : Prop :=
  if first ≤ last then coordinates.Pairwise (· ≤ ·) else coordinates.Pairwise (· ≥ ·)

theorem runs_moved (hn : 0 < n) (a b largest : Int) (count : Nat) :
    Runs a b ((List.range count).map fun (i : Nat) =>
      clamp largest (moved a ((b - a) * i * one) n)) := by
  have hpos : (0 : Int) ≤ one := Int.natCast_nonneg one
  have horder : (List.range count).Pairwise (· ≤ ·) := List.pairwise_le_range
  unfold Runs
  split_ifs with hab
  · rw [List.pairwise_map]
    refine horder.imp fun {i j} hij => clamp_mono (moved_mono hn ?_)
    apply mul_le_mul_of_nonneg_right _ hpos
    exact mul_le_mul_of_nonneg_left (by exact_mod_cast hij) (by omega)
  · rw [List.pairwise_map]
    refine horder.imp fun {i j} hij => clamp_mono (moved_mono hn ?_)
    apply mul_le_mul_of_nonneg_right _ hpos
    exact mul_le_mul_of_nonpos_left (by exact_mod_cast hij) (by omega)

/-- A line goes from the one end to the other: so many points as were asked for, the ends
among them, and no coordinate turns back. -/
theorem line_runs {count : Int} (hcount : 2 ≤ count) (hp : p.InGrid) (hq : q.InGrid) :
    ∃ points, line count (.int p.x) (.int p.y) (.int q.x) (.int q.y) = .ok points ∧
      (points.length : Int) = count ∧ points.head? = some p ∧ points.getLast? = some q ∧
      Runs p.x q.x (points.map Point.x) ∧ Runs p.y q.y (points.map Point.y) := by
  obtain ⟨n, rfl⟩ : ∃ n : Nat, count = n + 1 := ⟨(count - 1).toNat, by omega⟩
  have hn : 0 < n := by omega
  refine ⟨_, line_eq hp hq hn, by simp, ?_, ?_, ?_, ?_⟩
  · rw [List.range_succ_eq_map, List.map_cons, List.head?_cons, linePoint_zero hp q hn]
  · rw [List.range_succ, List.map_append, List.map_singleton, List.getLast?_concat,
      linePoint_last hp hq hn]
  · rw [List.map_map]
    exact runs_moved hn p.x q.x maxX (n + 1)
  · rw [List.map_map]
    exact runs_moved hn p.y q.y maxY (n + 1)

/-- Three points from one corner of the map towards another. -/
theorem line_runs_three :
    ∃ points, line 3 (.int 100) (.int 0) (.int 0) (.int 99) = .ok points ∧ points.length = 3 ∧
      points.head? = some ⟨100, 0⟩ ∧ points.getLast? = some ⟨0, 99⟩ ∧
      (points.map Point.x).Pairwise (· ≥ ·) ∧ (points.map Point.y).Pairwise (· ≤ ·) := by
  have hp : (⟨100, 0⟩ : Point).InGrid := by constructor <;> decide
  have hq : (⟨0, 99⟩ : Point).InGrid := by constructor <;> decide
  obtain ⟨points, hline, hlength, hfirst, hlast, hx, hy⟩ :=
    line_runs (by decide : (2 : Int) ≤ 3) hp hq
  exact ⟨points, hline, by exact_mod_cast hlength, hfirst, hlast, hx, hy⟩

end MapScript.Layout
