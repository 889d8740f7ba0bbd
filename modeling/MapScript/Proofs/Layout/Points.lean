import MapScript.Pattern
import MapScript.Proofs.Layout.Grid
import MapScript.Proofs.Outcome

/-!
# The points of a pattern

A pattern has as many points as are counted.  Whatever arithmetic leads to a point, the
last step brings it on the grid.
-/

namespace MapScript

/-- As many points as are counted, all of them on the grid. -/
structure Layout.Fills (count : Int) (points : List Point) : Prop where
  length : points.length = count.toNat
  inGrid : ∀ p ∈ points, p.InGrid

namespace Layout

theorem clamp_nonneg {largest : Int} (h : 0 ≤ largest) (n : Int) : 0 ≤ clamp largest n :=
  le_min (le_max_right n 0) h

theorem clamp_le (largest n : Int) : clamp largest n ≤ largest := min_le_right _ _

theorem toGrid_inGrid {x y : Number} {p : Point} (h : toGrid x y = .ok p) : p.InGrid := by
  obtain ⟨gx, -, h⟩ := exists_of_bind h
  obtain ⟨gy, -, h⟩ := exists_of_bind h
  cases h
  exact ⟨clamp_nonneg (by decide) gx, clamp_le _ _, clamp_nonneg (by decide) gy, clamp_le _ _⟩

/-- A point for each index. -/
theorem Fills.of_mapM {count : Int} {f : Number → Except Fault Point} {points : List Point}
    (h : (indices count).mapM f = .ok points) (hf : ∀ i p, f i = .ok p → p.InGrid) :
    Fills count points := by
  have heach := forall₂_of_mapM h
  constructor
  · rw [← heach.length_eq, indices, List.length_map, List.length_range]
  · intro p hp
    obtain ⟨k, hk, rfl⟩ := List.getElem_of_mem hp
    exact hf _ _ (heach.get (by rwa [heach.length_eq]) hk)

variable {count : Int} {points : List Point}

theorem circle_fills {radius cx cy startDegrees : Number}
    (h : circle count radius cx cy startDegrees = .ok points) : Fills count points := by
  obtain ⟨step, -, h⟩ := exists_of_bind h
  obtain ⟨start, -, h⟩ := exists_of_bind h
  refine .of_mapM h fun i p hp => ?_
  obtain ⟨turned, -, hp⟩ := exists_of_bind hp
  obtain ⟨angle, -, hp⟩ := exists_of_bind hp
  obtain ⟨across, -, hp⟩ := exists_of_bind hp
  obtain ⟨dx, -, hp⟩ := exists_of_bind hp
  obtain ⟨x, -, hp⟩ := exists_of_bind hp
  obtain ⟨up, -, hp⟩ := exists_of_bind hp
  obtain ⟨dy, -, hp⟩ := exists_of_bind hp
  obtain ⟨y, -, hp⟩ := exists_of_bind hp
  exact toGrid_inGrid hp

theorem line_fills {x1 y1 x2 y2 : Number} (h : line count x1 y1 x2 y2 = .ok points) :
    Fills count points := by
  rw [line] at h
  split at h
  · next hone =>
    obtain ⟨p, hp, h⟩ := exists_of_bind h
    cases h
    rw [hone]
    exact ⟨rfl, by simpa using toGrid_inGrid hp⟩
  · refine .of_mapM h fun i p hp => ?_
    obtain ⟨x, -, hp⟩ := exists_of_bind hp
    obtain ⟨y, -, hp⟩ := exists_of_bind hp
    exact toGrid_inGrid hp

/-- Wherever the walk along a path ends, it ends on the grid. -/
theorem walk_inGrid {distance : Binary64} {a : Corner} {path : List Corner} {p : Point}
    (h : walk distance a path = .ok p) : p.InGrid := by
  induction path generalizing distance a with
  | nil => exact toGrid_inGrid h
  | cons b path ih =>
      obtain ⟨across, -, h⟩ := exists_of_bind h
      obtain ⟨dx, -, h⟩ := exists_of_bind h
      obtain ⟨up, -, h⟩ := exists_of_bind h
      obtain ⟨dy, -, h⟩ := exists_of_bind h
      dsimp only at h
      split at h
      · obtain ⟨x, -, h⟩ := exists_of_bind h
        obtain ⟨y, -, h⟩ := exists_of_bind h
        exact toGrid_inGrid h
      · exact ih h

theorem square_fills {halfSide cx cy : Number} (h : square count halfSide cx cy = .ok points) :
    Fills count points := by
  obtain ⟨⟨start, path⟩, -, h⟩ := exists_of_bind h
  obtain ⟨perimeter, -, h⟩ := exists_of_bind h
  refine .of_mapM h fun i p hp => ?_
  obtain ⟨way, -, hp⟩ := exists_of_bind hp
  obtain ⟨distance, -, hp⟩ := exists_of_bind hp
  exact walk_inGrid hp

end Layout

theorem Pattern.points_fill {pattern : Pattern} {count : Int} {args : List Number}
    {points : List Point} (h : pattern.points count args = .ok points) :
    Layout.Fills count points := by
  cases pattern with
  | circle => exact Layout.circle_fills h
  | line => exact Layout.line_fills h
  | square => exact Layout.square_fills h

end MapScript
