import MapScript.Proofs.Layout.Grid

/-!
# Squares

The points of a square are found by walking along its edges from the middle of the right
one, each at its share of the perimeter.  Of a square with a side of zero or more they are
on its edges.  The perimeter of a negative side is negative too, though the lengths of the
edges are not: then every walk follows the first edge backwards, and all points are in the
column of that edge, beyond its beginning.
-/

namespace MapScript.Layout

open Binary64 Number

attribute [local irreducible] one limit reach

/-- A point as a corner of a path. -/
def corner (p : Point) : Corner := ⟨.int p.x, .int p.y⟩

/-- The length of an edge parallel to an axis. -/
def edgeLength (u v : Point) : Nat := (v.x - u.x).natAbs + (v.y - u.y).natAbs

variable {u v : Point} {distance : Binary64} {d : Int}

theorem edgeLength_le (hu : u.InGrid) (hv : v.InGrid) : edgeLength u v ≤ 400 :=
  Nat.add_le_add (hu.natAbs_sub_x hv) (hu.natAbs_sub_y hv)

theorem legLength_holds (hu : u.InGrid) (hv : v.InGrid) :
    (legLength (ofInt (v.x - u.x)) (ofInt (v.y - u.y))).Holds (edgeLength u v * one : Nat) := by
  have hx := holds_ofInt ((hu.natAbs_sub_x hv).trans (by decide))
  have hy := holds_ofInt ((hu.natAbs_sub_y hv).trans (by decide))
  have hlength := edgeLength_le hu hv
  have hsum : ((v.x - u.x) * one).natAbs + ((v.y - u.y) * one).natAbs = edgeLength u v * one := by
    rw [Int.natAbs_mul, Int.natAbs_mul, Int.natAbs_natCast, edgeLength, Nat.add_mul]
  have hheld := hx.abs.add hy.abs (by
    rw [← Int.natCast_add, Int.natAbs_natCast, hsum]
    exact mul_one_le_reach (by omega))
  rw [← Int.natCast_add, hsum, Int.natCast_mul, roundUnits_mul_one (by omega)] at hheld
  rw [legLength, hx.isInfinite, hy.isInfinite, Bool.or_false, if_neg Bool.false_ne_true,
    Int.natCast_mul]
  exact hheld

/-- The point at a part of an edge, the part as a count of units. -/
def edgePoint (u v : Point) (part : Int) : Point where
  x := clamp maxX (moved u.x ((v.x - u.x) * one * part) one)
  y := clamp maxY (moved u.y ((v.y - u.y) * one * part) one)

theorem along_round {a b : Int} {t : Binary64} {part : Int} (ha : a.natAbs ≤ 100)
    (hb : b.natAbs ≤ 100) (ht : t.Holds part) (hpart : part.natAbs ≤ 800 * one) :
    ∃ x, along (.int a) (.int b) (.float t) = .ok x ∧
      x.round = .ok (moved a ((b - a) * one * part) one) := by
  have hnum : ((b - a) * one * part).natAbs ≤ 2 ^ 50 * one * one := by
    have hfactor : (b - a).natAbs ≤ 200 := by omega
    calc ((b - a) * one * part).natAbs = (b - a).natAbs * one * part.natAbs := by
          rw [Int.natAbs_mul, Int.natAbs_mul, Int.natAbs_natCast]
      _ ≤ 200 * one * (800 * one) := Nat.mul_le_mul (Nat.mul_le_mul_right one hfactor) hpart
      _ = 160000 * (one * one) := by ring
      _ ≤ 2 ^ 50 * (one * one) := Nat.mul_le_mul_right _ (by decide)
      _ = 2 ^ 50 * one * one := (Nat.mul_assoc _ _ _).symm
  have hreach : 2 ^ 50 * one ≤ reach := mul_one_le_reach (by decide)
  obtain ⟨x, hproduct, hx⟩ := int_mul_float (a := b - a) (by omega) ht
    (hnum.trans (Nat.mul_le_mul_right one hreach))
  obtain ⟨y, hsum, hy⟩ := add_round hx Binary64.one_pos (ha.trans (by decide)) hnum
  have hdifference : (int b).sub (int a) = .ok (int (b - a)) := rfl
  refine ⟨y, ?_, hy⟩
  rw [along, hdifference, ok_bind, hproduct, ok_bind, hsum]

/-- The part of an edge that a distance is. -/
def edgePart (d : Int) (u v : Point) : Int := roundUnits (d * one) (edgeLength u v * one)

theorem natAbs_edgePart_le (hsmall : d.natAbs ≤ 800 * one) (hpos : 0 < edgeLength u v) :
    (edgePart d u v).natAbs ≤ 800 * one := by
  apply natAbs_roundUnits_le (representable_whole (by decide)) (Nat.mul_pos hpos Binary64.one_pos)
  rw [Int.natAbs_mul, Int.natAbs_natCast]
  exact Nat.mul_le_mul hsmall (Nat.le_mul_of_pos_left one hpos)

/-- The first step of a walk, by the length of the first edge. -/
theorem walk_corner (hu : u.InGrid) (hv : v.InGrid) (path : List Corner) :
    ∃ length, length.Holds (edgeLength u v * one : Nat) ∧
      walk distance (corner u) (corner v :: path) =
        if distance.le length && (Binary64.finite false 0).lt length then do
          let x ← along (.int u.x) (.int v.x) (.float (distance.div length))
          let y ← along (.int u.y) (.int v.y) (.float (distance.div length))
          toGrid x y
        else walk (distance.sub length) (corner v) path := by
  have hdx := toDouble_int ((hu.natAbs_sub_x hv).trans (by decide))
  have hdy := toDouble_int ((hu.natAbs_sub_y hv).trans (by decide))
  have hx : (corner v).x.sub (corner u).x = .ok (.int (v.x - u.x)) := rfl
  have hy : (corner v).y.sub (corner u).y = .ok (.int (v.y - u.y)) := rfl
  refine ⟨_, legLength_holds hu hv, ?_⟩
  rw [walk, hx, ok_bind, hdx, ok_bind, hy, ok_bind, hdy, ok_bind]
  rfl

/-- A walk of at most the length of an edge ends on the edge. -/
theorem walk_edge (hu : u.InGrid) (hv : v.InGrid) (hd : distance.Holds d)
    (hsmall : d.natAbs ≤ 800 * one) (hle : d ≤ (edgeLength u v * one : Nat))
    (hpos : 0 < edgeLength u v) (path : List Corner) :
    walk distance (corner u) (corner v :: path) = .ok (edgePoint u v (edgePart d u v)) := by
  obtain ⟨length, hlength, hwalk⟩ := @walk_corner u v distance hu hv path
  have hunits : 0 < edgeLength u v * one := Nat.mul_pos hpos Binary64.one_pos
  have hnear : distance.le length = true := by
    rw [hd.le hlength, decide_eq_true hle]
  have hlong : (Binary64.finite false 0).lt length = true := by
    rw [(Holds.zero false).lt hlength, decide_eq_true]
    exact_mod_cast hunits
  have hreach : (d * one).natAbs ≤ reach * (edgeLength u v * one) := by
    rw [Int.natAbs_mul, Int.natAbs_natCast]
    exact Nat.mul_le_mul (hsmall.trans (mul_one_le_reach (by decide)))
      (Nat.le_mul_of_pos_left one hpos)
  have hpart := hd.div hlength hunits hreach
  have hbound := natAbs_edgePart_le hsmall hpos
  obtain ⟨x, hx, hgx⟩ := along_round hu.natAbs_x hv.natAbs_x hpart hbound
  obtain ⟨y, hy, hgy⟩ := along_round hu.natAbs_y hv.natAbs_y hpart hbound
  rw [hwalk, hnear, hlong, Bool.and_self, if_pos rfl, hx, ok_bind, hy, ok_bind, toGrid_eq hgx hgy]
  rfl

/-- A longer walk goes on behind the edge. -/
theorem walk_past (hu : u.InGrid) (hv : v.InGrid) (hd : distance.Holds d)
    (hsmall : d.natAbs ≤ 800 * one)
    (hpast : (edgeLength u v * one : Nat) < d ∨ edgeLength u v = 0) (path : List Corner) :
    ∃ rest, rest.Holds (roundUnits (d - (edgeLength u v * one : Nat)) 1) ∧
      walk distance (corner u) (corner v :: path) = walk rest (corner v) path := by
  obtain ⟨length, hlength, hwalk⟩ := @walk_corner u v distance hu hv path
  have hcondition : (distance.le length && (Binary64.finite false 0).lt length) = false := by
    rw [hd.le hlength, (Holds.zero false).lt hlength, Bool.and_eq_false_iff]
    rcases hpast with hlt | hzero
    · exact Or.inl (decide_eq_false hlt.not_ge)
    · right
      rw [hzero, Nat.zero_mul]
      rfl
  have hreach : (d - (edgeLength u v * one : Nat)).natAbs ≤ reach := by
    have hedge := Nat.mul_le_mul_right one (edgeLength_le hu hv)
    rw [reach]
    omega
  refine ⟨distance.sub length, hd.sub hlength hreach, ?_⟩
  rw [hwalk, hcondition, if_neg Bool.false_ne_true]

/-! ### Walks of a side of zero or more -/

/-- A point of an edge parallel to an axis, its ends included. -/
structure Between (u v p : Point) : Prop where
  left : min u.x v.x ≤ p.x
  right : p.x ≤ max u.x v.x
  bottom : min u.y v.y ≤ p.y
  top : p.y ≤ max u.y v.y

/-- A coordinate moved by at most the whole of an edge is one of the edge. -/
theorem moved_between {a b part : Int} (ha : a.natAbs ≤ 100) (hb : b.natAbs ≤ 100)
    (hpart : 0 ≤ part) (hone : part ≤ one) :
    min a b ≤ moved a ((b - a) * one * part) one ∧
      moved a ((b - a) * one * part) one ≤ max a b := by
  have hpos : (0 : Int) ≤ one := Int.natCast_nonneg one
  have hwide : a.natAbs ≤ 2 ^ 50 := ha.trans (by decide)
  rcases le_total a b with hab | hba
  · have hfactor : 0 ≤ (b - a) * one := mul_nonneg (by omega) hpos
    have hlow := @le_moved a 0 _ _ Binary64.one_pos (by decide) hwide
      (by simpa using mul_nonneg hfactor hpart)
    have hhigh := @moved_le a (b - a) _ _ Binary64.one_pos (by omega) hwide
      (mul_le_mul_of_nonneg_left hone hfactor)
    omega
  · have hfactor : (b - a) * one ≤ 0 := mul_nonpos_of_nonpos_of_nonneg (by omega) hpos
    have hlow := @le_moved a (b - a) _ _ Binary64.one_pos (by omega) hwide
      (mul_le_mul_of_nonpos_left hone hfactor)
    have hhigh := @moved_le a 0 _ _ Binary64.one_pos (by decide) hwide
      (by simpa using mul_nonpos_of_nonpos_of_nonneg hfactor hpart)
    omega

theorem edgePoint_between (hu : u.InGrid) (hv : v.InGrid) {part : Int} (hpart : 0 ≤ part)
    (hone : part ≤ one) : Between u v (edgePoint u v part) := by
  obtain ⟨hleft, hright⟩ := moved_between hu.natAbs_x hv.natAbs_x hpart hone
  obtain ⟨hbottom, htop⟩ := moved_between hu.natAbs_y hv.natAbs_y hpart hone
  have hx : (edgePoint u v part).x = moved u.x ((v.x - u.x) * one * part) one :=
    clamp_of_mem ((le_min hu.left hv.left).trans hleft) (hright.trans (max_le hu.right hv.right))
  have hy : (edgePoint u v part).y = moved u.y ((v.y - u.y) * one * part) one :=
    clamp_of_mem ((le_min hu.bottom hv.bottom).trans hbottom) (htop.trans (max_le hu.top hv.top))
  exact ⟨hx ▸ hleft, hx ▸ hright, hy ▸ hbottom, hy ▸ htop⟩

/-- A distance within an edge is a part of it between none and the whole. -/
theorem edgePart_le_one (hle : d ≤ (edgeLength u v * one : Nat)) (hpos : 0 < edgeLength u v) :
    edgePart d u v ≤ one := by
  have hrep : Representable (one : Int).natAbs := by
    simpa using representable_whole (n := 1) (by decide)
  apply roundUnits_le hrep (Nat.mul_pos hpos Binary64.one_pos)
  rw [mul_comm]
  exact mul_le_mul_of_nonneg_left hle (Int.natCast_nonneg one)

/-- A walk ends on the path, at a point of what all its edges and corners lie on. -/
theorem walk_on {onPath : Point → Prop} {path : List Point}
    (hpath : ∀ p ∈ u :: path, p.InGrid ∧ onPath p)
    (hedges : (u :: path).IsChain fun u v => ∀ p, Between u v p → onPath p)
    (hd : distance.Holds d) (hnonneg : 0 ≤ d) (hsmall : d ≤ (800 * one : Nat)) :
    ∃ p, walk distance (corner u) (path.map corner) = .ok p ∧ onPath p := by
  induction path generalizing u distance d with
  | nil =>
      obtain ⟨hgrid, hon⟩ := hpath u (by simp)
      exact ⟨u, toGrid_int hgrid, hon⟩
  | cons v path ih =>
      have hu : u.InGrid := (hpath u (by simp)).1
      have hv : v.InGrid := (hpath v (by simp)).1
      obtain ⟨hedge, hedges⟩ := List.isChain_cons_cons.1 hedges
      have hmagnitude : d.natAbs ≤ 800 * one := by omega
      by_cases hends : d ≤ (edgeLength u v * one : Nat) ∧ 0 < edgeLength u v
      · refine ⟨_, walk_edge hu hv hd hmagnitude hends.1 hends.2 _, hedge _ ?_⟩
        have hpart : 0 ≤ edgePart d u v :=
          roundUnits_nonneg (mul_nonneg hnonneg (Int.natCast_nonneg one)) _
        exact edgePoint_between hu hv hpart (edgePart_le_one hends.1 hends.2)
      · have hpast : (edgeLength u v * one : Nat) < d ∨ edgeLength u v = 0 := by
          by_contra hneither
          rw [not_or] at hneither
          exact hends ⟨by omega, by omega⟩
        obtain ⟨rest, hrest, hwalk⟩ := walk_past hu hv hd hmagnitude hpast (path.map corner)
        have hleft : 0 ≤ d - (edgeLength u v * one : Nat) := by
          rcases hpast with hlt | hzero
          · omega
          · simpa [hzero] using hnonneg
        rw [List.map_cons, hwalk]
        apply ih (fun p hp => hpath p (List.mem_cons_of_mem u hp)) hedges hrest
        · exact roundUnits_nonneg hleft 1
        · have hrep : Representable ((800 * one : Nat) : Int).natAbs := by
            rw [Int.natAbs_natCast]
            exact representable_whole (by decide)
          apply roundUnits_le hrep Nat.one_pos
          rw [Nat.cast_one, Int.mul_one]
          omega

/-! ### Squares -/

variable {c : Point} {h : Int} {n i : Nat}

/-- The point is on the edges of the square about a centre. -/
def OnSquare (c : Point) (halfSide : Int) (p : Point) : Prop :=
  max |p.x - c.x| |p.y - c.y| = halfSide

theorem onSquare_iff (hh : 0 ≤ h) (p : Point) : OnSquare c h p ↔
    (c.x - h ≤ p.x ∧ p.x ≤ c.x + h) ∧ (c.y - h ≤ p.y ∧ p.y ≤ c.y + h) ∧
      (p.x = c.x - h ∨ p.x = c.x + h ∨ p.y = c.y - h ∨ p.y = c.y + h) := by
  unfold OnSquare
  rcases abs_cases (p.x - c.x) with ⟨hx, _⟩ | ⟨hx, _⟩ <;>
  rcases abs_cases (p.y - c.y) with ⟨hy, _⟩ | ⟨hy, _⟩ <;>
  rw [hx, hy] <;> omega

/-- The corners that a walk comes by, the first being the middle of the right edge. -/
def squareStart (c : Point) (h : Int) : Point := ⟨c.x + h, c.y⟩

def squarePath (c : Point) (h : Int) : List Point :=
  [⟨c.x + h, c.y + h⟩, ⟨c.x - h, c.y + h⟩, ⟨c.x - h, c.y - h⟩, ⟨c.x + h, c.y - h⟩, ⟨c.x + h, c.y⟩]

/-- How far the walk to a point goes, of so many points. -/
def walked (h : Int) (n i : Nat) : Int := roundUnits (8 * h * i * one) n

theorem natAbs_walked_le (hi : i < n) (hh : h.natAbs ≤ 100) :
    (8 * h * i * one).natAbs ≤ 800 * one * n := by
  have hside : (8 * h).natAbs ≤ 800 := by omega
  rw [Int.natAbs_mul, Int.natAbs_mul, Int.natAbs_natCast, Int.natAbs_natCast]
  calc (8 * h).natAbs * i * one ≤ 800 * n * one :=
        Nat.mul_le_mul_right one (Nat.mul_le_mul hside hi.le)
    _ = 800 * one * n := by ring

/-- The points of a square, by where the walks to them end. -/
theorem square_points {P : Nat → Point → Prop} (hn : 0 < n) (hh : h.natAbs ≤ 100)
    (hwalks : ∀ i < n, ∀ distance : Binary64, distance.Holds (walked h n i) →
      ∃ p, walk distance (corner (squareStart c h)) ((squarePath c h).map corner) = .ok p ∧ P i p) :
    ∃ g : Nat → Point, square n (.int h) (.int c.x) (.int c.y) = .ok ((List.range n).map g) ∧
      ∀ i < n, P i (g i) := by
  have hcorners : corners (.int h) (.int c.x) (.int c.y)
      = .ok (corner (squareStart c h), (squarePath c h).map corner) := rfl
  have hperimeter : (Number.int 8).mul (.int h) = .ok (.int (8 * h)) := rfl
  rw [square, hcorners, ok_bind, hperimeter]
  dsimp only
  rw [ok_bind]
  refine exists_mapM_indices fun i hi => ?_
  rw [Int.toNat_natCast] at hi
  have hreach : (8 * h * i).natAbs * one ≤ reach * n := by
    have hwalked := natAbs_walked_le hi hh
    rw [Int.natAbs_mul, Int.natAbs_natCast] at hwalked
    exact hwalked.trans (Nat.mul_le_mul_right n (mul_one_le_reach (by decide)))
  obtain ⟨distance, hquotient, hdistance⟩ := intQuotient_natCast_holds hn hreach
  have hproduct : (Number.int (8 * h)).mul (.int i) = .ok (.int (8 * h * i)) := rfl
  have hpart : (Number.int (8 * h * i)).div (.int n) = .ok distance := hquotient
  rw [hproduct, ok_bind, hpart, ok_bind]
  exact hwalks i hi distance hdistance

/-- The square is on the grid, whichever sign the side has. -/
def Fits (c : Point) (h : Int) : Prop :=
  Point.InGrid ⟨c.x - |h|, c.y - |h|⟩ ∧ Point.InGrid ⟨c.x + |h|, c.y + |h|⟩

theorem walk_nonneg (hh : 0 ≤ h) (hfits : Fits c h) (hn : 0 < n) (hi : i < n)
    (hd : distance.Holds (walked h n i)) :
    ∃ p, walk distance (corner (squareStart c h)) ((squarePath c h).map corner) = .ok p ∧
      OnSquare c h p := by
  obtain ⟨⟨hleft, -, hbottom, -⟩, ⟨-, hright, -, htop⟩⟩ := hfits
  rw [abs_of_nonneg hh] at hleft hbottom hright htop
  dsimp only at hleft hbottom hright htop
  have hnonneg : 0 ≤ walked h n i := by
    apply roundUnits_nonneg
    positivity
  have hsmall : (walked h n i).natAbs ≤ 800 * one := by
    apply natAbs_roundUnits_le (representable_whole (by decide)) hn
    rw [maxX] at hright
    exact natAbs_walked_le hi (by omega)
  apply walk_on _ _ hd hnonneg (by omega)
  · have hcorner {x y : Int} (hx : x = c.x - h ∨ x = c.x + h)
        (hy : y = c.y - h ∨ y = c.y ∨ y = c.y + h) :
        Point.InGrid ⟨x, y⟩ ∧ OnSquare c h ⟨x, y⟩ := by
      rw [onSquare_iff hh]
      dsimp only
      exact ⟨⟨by dsimp only; omega, by dsimp only; omega, by dsimp only; omega,
        by dsimp only; omega⟩, by omega, by omega, by omega⟩
    intro p hp
    simp only [squareStart, squarePath, List.mem_cons, List.not_mem_nil, or_false] at hp
    rcases hp with rfl | rfl | rfl | rfl | rfl | rfl <;> exact hcorner (by simp) (by simp)
  · simp only [squareStart, squarePath, List.isChain_cons_cons, List.isChain_singleton, and_true]
    refine ⟨?_, ?_, ?_, ?_, ?_⟩ <;>
    · rintro p ⟨hleft, hright, hbottom, htop⟩
      dsimp only at hleft hright hbottom htop
      rw [onSquare_iff hh]
      omega

/-! ### Squares of a negative side -/

/-- Distances against the edge, between so many whole sides of the square. -/
theorem walked_bounds (hh : h < 0) (hside : h.natAbs ≤ 100) (hn : 0 < n) {k : Nat} (hk : k ≤ 8) :
    (k * n ≤ 8 * i → walked h n i ≤ k * h * one) ∧
      (8 * i ≤ k * n → k * h * one ≤ walked h n i) := by
  have hpos : (0 : Int) ≤ one := Int.natCast_nonneg one
  have hrep : Representable (k * h * one : Int).natAbs := by
    apply representable_mul_one
    rw [Int.natAbs_mul, Int.natAbs_natCast]
    exact (Nat.mul_le_mul hk hside).trans_lt (by decide)
  constructor
  · intro hle
    apply roundUnits_le hrep hn
    have hfactor : ((8 * i : Nat) : Int) * h ≤ (k * n : Nat) * h :=
      mul_le_mul_of_nonpos_right (by exact_mod_cast hle) hh.le
    calc 8 * h * i * one = ((8 * i : Nat) : Int) * h * one := by push_cast; ring
      _ ≤ (k * n : Nat) * h * one := mul_le_mul_of_nonneg_right hfactor hpos
      _ = k * h * one * n := by push_cast; ring
  · intro hle
    apply le_roundUnits hrep hn
    have hfactor : ((k * n : Nat) : Int) * h ≤ (8 * i : Nat) * h :=
      mul_le_mul_of_nonpos_right (by exact_mod_cast hle) hh.le
    calc k * h * one * n = ((k * n : Nat) : Int) * h * one := by push_cast; ring
      _ ≤ (8 * i : Nat) * h * one := mul_le_mul_of_nonneg_right hfactor hpos
      _ = 8 * h * i * one := by push_cast; ring

/-- The first edge is followed backwards, so many whole sides of the square. -/
theorem column_bounds {a : Int} {length k : Nat} (hh : h < 0) (hside : h.natAbs ≤ 100)
    (ha : a.natAbs ≤ 100) (hlength : (length : Int) = -h) (hk : k ≤ 8) :
    (d ≤ k * h * one →
      a - k * h ≤ moved a (h * one * roundUnits (d * one) (length * one)) one) ∧
    (k * h * one ≤ d →
      moved a (h * one * roundUnits (d * one) (length * one)) one ≤ a - k * h) := by
  have hpos : (0 : Int) < one := by exact_mod_cast Binary64.one_pos
  have hden : 0 < length * one := Nat.mul_pos (by omega) Binary64.one_pos
  have hrep : Representable (-(k : Int) * one).natAbs := representable_mul_one (by omega)
  have hparts : -(k : Int) * one * (length * one : Nat) = k * h * one * one := by
    rw [Int.natCast_mul, hlength]
    ring
  have hfactor : h * one ≤ 0 := mul_nonpos_of_nonpos_of_nonneg hh.le hpos.le
  have hwhole : -(k * h) * one * one = h * one * (-(k : Int) * one) := by ring
  have hmoved : (-(k * h) : Int).natAbs ≤ 2 ^ 50 := by
    rw [Int.natAbs_neg, Int.natAbs_mul, Int.natAbs_natCast]
    exact (Nat.mul_le_mul hk hside).trans (by decide)
  rw [Int.sub_eq_add_neg]
  constructor
  · intro hd
    have hpart : roundUnits (d * one) (length * one) ≤ -(k : Int) * one := by
      apply roundUnits_le hrep hden
      rw [hparts]
      exact mul_le_mul_of_nonneg_right hd hpos.le
    apply le_moved Binary64.one_pos hmoved (ha.trans (by decide))
    rw [hwhole]
    exact mul_le_mul_of_nonpos_left hpart hfactor
  · intro hd
    have hpart : -(k : Int) * one ≤ roundUnits (d * one) (length * one) := by
      apply le_roundUnits hrep hden
      rw [hparts]
      exact mul_le_mul_of_nonneg_right hd hpos.le
    apply moved_le Binary64.one_pos hmoved (ha.trans (by decide))
    rw [hwhole]
    exact mul_le_mul_of_nonpos_left hpart hfactor

/-- Where the walk to a point of a negative side ends. -/
structure Beside (c : Point) (h : Int) (n i : Nat) (p : Point) : Prop where
  column : p.x = c.x + h
  inside : p.y ≤ maxY
  above : ∀ k : Nat, k ≤ 8 → k * n ≤ 8 * i → min (c.y - k * h) maxY ≤ p.y
  below : ∀ k : Nat, k ≤ 8 → 8 * i ≤ k * n → p.y ≤ c.y - k * h

theorem walk_negative (hh : h < 0) (hfits : Fits c h) (hn : 0 < n) (hi : i < n)
    (hd : distance.Holds (walked h n i)) :
    ∃ p, walk distance (corner (squareStart c h)) ((squarePath c h).map corner) = .ok p ∧
      Beside c h n i p := by
  obtain ⟨⟨hleft, -, hbottom, -⟩, ⟨-, hright, -, htop⟩⟩ := hfits
  rw [abs_of_neg hh] at hleft hbottom hright htop
  dsimp only at hleft hbottom hright htop
  rw [maxX] at hright
  rw [maxY] at htop
  have hu : (squareStart c h).InGrid := by
    constructor <;> simp only [squareStart, maxX, maxY] <;> omega
  have hv : (⟨c.x + h, c.y + h⟩ : Point).InGrid := by
    constructor <;> simp only [maxX, maxY] <;> omega
  have hedge : (edgeLength (squareStart c h) ⟨c.x + h, c.y + h⟩ : Int) = -h := by
    simp only [edgeLength, squareStart]
    omega
  have hside : h.natAbs ≤ 100 := by omega
  have hnegative : walked h n i ≤ 0 := by
    simpa using (walked_bounds (i := i) (k := 0) hh hside hn (by decide)).1 (by omega)
  have hsmall : (walked h n i).natAbs ≤ 800 * one :=
    natAbs_roundUnits_le (representable_whole (by decide)) hn (natAbs_walked_le hi hside)
  refine ⟨_, walk_edge hu hv hd hsmall (by omega) (by omega) _, ?_⟩
  have hcolumn {k : Nat} (hk : k ≤ 8) :=
    column_bounds (d := walked h n i) hh hside hu.natAbs_y hedge hk
  have hbounds {k : Nat} (hk : k ≤ 8) := walked_bounds (i := i) hh hside hn hk
  constructor
  · show clamp maxX (moved (c.x + h) ((c.x + h - (c.x + h)) * one * _) one) = c.x + h
    have hmoved : moved (c.x + h) 0 one = c.x + h :=
      moved_zero Binary64.one_pos (hu.natAbs_x.trans (by decide))
    rw [Int.sub_self, Int.zero_mul, Int.zero_mul, hmoved]
    exact clamp_of_mem hu.left hu.right
  · exact min_le_right _ _
  · intro k hk hle
    have hmoved := (hcolumn hk).1 ((hbounds hk).1 hle)
    show min _ maxY ≤ clamp maxY (moved c.y ((c.y + h - c.y) * one * _) one)
    rw [add_sub_cancel_left, clamp]
    exact min_le_min_right _ (hmoved.trans (le_max_left _ _))
  · intro k hk hle
    have hmoved := (hcolumn hk).2 ((hbounds hk).2 hle)
    have hup : (k : Int) * h ≤ 0 :=
      mul_nonpos_of_nonneg_of_nonpos (Int.natCast_nonneg k) hh.le
    have hinside : 0 ≤ c.y - k * h := by
      have hcenter := hu.bottom
      rw [squareStart] at hcenter
      dsimp only at hcenter
      omega
    show clamp maxY (moved c.y ((c.y + h - c.y) * one * _) one) ≤ _
    rw [add_sub_cancel_left, clamp]
    exact (min_le_left _ _).trans (max_le hmoved hinside)

/-- A square has so many points as were asked for, and they are on its edges exactly if
its side is not negative, or there is only one, or the grid ends where the square does; the
points of a negative side are on the line through its left edge. -/
theorem square_onSquare_iff {count : Int} (hcount : 1 ≤ count) (hfits : Fits c h) :
    ∃ points, square count (.int h) (.int c.x) (.int c.y) = .ok points ∧
      (points.length : Int) = count ∧
      ((∀ p ∈ points, OnSquare c |h| p) ↔ 0 ≤ h ∨ count = 1 ∨ c.y + |h| = maxY) ∧
      (h < 0 → ∀ p ∈ points, p.x = c.x - |h| ∧ c.y ≤ p.y) := by
  obtain ⟨n, rfl⟩ : ∃ n : Nat, count = n := ⟨count.toNat, by omega⟩
  have hn : 0 < n := by omega
  have hside : h.natAbs ≤ 100 := by
    have hleft := hfits.1.left
    have hright := hfits.2.right
    rw [maxX] at hright
    dsimp only at hleft hright
    rw [Int.abs_eq_natAbs] at hleft hright
    omega
  rcases le_or_gt 0 h with hh | hh
  · obtain ⟨g, hpoints, hg⟩ := square_points hn hside fun i hi distance hd =>
      walk_nonneg hh hfits hn hi hd
    have hall : ∀ p ∈ (List.range n).map g, OnSquare c |h| p := by
      rw [abs_of_nonneg hh, List.forall_mem_map]
      exact fun i hi => hg i (List.mem_range.1 hi)
    exact ⟨_, hpoints, by simp, iff_of_true hall (Or.inl hh), fun hneg => absurd hneg hh.not_gt⟩
  · obtain ⟨g, hpoints, hg⟩ := square_points hn hside fun i hi distance hd =>
      walk_negative hh hfits hn hi hd
    have habs : |h| = -h := abs_of_neg hh
    have htop : c.y + |h| ≤ maxY := hfits.2.top
    have hcolumn (i : Nat) (hi : i < n) : (g i).x = c.x - |h| ∧ c.y ≤ (g i).y := by
      have habove := (hg i hi).above 0 (by decide) (by omega)
      rw [Nat.cast_zero, Int.zero_mul] at habove
      rw [(hg i hi).column]
      omega
    refine ⟨_, hpoints, by simp, ?_, ?_⟩
    · simp only [List.forall_mem_map, List.mem_range, onSquare_iff (abs_nonneg h)]
      constructor
      · -- the last point is four sides behind the first one, unless the grid ends before
        intro hall
        by_contra hnone
        have hlast := hall (n - 1) (by omega)
        have habove := (hg (n - 1) (by omega)).above 4 (by decide) (by omega)
        push_cast at habove
        omega
      · intro hcase i hi
        obtain ⟨hx, hy⟩ := hcolumn i hi
        have hinside := (hg i hi).inside
        have hheight : (g i).y ≤ c.y + |h| := by
          rcases hcase with hnonneg | hsingle | hborder
          · exact absurd hnonneg hh.not_ge
          · have hbelow := (hg i hi).below 0 (by decide) (by omega)
            rw [Nat.cast_zero, Int.zero_mul] at hbelow
            omega
          · omega
        omega
    · intro _
      rw [List.forall_mem_map]
      exact fun i hi => hcolumn i (List.mem_range.1 hi)

/-- The square that touches the bottom of the grid. -/
theorem square_onSquare_bottom :
    ∃ points, square 7 (.int 40) (.int 50) (.int 40) = .ok points ∧ points.length = 7 ∧
      ∀ p ∈ points, OnSquare ⟨50, 40⟩ 40 p := by
  have hfits : Fits ⟨50, 40⟩ 40 := by
    constructor <;> constructor <;> decide
  obtain ⟨points, hpoints, hlength, hon, -⟩ := square_onSquare_iff (by decide : (1 : Int) ≤ 7) hfits
  exact ⟨points, hpoints, by exact_mod_cast hlength, hon.2 (Or.inl (by decide))⟩

/-- Of a negative side the second point of two is off the square. -/
theorem square_negative :
    Fits ⟨50, 50⟩ (-10) ∧
      square 2 (.int (-10)) (.int 50) (.int 50) = .ok [⟨40, 50⟩, ⟨40, 90⟩] ∧
      ¬ OnSquare ⟨50, 50⟩ |-10| ⟨40, 90⟩ := by
  refine ⟨?_, by decide +kernel, ?_⟩
  · constructor <;> constructor <;> decide
  · rw [OnSquare]
    decide

end MapScript.Layout
