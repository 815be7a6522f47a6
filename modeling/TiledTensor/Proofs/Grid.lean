import Mathlib.Algebra.BigOperators.Group.List.Lemmas
import TiledTensor.Tiling
import TiledTensor.Proofs.Region

/-!
# The tiles of a tiling

A coordinate of the tensor lies in one tile, which is found by dividing by the basetile: its home.
The box of the tile at some grid coordinates holds just the coordinates that have their home there,
so the tiles share out the tensor; and the tiles that a box inside the tensor reaches are the homes
of its coordinates.  The tiles are numbered by the layout of the grid, and are known by their
numbers as well.
-/

namespace TiledTensor

open Region (Holds Bounded Inside)

namespace Tiling

/-! ## One dimension -/

section Dimension

variable {d b x y : Nat}

theorem gridExtent_pos (h : 0 < gridExtent d b) : 0 < d := by
  rw [gridExtent] at h
  split at h
  · exact absurd h (Nat.lt_irrefl 0)
  · omega

/-- The number of tiles is the home of the last coordinate, and one more. -/
theorem gridExtent_eq (hd : 0 < d) (hb : 0 < b) : gridExtent d b = (d - 1) / b + 1 := by
  rw [gridExtent, if_neg (Nat.ne_of_gt hd), ← Nat.add_div_right _ hb]
  congr 1
  omega

theorem gridExtent_le (hd : 0 < d) (hb : 0 < b) : gridExtent d b ≤ d := by
  have := Nat.div_le_self (d - 1) b
  rw [gridExtent_eq hd hb]
  omega

/-- A coordinate has its home in the grid. -/
theorem div_lt_gridExtent (hb : 0 < b) (hy : y < d) : y / b < gridExtent d b := by
  have hle : y / b ≤ (d - 1) / b := Nat.div_le_div_right (by omega)
  rw [gridExtent_eq (by omega) hb]
  omega

/-- Extent of the tile number `x`. -/
def extentOf (d b x : Nat) : Nat := if x + 1 = gridExtent d b then leftoverExtent d b else b

/-- A tile ends where the next one starts, and the last one where the dimension does. -/
theorem tile_end (hb : 0 < b) (hx : x < gridExtent d b) :
    x * b + extentOf d b x = min ((x + 1) * b) d := by
  have hd : 0 < d := gridExtent_pos (Nat.zero_lt_of_lt hx)
  rw [gridExtent_eq hd hb] at hx
  rw [extentOf, gridExtent_eq hd hb, Nat.succ_mul]
  have hdiv := Nat.div_add_mod (d - 1) b
  have hmod := Nat.mod_lt (d - 1) hb
  have hmul : b * ((d - 1) / b) = (d - 1) / b * b := Nat.mul_comm _ _
  split
  · rename_i hlast
    obtain rfl : x = (d - 1) / b := by omega
    rw [leftoverExtent, if_neg (Nat.ne_of_gt hb)]
    have hsum : d = ((d - 1) % b + 1) + (d - 1) / b * b := by omega
    by_cases hfull : (d - 1) % b + 1 = b
    · have hdmod : d % b = 0 := by
        rw [hsum, Nat.add_mul_mod_self_right, hfull, Nat.mod_self]
      rw [if_pos hdmod]
      omega
    · have hdmod : d % b = (d - 1) % b + 1 := by
        conv_lhs => rw [hsum]
        rw [Nat.add_mul_mod_self_right, Nat.mod_eq_of_lt (by omega)]
      rw [if_neg (by omega), hdmod]
      omega
  · rename_i hinner
    have hle : (x + 1) * b ≤ (d - 1) / b * b := Nat.mul_le_mul_right b (by omega)
    rw [Nat.succ_mul] at hle
    omega

/-- A tile has the coordinates whose home it is. -/
theorem mem_tile_iff (hb : 0 < b) (hx : x < gridExtent d b) :
    (x * b ≤ y ∧ y < x * b + extentOf d b x) ↔ y < d ∧ y / b = x := by
  have hhome : y / b = x ↔ x * b ≤ y ∧ y < (x + 1) * b := by
    rw [Nat.div_eq_iff hb, Nat.succ_mul]
    omega
  rw [tile_end hb hx, hhome]
  omega

theorem extentOf_pos (hb : 0 < b) (hx : x < gridExtent d b) : 0 < extentOf d b x := by
  have hd : 0 < d := gridExtent_pos (Nat.zero_lt_of_lt hx)
  have hle : x ≤ (d - 1) / b := by
    rw [gridExtent_eq hd hb] at hx
    omega
  have hmul : x * b ≤ d - 1 := (Nat.le_div_iff_mul_le hb).mp hle
  have hend := tile_end hb hx
  rw [Nat.succ_mul] at hend
  omega

/-- The tiles that an interval reaches are the homes of its coordinates. -/
theorem mem_reach_iff {s e : Nat} (hb : 0 < b) (he : 0 < e) :
    (s / b ≤ x ∧ x < s / b + ((s + e - 1) / b - s / b + 1)) ↔
      ∃ y, (s ≤ y ∧ y < s + e) ∧ y / b = x := by
  have hle : s / b ≤ (s + e - 1) / b := Nat.div_le_div_right (by omega)
  constructor
  · rintro ⟨hfirst, hlast⟩
    -- the first coordinate of the interval that lies in the tile or after it
    refine ⟨max s (x * b), ?_, ?_⟩
    · have hmul : x * b ≤ s + e - 1 := (Nat.le_div_iff_mul_le hb).mp (by omega)
      omega
    · rw [Nat.div_eq_iff hb]
      have hs : s < (s / b + 1) * b := Nat.lt_mul_of_div_lt (Nat.lt_succ_self _) hb
      have hmul : (s / b + 1) * b ≤ (x + 1) * b := Nat.mul_le_mul_right b (by omega)
      rw [Nat.succ_mul x] at hmul
      omega
  · rintro ⟨y, ⟨hsy, hye⟩, rfl⟩
    have h₁ : s / b ≤ y / b := Nat.div_le_div_right hsy
    have h₂ : y / b ≤ (s + e - 1) / b := Nat.div_le_div_right (by omega)
    omega

end Dimension

/-! ## All dimensions -/

/-- All extents are positive words and are cut by positive extents. -/
def Cut (ds bs : Shape) : Prop :=
  List.Forall₂ (fun d b => (0 < d ∧ d < Word.limit) ∧ 0 < b) ds bs

variable {ds bs : Shape} {i y : Index} {t : Tiling}

/-- The box of a tile holds the coordinates whose home it is. -/
theorem exists_tile (h : Cut ds bs) (hi : Shape.contains (List.zipWith gridExtent ds bs) i = true) :
    ∃ start extent, Word.mulEach i bs = .ok start ∧
      extentsAt i (List.zipWith gridExtent ds bs) bs (List.zipWith leftoverExtent ds bs) = .ok extent ∧
      Inside start extent ds ∧ 0 ∉ extent ∧
      ∀ y, Holds start extent y ↔ Shape.contains ds y = true ∧ List.zipWith (· / ·) y bs = i := by
  induction h generalizing i with
  | nil =>
    cases i with
    | nil =>
      refine ⟨[], [], rfl, rfl, trivial, List.not_mem_nil, fun y => ?_⟩
      cases y <;> simp [Holds, Shape.contains]
    | cons x i => cases hi
  | @cons d b ds bs hdim _ ih =>
    cases i with
    | nil => cases hi
    | cons x i =>
      obtain ⟨⟨hd, hlimit⟩, hb⟩ := hdim
      obtain ⟨hx, hi⟩ := Shape.contains_cons.mp hi
      obtain ⟨start, extent, hstart, hextent, hinside, hpositive, hholds⟩ := ih hi
      have hend := tile_end hb hx
      have hx1 : x + 1 < Word.limit := by
        have := gridExtent_le hd hb
        omega
      have hmul : x * b < Word.limit := by omega
      refine ⟨x * b :: start, extentOf d b x :: extent, ?_, ?_, ⟨by omega, hinside⟩, ?_, fun y => ?_⟩
      · rw [Word.mulEach, Except.bind_of_ok (Word.mul_eq_ok_iff.mpr ⟨hmul, rfl⟩),
          Except.bind_of_ok hstart]
        rfl
      · rw [List.zipWith_cons_cons, List.zipWith_cons_cons, extentsAt,
          Except.bind_of_ok (Word.add_eq_ok_iff.mpr ⟨hx1, rfl⟩), Except.bind_of_ok hextent]
        rfl
      · exact fun h0 => (List.mem_cons.mp h0).elim (Nat.ne_of_lt (extentOf_pos hb hx)) hpositive
      · cases y with
        | nil => exact ⟨fun h => absurd h id, fun h => absurd h.1 (by simp [Shape.contains])⟩
        | cons z y =>
          rw [Shape.contains_cons, List.zipWith_cons_cons, List.cons.injEq]
          refine Iff.trans (and_congr (mem_tile_iff hb hx) (hholds y)) ?_
          exact and_and_and_comm

/-- Coordinates have their home in the grid. -/
theorem contains_home (h : Cut ds bs) (hy : Shape.contains ds y = true) :
    Shape.contains (List.zipWith gridExtent ds bs) (List.zipWith (· / ·) y bs) = true := by
  induction h generalizing y with
  | nil =>
    cases y with
    | nil => rfl
    | cons z y => cases hy
  | cons hdim _ ih =>
    cases y with
    | nil => cases hy
    | cons z y =>
      obtain ⟨hz, hy⟩ := Shape.contains_cons.mp hy
      exact Shape.contains_cons.mpr ⟨div_lt_gridExtent hdim.2 hz, ih hy⟩

/-- The grid coordinates of the tile that a coordinate lies in. -/
def home (t : Tiling) (y : Index) : Index := List.zipWith (· / ·) y t.basetile

/-- A tensor with elements is cut into positive words. -/
theorem isCut (t : Tiling) (h0 : 0 ∉ t.whole.shape) : Cut t.whole.shape t.basetile := by
  refine List.forall₂_iff_zip.mpr ⟨t.ranks, fun {d b} hmem => ?_⟩
  have hd : d ∈ t.whole.shape := (List.of_mem_zip hmem).1
  have hpos : 0 < d := Nat.pos_of_ne_zero fun hz => h0 (hz ▸ hd)
  have hprod : t.whole.shape.prod ≠ 0 := List.prod_ne_zero h0
  have hle : d ≤ t.whole.shape.prod := Nat.le_of_dvd (Nat.pos_of_ne_zero hprod) (List.dvd_prod hd)
  obtain ⟨hcount, hlimit⟩ := t.whole.count_eq
  refine ⟨⟨hpos, by omega⟩, ?_⟩
  rcases t.positive (d, b) hmem with hb | hz
  · exact hb
  · exact absurd hz (Nat.ne_of_gt hpos)

/-- A tile of the grid is a box inside the tensor that holds the coordinates whose home it is. -/
theorem tile_eq (t : Tiling) (h0 : 0 ∉ t.whole.shape) (hi : t.grid.shape.contains i = true) :
    ∃ start extent, t.tileStart i = .ok start ∧ t.tileShape i = .ok extent ∧
      Inside start extent t.whole.shape ∧ 0 ∉ extent ∧
      ∀ y, Holds start extent y ↔ t.whole.shape.contains y = true ∧ t.home y = i := by
  rw [tileStart, tileShape, if_pos hi, if_pos hi]
  rw [t.cut] at hi ⊢
  exact exists_tile (t.isCut h0) hi

theorem contains_home_of_contains (t : Tiling) (h0 : 0 ∉ t.whole.shape)
    (hy : t.whole.shape.contains y = true) : t.grid.shape.contains (t.home y) = true := by
  rw [t.cut]
  exact contains_home (t.isCut h0) hy

/-! ## Tiles by number -/

section Numbers

variable {n : Nat} {start : Index} {l : Layout}

/-- A tensor without elements has a grid without tiles. -/
theorem zero_mem_grid (h0 : 0 ∈ t.whole.shape) : 0 ∈ t.grid.shape := by
  obtain ⟨k, hk, hzero⟩ := List.getElem_of_mem h0
  rw [t.cut]
  have hk' : k < (List.zipWith gridExtent t.whole.shape t.basetile).length := by
    rw [List.length_zipWith, ← t.ranks, Nat.min_self]
    exact hk
  have hget : (List.zipWith gridExtent t.whole.shape t.basetile)[k] = 0 := by
    rw [List.getElem_zipWith, hzero]
    exact if_pos rfl
  exact hget ▸ List.getElem_mem hk'

/-- A tensor with a tile has no extent of zero. -/
theorem zero_notMem_of_grid (hi : t.grid.shape.contains i = true) : 0 ∉ t.whole.shape :=
  fun h0 => Shape.zero_notMem_of_contains hi (zero_mem_grid h0)

/-- The grid coordinates of a tile number. -/
theorem contains_digitsOf_grid (hn : n < t.grid.count) :
    t.grid.shape.contains (t.grid.shape.digitsOf n) = true :=
  Shape.contains_digitsOf (t.grid.count_eq.1 ▸ hn)

theorem zero_notMem (hn : n < t.grid.count) : 0 ∉ t.whole.shape :=
  zero_notMem_of_grid (contains_digitsOf_grid hn)

/-- What is known of a tile by its number is what is known of it by its coordinates. -/
theorem tile_of_number (hstart : t.tileStartAt n = .ok start) (hl : t.tileLayout n = .ok l) :
    t.tileStart (t.grid.shape.digitsOf n) = .ok start ∧
      t.tileShape (t.grid.shape.digitsOf n) = .ok l.shape ∧ n < t.grid.count := by
  obtain ⟨i, hi, hstart⟩ := bind_eq_ok hstart
  have hn : n < t.grid.count := by
    obtain ⟨hc, rfl⟩ := Layout.toIndex_eq_ok_iff.mp hi
    exact Layout.position_lt_count hc
  obtain rfl := Except.ok.inj ((Layout.toIndex_eq hn).symm.trans hi)
  obtain ⟨i, hi', hl⟩ := bind_eq_ok hl
  obtain rfl := Except.ok.inj (hi.symm.trans hi')
  obtain ⟨extent, hextent, hl⟩ := bind_eq_ok hl
  exact ⟨hstart, by rw [hextent, Layout.shape_of_new hl], hn⟩

/-- Each tile has a start. -/
theorem exists_tileStartAt (hn : n < t.grid.count) : ∃ start, t.tileStartAt n = .ok start := by
  obtain ⟨start, -, hstart, -⟩ := t.tile_eq (zero_notMem hn) (contains_digitsOf_grid hn)
  exact ⟨start, by rw [tileStartAt, Except.bind_of_ok (Layout.toIndex_eq hn), hstart]⟩

/-- Each tile has a layout. -/
theorem exists_tileLayout (hn : n < t.grid.count) : ∃ layout, t.tileLayout n = .ok layout := by
  obtain ⟨start, extent, -, hextent, hin, -, -⟩ :=
    t.tile_eq (zero_notMem hn) (contains_digitsOf_grid hn)
  obtain ⟨layout, hlayout, -⟩ := Layout.new_of_le hin.le
  refine ⟨layout, ?_⟩
  rw [tileLayout, Except.bind_of_ok (Layout.toIndex_eq hn), Except.bind_of_ok hextent, hlayout]

/-- A tile is a box inside its tensor that holds the coordinates whose home it is. -/
theorem tile_eq_of_number (hstart : t.tileStartAt n = .ok start) (hl : t.tileLayout n = .ok l) :
    Inside start l.shape t.whole.shape ∧ ∀ y, Holds start l.shape y ↔
      t.whole.shape.contains y = true ∧ t.grid.shape.position (t.home y) = n := by
  obtain ⟨hs, he, hn⟩ := tile_of_number hstart hl
  have hprod : n < t.grid.shape.prod := t.grid.count_eq.1 ▸ hn
  have h0 := zero_notMem hn
  obtain ⟨start', extent, hstart', hextent, hin, -, hholds⟩ :=
    t.tile_eq h0 (Shape.contains_digitsOf hprod)
  obtain rfl := Except.ok.inj (hs.symm.trans hstart')
  obtain rfl := Except.ok.inj (he.symm.trans hextent)
  refine ⟨hin, fun y => (hholds y).trans (and_congr_right fun hy => ?_)⟩
  have hhome := t.contains_home_of_contains h0 hy
  constructor
  · intro h
    rw [h, Shape.position_digitsOf hprod]
  · rintro rfl
    exact (Shape.digitsOf_position hhome).symm

end Numbers

end Tiling

end TiledTensor
