import Mathlib.Algebra.BigOperators.Group.Finset.Basic
import Mathlib.Algebra.Order.BigOperators.Group.Finset
import TiledTensor.Proofs.Grid
import TiledTensor.Proofs.Numbering
import TiledTensor.Proofs.Walk

/-!
# The tiles share out the tensor

A tiling exists exactly if the layout of the whole shape does: the grid is never too large.  Its
tiles are boxes inside the tensor, and every coordinate lies in one of them, so the numbers of their
elements add up to the number of elements of the tensor.  Everything that is asked of a tile by its
number is answered.
-/

namespace TiledTensor

open BoxWalk (visit)
open Region (Inside)

namespace Tiling

variable {t : Tiling} {shape basetile : Shape}

/-! ## Making a tiling -/

/-- There are no more tiles along a dimension than elements. -/
theorem grid_le (ranks : shape.length = basetile.length)
    (positive : ∀ p ∈ shape.zip basetile, 0 < p.2 ∨ p.1 = 0) :
    List.Forall₂ (· ≤ ·) (List.zipWith gridExtent shape basetile) shape := by
  induction shape generalizing basetile with
  | nil => exact .nil
  | cons d shape ih =>
    cases basetile with
    | nil => cases ranks
    | cons b basetile =>
      rw [List.zip_cons_cons, List.forall_mem_cons] at positive
      refine .cons ?_ (ih (Nat.succ.inj ranks) positive.2)
      by_cases hd : d = 0
      · rw [gridExtent, if_pos hd]
        exact Nat.zero_le d
      · exact gridExtent_le (Nat.pos_of_ne_zero hd) (positive.1.resolve_right hd)

/-- What comes of making a tiling is decided by the layout of the shape. -/
theorem new_cases (ranks : shape.length = basetile.length)
    (positive : ∀ p ∈ shape.zip basetile, 0 < p.2 ∨ p.1 = 0) :
    (∃ f, Layout.new shape = .error f ∧ new shape basetile = .error f) ∨
      ∃ t, new shape basetile = .ok t ∧ Layout.new shape = .ok t.whole ∧ t.basetile = basetile := by
  unfold new
  rw [dif_pos ranks, dif_pos positive]
  split
  · rename_i whole grid hw hg
    exact Or.inr ⟨_, rfl, hw, rfl⟩
  · rename_i f hw
    exact Or.inl ⟨f, hw, rfl⟩
  · -- the grid has a layout wherever the shape has one
    rename_i whole f hw hg
    obtain rfl := Layout.shape_of_new hw
    obtain ⟨grid, hgrid, -⟩ := Layout.new_of_le (grid_le ranks positive)
    rw [hg] at hgrid
    cases hgrid

/-! ## The extents of a tile -/

/-- A tile that is not the last one along a dimension has the full extent there. -/
theorem getElem?_of_extentsAt {i : Index} {grid base left extent : Shape} {j x g : Nat}
    (hlen : left.length = base.length) (h : extentsAt i grid base left = .ok extent)
    (hx : i[j]? = some x) (hg : grid[j]? = some g) (hne : x + 1 ≠ g) : extent[j]? = base[j]? := by
  induction i generalizing grid base left extent j with
  | nil => cases hx
  | cons y i ih =>
    cases grid with
    | nil => cases hg
    | cons k grid =>
      cases base with
      | nil =>
        cases left with
        | nil => cases h; rfl
        | cons l left => cases hlen
      | cons b base =>
        cases left with
        | nil => cases hlen
        | cons l left =>
          rw [extentsAt] at h
          obtain ⟨y', hy, h⟩ := bind_eq_ok h
          obtain ⟨rest, hrest, h⟩ := bind_eq_ok h
          obtain ⟨-, rfl⟩ := Word.add_eq_ok_iff.mp hy
          cases h
          cases j with
          | zero =>
            cases hx
            cases hg
            rw [List.getElem?_cons_zero, List.getElem?_cons_zero, if_neg hne]
          | succ j => exact ih (j := j) (Nat.succ.inj hlen) hrest hx hg

/-! ## The elements of a tile -/

open Finset (range)

/-- The number of the tile that holds the element at a position. -/
def holder (t : Tiling) (p : Nat) : Nat :=
  t.grid.shape.position (t.home (t.whole.shape.digitsOf p))

/-- Every element is held by a tile of the grid. -/
theorem holder_lt {p : Nat} (hp : p < t.whole.count) : t.holder p < t.grid.count := by
  have hy : t.whole.shape.contains (t.whole.shape.digitsOf p) = true :=
    Shape.contains_digitsOf (t.whole.count_eq.1 ▸ hp)
  exact Layout.position_lt_count
    (t.contains_home_of_contains (Shape.zero_notMem_of_contains hy) hy)

section Held

variable {n : Nat} {start : Index} {l : Layout} (hstart : t.tileStartAt n = .ok start)
  (hl : t.tileLayout n = .ok l)
include hstart hl

/-- A tile holds the elements at the places of its box. -/
theorem contains_visit {k : Nat} (hk : k < l.count) :
    t.whole.shape.contains (visit start l.shape k) = true ∧
      t.grid.shape.position (t.home (visit start l.shape k)) = n := by
  obtain ⟨hin, hholds⟩ := tile_eq_of_number hstart hl
  rw [l.count_eq.1] at hk
  exact (hholds _).mp ((Shape.mem_visits hin.length.1).mp (List.mem_map_of_mem (List.mem_range.mpr hk)))

theorem holder_eq_iff {p : Nat} (hp : p < t.whole.count) :
    t.holder p = n ↔ ∃ k < l.count, t.whole.shape.position (visit start l.shape k) = p := by
  obtain ⟨hin, hholds⟩ := tile_eq_of_number hstart hl
  constructor
  · intro hn
    have hprod : p < t.whole.shape.prod := t.whole.count_eq.1 ▸ hp
    have hheld := (hholds _).mpr ⟨Shape.contains_digitsOf hprod, hn⟩
    obtain ⟨k, hk, hvisit⟩ := List.mem_map.mp ((Shape.mem_visits hin.length.1).mpr hheld)
    refine ⟨k, l.count_eq.1 ▸ List.mem_range.mp hk, ?_⟩
    rw [hvisit, Shape.position_digitsOf hprod]
  · rintro ⟨k, hk, rfl⟩
    obtain ⟨hcontains, hn⟩ := contains_visit hstart hl hk
    rw [holder, Shape.digitsOf_position hcontains, hn]

/-- A tile has as many elements as the tensor has at the places of its box. -/
theorem card_held : {p ∈ range t.whole.count | t.holder p = n}.card = l.count := by
  obtain ⟨hin, -⟩ := tile_eq_of_number hstart hl
  have himage : {p ∈ range t.whole.count | t.holder p = n} =
      (range l.count).image fun k => t.whole.shape.position (visit start l.shape k) := by
    ext p
    rw [Finset.mem_filter, Finset.mem_range, Finset.mem_image]
    simp only [Finset.mem_range]
    constructor
    · rintro ⟨hp, hn⟩
      exact (holder_eq_iff hstart hl hp).mp hn
    · rintro ⟨k, hk, rfl⟩
      have hp := Layout.position_lt_count (contains_visit hstart hl hk).1
      exact ⟨hp, (holder_eq_iff hstart hl hp).mpr ⟨k, hk, rfl⟩⟩
  rw [himage, Finset.card_image_of_injOn, Finset.card_range]
  intro k hk k' hk' h
  rw [Finset.mem_coe, Finset.mem_range] at hk hk'
  have hvisit := (Shape.position_inj (contains_visit hstart hl hk).1
    (contains_visit hstart hl hk').1).mp h
  rw [l.count_eq.1] at hk hk'
  exact Shape.visit_inj hin.length.1 hk hk' hvisit

end Held

/-- The elements of the tiles are those of the tensor. -/
theorem sum_count {layout : Nat → Layout}
    (h : ∀ n < t.grid.count, t.tileLayout n = .ok (layout n)) :
    ∑ n ∈ range t.grid.count, (layout n).count = t.whole.count := by
  have hmaps : ∀ p ∈ range t.whole.count, t.holder p ∈ range t.grid.count := fun p hp =>
    Finset.mem_range.mpr (holder_lt (Finset.mem_range.mp hp))
  calc ∑ n ∈ range t.grid.count, (layout n).count
      = ∑ n ∈ range t.grid.count, {p ∈ range t.whole.count | t.holder p = n}.card := by
        refine Finset.sum_congr rfl fun n hn => ?_
        have hn := Finset.mem_range.mp hn
        obtain ⟨start, hstart⟩ := exists_tileStartAt hn
        exact (card_held hstart (h n hn)).symm
    _ = (range t.whole.count).card := (Finset.card_eq_sum_card_fiberwise hmaps).symm
    _ = t.whole.count := Finset.card_range _

/-! ## The tiling as a whole -/

/-- The tiles share out the elements of the tensor. -/
structure Partitions (t : Tiling) : Prop where
  /-- Every coordinate of the tensor lies in the box of just one tile. -/
  unique : ∀ y, t.whole.shape.contains y = true → ∃! i, t.grid.shape.contains i = true ∧
    ∃ start extent, t.tileStart i = .ok start ∧ t.tileShape i = .ok extent ∧
      y ∈ (⟨start, extent⟩ : Region)
  /-- A tile is a box inside the tensor, has elements, and is full where it is not the last one. -/
  box : ∀ i, t.grid.shape.contains i = true → ∃ start extent,
    t.tileStart i = .ok start ∧ t.tileShape i = .ok extent ∧ Inside start extent t.whole.shape ∧
      0 ∉ extent ∧ ∀ j x g : Nat, i[j]? = some x → t.grid.shape[j]? = some g → x + 1 ≠ g →
        extent[j]? = t.basetile[j]?
  /-- Everything is known of a tile by its number. -/
  numbered : ∀ n < t.grid.count, ∃ i start layout, t.grid.toIndex n = .ok i ∧
    t.tileStart i = .ok start ∧ t.tileStartAt n = .ok start ∧ t.tileShape i = .ok layout.shape ∧
      t.tileLayout n = .ok layout
  sum : ∃ layout : Nat → Layout, (∀ n < t.grid.count, t.tileLayout n = .ok (layout n)) ∧
    ∑ n ∈ range t.grid.count, (layout n).count = t.whole.count

theorem partitions (t : Tiling) : t.Partitions where
  unique y hy := by
    have h0 := Shape.zero_notMem_of_contains hy
    have hhome := t.contains_home_of_contains h0 hy
    obtain ⟨start, extent, hstart, hextent, -, -, hholds⟩ := t.tile_eq h0 hhome
    refine ⟨t.home y, ⟨hhome, start, extent, hstart, hextent, (hholds y).mpr ⟨hy, rfl⟩⟩, ?_⟩
    rintro i ⟨hi, start', extent', hstart', hextent', hmem⟩
    obtain ⟨start'', extent'', hstart'', hextent'', -, -, hholds'⟩ := t.tile_eq h0 hi
    obtain rfl := Except.ok.inj (hstart'.symm.trans hstart'')
    obtain rfl := Except.ok.inj (hextent'.symm.trans hextent'')
    exact (((hholds' y).mp hmem).2).symm
  box i hi := by
    obtain ⟨start, extent, hstart, hextent, hin, hpos, -⟩ := t.tile_eq (zero_notMem_of_grid hi) hi
    refine ⟨start, extent, hstart, hextent, hin, hpos, fun j x g hx hg hne => ?_⟩
    rw [tileShape, if_pos hi] at hextent
    refine getElem?_of_extentsAt ?_ hextent hx hg hne
    rw [leftover, List.length_zipWith, t.ranks, Nat.min_self]
  numbered n hn := by
    obtain ⟨start, hstart⟩ := exists_tileStartAt hn
    obtain ⟨layout, hlayout⟩ := exists_tileLayout hn
    obtain ⟨hs, he, -⟩ := tile_of_number hstart hlayout
    exact ⟨_, start, layout, Layout.toIndex_eq hn, hs, hstart, he, hlayout⟩
  sum := by
    choose! layout hlayout using fun n (hn : n < t.grid.count) => exists_tileLayout hn
    exact ⟨layout, hlayout, sum_count hlayout⟩

/-- A tiling fails only if the whole shape has no layout, for want of words, and else its tiles
share out the tensor. -/
theorem new_partitions (shape basetile : Shape) (ranks : shape.length = basetile.length)
    (positive : ∀ p ∈ shape.zip basetile, 0 < p.1 → 0 < p.2) :
    (∀ f, new shape basetile = .error f ↔ f = .overflow ∧ Layout.new shape = .error .overflow) ∧
      ∀ t, new shape basetile = .ok t →
        t.whole.shape = shape ∧ t.basetile = basetile ∧ t.Partitions := by
  have hpositive : ∀ p ∈ shape.zip basetile, 0 < p.2 ∨ p.1 = 0 := fun p hp =>
    (Nat.eq_zero_or_pos p.1).symm.imp_left (positive p hp)
  rcases new_cases ranks hpositive with ⟨g, hl, ht⟩ | ⟨t, ht, hl, hbase⟩
  · obtain rfl := Layout.fault_of_new hl
    rw [ht]
    refine ⟨fun f => ⟨fun h => ⟨(Except.error.inj h).symm, hl⟩, fun h => ?_⟩, fun t h => by cases h⟩
    rw [h.1]
  · rw [ht, hl]
    refine ⟨fun f => iff_of_false (fun h => by cases h) (fun h => by cases h.2), fun t' h => ?_⟩
    obtain rfl := Except.ok.inj h
    exact ⟨Layout.shape_of_new hl, hbase, t.partitions⟩

/-- A tensor without elements, whose basetile exceeds it along one dimension and is empty along the
other, and a tensor nearly as long as there are words, which leaves a single element to its last
tile. -/
theorem new_partitions_of_extremes :
    (∃ t, new [4, 0] [9, 0] = .ok t ∧ t.grid.count = 0 ∧ t.Partitions) ∧
      ∃ t, new [0xFFFFFFFFFFFFFFFF, 1] [0xFFFFFFFFFFFFFFFE, 7] = .ok t ∧ t.grid.count = 2 ∧
        t.Partitions := by
  constructor
  · have h := new_partitions [4, 0] [9, 0] rfl (by decide)
    exact ⟨_, rfl, rfl, (h.2 _ rfl).2.2⟩
  · have h := new_partitions [0xFFFFFFFFFFFFFFFF, 1] [0xFFFFFFFFFFFFFFFE, 7] rfl (by decide)
    exact ⟨_, rfl, rfl, (h.2 _ rfl).2.2⟩

end Tiling

end TiledTensor
