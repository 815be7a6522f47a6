import TiledTensor.Layout

/-!
# Regular tilings

A tiling cuts a shape into a grid of tiles. Every tile has the shape `basetile`, except that the
last tile along a dimension has the `leftover` extent there: what remains of the dimension, or a
full extent where nothing remains. Each dimension is decided on its own. A dimension of extent
zero has no tiles, and is the only one whose basetile extent may be zero.
-/

namespace TiledTensor

/-- Number of tiles along a dimension. -/
def Tiling.gridExtent (dim tile : Nat) : Nat := if dim = 0 then 0 else (dim + tile - 1) / tile

/-- Extent of the last tile along a dimension. -/
def Tiling.leftoverExtent (dim tile : Nat) : Nat :=
  if tile = 0 then 0 else if dim % tile = 0 then tile else dim % tile

/-- A shape cut into a grid of tiles. -/
structure Tiling where
  /-- The whole, uncut shape. -/
  whole : Layout
  basetile : Shape
  /-- The grid of tiles. -/
  grid : Layout
  ranks : whole.shape.length = basetile.length
  positive : ∀ p ∈ whole.shape.zip basetile, 0 < p.2 ∨ p.1 = 0
  cut : grid.shape = List.zipWith Tiling.gridExtent whole.shape basetile
  deriving DecidableEq

namespace Tiling

/-- The tiling of `shape` by `basetile`. -/
def new (shape basetile : Shape) : Except Fault Tiling :=
  if ranks : shape.length = basetile.length then
    if positive : ∀ p ∈ shape.zip basetile, 0 < p.2 ∨ p.1 = 0 then
      match hw : Layout.new shape, hg : Layout.new (List.zipWith gridExtent shape basetile) with
      | .ok whole, .ok grid =>
        have hs := Layout.shape_of_new hw
        .ok ⟨whole, basetile, grid, hs ▸ ranks, hs ▸ positive, hs ▸ Layout.shape_of_new hg⟩
      | .error f, _ => .error f
      | .ok _, .error f => .error f
    else .error (.emptyBasetile shape basetile)
  else .error (.tilingRanks shape basetile)

/-- Extents of the tiles that are last along a dimension. -/
def leftover (t : Tiling) : Shape := List.zipWith leftoverExtent t.whole.shape t.basetile

/-- Extents of the tile at grid coordinates `i`, dimension by dimension. -/
def extentsAt : Index → (grid basetile leftover : Shape) → Except Fault Shape
  | x :: i, g :: grid, b :: basetile, l :: leftover => do
    let d := if (← Word.add x 1) = g then l else b
    return d :: (← extentsAt i grid basetile leftover)
  | _, _, _, _ => .ok []

/-- Shape of the tile at grid coordinates `i`. -/
def tileShape (t : Tiling) (i : Index) : Except Fault Shape :=
  if t.grid.shape.contains i then extentsAt i t.grid.shape t.basetile t.leftover
  else .error (.tileOutOfGrid i t.grid.shape)

/-- Coordinates of the first element of the tile at grid coordinates `i`. -/
def tileStart (t : Tiling) (i : Index) : Except Fault Index :=
  if t.grid.shape.contains i then Word.mulEach i t.basetile
  else .error (.tileOutOfGrid i t.grid.shape)

/-- Layout of the tile with linear number `n` in the grid. -/
def tileLayout (t : Tiling) (n : Nat) : Except Fault Layout := do
  Layout.new (← t.tileShape (← t.grid.toIndex n))

/-- Coordinates of the first element of the tile with linear number `n`. -/
def tileStartAt (t : Tiling) (n : Nat) : Except Fault Index := do
  t.tileStart (← t.grid.toIndex n)

/-- One line of the description: number, grid coordinates and shape of a tile. -/
def tileLine (t : Tiling) (n : Nat) : Except Fault String := do
  let i ← t.grid.toIndex n
  let s ← t.tileShape i
  return "  " ++ n.repr ++ "\tindex=" ++ Shape.text i ++ "\tshape=" ++ s.text ++ "\n"

/-- A description of the tiling: its shapes, then one line for each tile. -/
def text (t : Tiling) : Except Fault String := do
  let lines ← (List.range t.grid.count).mapM t.tileLine
  return "ndim=" ++ t.whole.shape.length.repr ++ "\nshape=" ++ t.whole.shape.text
    ++ "\nbasetile=" ++ t.basetile.text ++ "\nleftover=" ++ t.leftover.text
    ++ "\ngrid=" ++ t.grid.shape.text ++ "\ntiles\n" ++ String.join lines

end Tiling

end TiledTensor
