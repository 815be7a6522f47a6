import TiledTensor.Node
import TiledTensor.Tiling

/-!
# Tiles and tensors

A tile is a block of elements with a layout and a handle. A tensor is a grid of tiles spread over
the ranks of a world. Every rank makes the same tensor from the same tiling, owners and first tag,
and its tile `n` carries the tag `n` places after the first one on every rank.
-/

namespace TiledTensor

/-- Why a tensor, a tile or a collective call was refused. -/
inductive TensorError
  | ranks (left right : Nat)
  | shapes (left right : Shape)
  | notSingleTile (grid : Shape)
  | distribution (owners tiles : Nat)
  | ownerOutside (tile : Nat) (owner : Rank) (size : Nat)
  | offsets (given ndim : Nat)
  | capacity (given needed : Nat)
  deriving DecidableEq

def TensorError.text : TensorError → String
  | ranks left right =>
    "tensor rank error: " ++ left.repr ++ " dimensions mismatch " ++ right.repr
  | shapes left right =>
    "tensor shape error: shape " ++ left.text ++ " mismatches " ++ right.text
  | notSingleTile grid =>
    "tensor grid error: expected a single tile, found grid " ++ grid.text
  | distribution owners tiles =>
    "tensor distribution error: " ++ owners.repr ++ " owners given for " ++ tiles.repr ++ " tiles"
  | ownerOutside tile owner size =>
    "tensor distribution error: tile " ++ tile.repr ++ " owned by rank " ++ owner.repr
      ++ " outside a world of size " ++ size.repr
  | offsets given ndim =>
    "tensor offset error: " ++ given.repr ++ " offsets given for " ++ ndim.repr ++ " dimensions"
  | capacity given needed =>
    "tile creation error: buffer of " ++ given.repr ++ " elements cannot back a tile of "
      ++ needed.repr

/-- Every way in which a call can fail. -/
inductive Failure
  | fault (f : Fault)
  | comm (e : CommError)
  | task (e : TaskError)
  | tensor (e : TensorError)
  deriving DecidableEq

/-- The wording of a failure, given the names of the buffers. -/
def Failure.text (name : HandleId → String) : Failure → Option String
  | fault f => f.message
  | comm e => some e.text
  | task e => some (e.text name)
  | tensor e => some e.text

/-- A block of elements with the handle of its buffer. -/
structure Tile where
  layout : Layout
  handle : HandleId
  owner : Rank
  deriving DecidableEq

/-- A grid of tiles, as one rank sees it. -/
structure Tensor where
  tiling : Tiling
  /-- The tag of the first tile. -/
  tag : Tag
  tiles : List Tile
  deriving DecidableEq

namespace Tensor

/-- What a tile of a tensor is made from. -/
structure Blueprint where
  layout : Layout
  owner : Rank
  tag : Tag
  deriving DecidableEq

/-- The tiles from number `n` on, one for each owner. -/
def blueprintsFrom (tiling : Tiling) (first : Tag) : Nat → List Rank → Except Fault (List Blueprint)
  | _, [] => .ok []
  | n, owner :: owners => do
    let layout ← tiling.tileLayout n
    let tag ← first.offset n
    return ⟨layout, owner, tag⟩ :: (← blueprintsFrom tiling first (n + 1) owners)

/-- The tiles of a tensor whose tags start at `first`, and the first tag after them. -/
def design (tiling : Tiling) (owners : List Rank) (first : Tag) :
    Except Fault (List Blueprint × Tag) := do
  let tiles ← blueprintsFrom tiling first 0 owners
  return (tiles, ← first.offset owners.length)

/-- What is wrong with a list of owners. -/
def misplaced (tiling : Tiling) (owners : List Rank) (size : Nat) : Option TensorError :=
  if owners.length ≠ tiling.grid.count then some (.distribution owners.length tiling.grid.count)
  else (owners.zipIdx.find? fun p => decide (size ≤ p.1)).map fun p => .ownerOutside p.2 p.1 size

def shape (t : Tensor) : Shape := t.tiling.whole.shape

def ndim (t : Tensor) : Nat := t.shape.length

/-- The owner of every tile, in grid order. -/
def owners (t : Tensor) : List Rank := t.tiles.map (·.owner)

/-- The tile with a linear number. -/
def tile (t : Tensor) (n : Nat) : Except Fault Tile :=
  match t.tiles[n]? with
  | some tile => .ok tile
  | none => .error .outOfBounds

end Tensor

namespace Node

variable {α : Type} [Scalar α]

/-- Makes the tiles of a tensor on this rank. -/
def addTiles (n : Node α) : List Tensor.Blueprint → Node α × List Tile
  | [] => (n, [])
  | b :: bs =>
    let (n, h) := n.addHandle (.new b.layout.count b.owner (some b.tag))
    let (n, tiles) := n.addTiles bs
    (n, ⟨b.layout, h, b.owner⟩ :: tiles)

/-- Makes a tensor with given owners. The answer has the first tag after those of the tensor.
Nothing is made where the owners do not fit or a tag would pass the last one. -/
def makeTensor (n : Node α) (tiling : Tiling) (owners : List Rank) (first : Tag) :
    Except Failure (Node α × Tensor × Tag) :=
  match Tensor.misplaced tiling owners n.size with
  | some e => .error (.tensor e)
  | none =>
    match Tensor.design tiling owners first with
    | .error f => .error (.fault f)
    | .ok (blueprints, next) =>
      let (n, tiles) := n.addTiles blueprints
      .ok (n, ⟨tiling, first, tiles⟩, next)

/-- Makes a tensor that this rank owns alone. -/
def makeLocalTensor (n : Node α) (tiling : Tiling) (first : Tag) :
    Except Failure (Node α × Tensor × Tag) :=
  match Tensor.design tiling (List.replicate tiling.grid.count n.rank) first with
  | .error f => .error (.fault f)
  | .ok (blueprints, next) =>
    let (n, tiles) := n.addTiles blueprints
    .ok (n, ⟨tiling, first, tiles⟩, next)

/-- Gives up a tensor: its tags are retired after every task on its tiles. -/
def dropTensor (n : Node α) (t : Tensor) : Node α :=
  match t.tag.offset t.tiles.length with
  | .ok stop => n.retire (t.tiles.map (·.handle)) ⟨t.tag, stop⟩
  | .error _ => n

/-- Makes a tile that this rank owns, without memory. -/
def makeTile (n : Node α) (layout : Layout) : Node α × Tile :=
  let (n, h) := n.addHandle (.new layout.count n.rank none)
  (n, ⟨layout, h, n.rank⟩)

/-- Makes a tile that this rank owns from the first elements of a list. -/
def makeTileOf (n : Node α) (layout : Layout) (data : List α) :
    Except TensorError (Node α × Tile) :=
  if data.length < layout.count then .error (.capacity data.length layout.count)
  else
    let (n, h) := n.addHandle (.ofBlock (data.take layout.count) n.rank)
    .ok (n, ⟨layout, h, n.rank⟩)

end Node

end TiledTensor
