import TiledTensor.Box
import TiledTensor.Codelet.SubBox
import TiledTensor.Codelet.Whole
import TiledTensor.Overlap
import TiledTensor.Tensor

/-!
# Copies between tensors

A collective call is made on every rank alike. Each rank derives from the geometry of the tensors
alone what it has to do: which buffers to transfer where, which operations to submit, and which
copies to declare invalid. That list is a script, and `Node.perform` carries it out.

For each destination tile every source tile that overlaps it is transferred to the owner of the
destination tile, which copies the shared box. The first copy onto a tile may ignore what the tile
held if the source box covers the tile, since then the copies together replace all of it. After the
last copy the other ranks drop their copies of the tile.
-/

namespace TiledTensor

/-! ## Scripts -/

/-- One call to the runtime of a rank. -/
inductive Call (α : Type)
  | transfer (h : HandleId) (target : Rank)
  | submit (op : Op α)
  | flush (h : HandleId)

/-- Calls in order, and the failure that ends them, if one does. -/
structure Script (α : Type) where
  calls : List (Call α) := []
  failure : Option Failure := none

namespace Script

variable {α : Type}

def fail (e : Failure) : Script α := { failure := some e }

def ofError (e : TensorError) : Script α := fail (.tensor e)

/-- Goes on with what was computed, unless that faulted. -/
def bind {β : Type} (r : Except Fault β) (k : β → Script α) : Script α :=
  match r with
  | .ok b => k b
  | .error f => fail (.fault f)

/-- One script after the other, unless the first one fails. -/
def append (s t : Script α) : Script α :=
  match s.failure with
  | none => ⟨s.calls ++ t.calls, t.failure⟩
  | some _ => s

instance : Append (Script α) := ⟨append⟩

end Script

namespace Node

variable {α : Type} [Scalar α]

/-- Makes one call. -/
def call (n : Node α) : Call α → Node α × Except TaskError Unit
  | .transfer h target => n.transfer h target
  | .submit op => n.submit op
  | .flush h => n.flush h

/-- Makes calls up to the first that fails. -/
def callAll (n : Node α) : List (Call α) → Node α × Except TaskError Unit
  | [] => (n, .ok ())
  | c :: calls =>
    match n.call c with
    | (n, .ok ()) => n.callAll calls
    | (n, .error e) => (n, .error e)

/-- Carries out a script. What was done before a failure stays done. -/
def perform (n : Node α) (s : Script α) : Node α × Except Failure Unit :=
  match n.callAll s.calls with
  | (n, .error e) => (n, .error (.task e))
  | (n, .ok ()) =>
    match s.failure with
    | none => (n, .ok ())
    | some e => (n, .error e)

end Node

/-! ## The operations of a copy -/

namespace Op

variable {α : Type} [Scalar α]

/-- Copies all of one tile onto another. -/
def copy (src dst : Tile) : Op α :=
  ⟨"copy", [.data src.handle .read, .data dst.handle .write], Codelet.copy⟩

/-- The sub-boxes of an overlap in the buffers of two tiles. -/
def boxOf (src dst : Tile) (plan : Overlap) : SubBox :=
  ⟨plan.srcStart, src.layout.stride, plan.dstStart, dst.layout.stride, plan.shape⟩

/-- Copies the overlap of two tiles. The destination is written or, in any other mode, read and
written; the room is for two multi-indices. -/
def copyOverlap (src dst : Tile) (plan : Overlap) (access : Access) : Op α :=
  ⟨"copy_intersection",
    [.data src.handle .read,
      .data dst.handle (if access = .write then .write else .readWrite),
      .scratch (2 * plan.shape.length * 8)],
    Codelet.subBox (boxOf src dst plan)⟩

/-- Fills a tile with zeros. -/
def clear (tile : Tile) : Op α := ⟨"clear", [.data tile.handle .write], Codelet.clear⟩

end Op

/-! ## Planning one destination tile -/

/-- A copy from one source tile to a destination tile. -/
structure TileCopy where
  /-- Linear number of the source tile. -/
  source : Nat
  plan : Overlap
  access : Access
  deriving DecidableEq

namespace Tiling

/-- The copy from the tile at grid coordinates `i` of a source placed at `srcAt` onto a box. -/
def copyFrom (src : Tiling) (srcAt dstAt : Index) (dstShape : Shape) (i : Index) :
    Except Fault (Option (Nat × Overlap)) := do
  let n ← src.grid.toLinear i
  let tileAt ← Word.addEach srcAt (← src.tileStartAt n)
  return (← Overlap.between tileAt (← src.tileShape i) dstAt dstShape).map fun plan => (n, plan)

/-- The copies from the tiles at some grid coordinates, in order. The first copy may write a tile
that is `covered`. -/
def copiesFrom (src : Tiling) (srcAt dstAt : Index) (dstShape : Shape) :
    (covered : Bool) → List Index → Trail TileCopy
  | _, [] => ⟨[], none⟩
  | covered, i :: rest =>
    match src.copyFrom srcAt dstAt dstShape i with
    | .error f => .stopped f
    | .ok none => src.copiesFrom srcAt dstAt dstShape covered rest
    | .ok (some (n, plan)) =>
      let access := if plan.covers || covered then .write else .readWrite
      (src.copiesFrom srcAt dstAt dstShape false rest).cons ⟨n, plan, access⟩

/-- First tile and number of tiles that an overlap reaches along each dimension. -/
def reach : (start : Index) → (extent basetile : Shape) → Except Fault (Index × Shape)
  | s :: start, d :: extent, b :: basetile => do
    let first ← Word.div s b
    let last ← Word.div (← Word.sub (← Word.add s d) 1) b
    let count ← Word.add (← Word.sub last first) 1
    let (firsts, counts) ← reach start extent basetile
    return (first :: firsts, count :: counts)
  | _, _, _ => .ok ([], [])

/-- All copies from a source placed at `srcAt` onto the box of shape `dstShape` at `dstAt`; nothing
where they do not overlap. -/
def copiesOnto (src : Tiling) (srcAt dstAt : Index) (dstShape : Shape) :
    Except Fault (Option (Trail TileCopy)) := do
  match ← Overlap.between srcAt src.whole.shape dstAt dstShape with
  | none => return none
  | some overlap =>
    let (first, count) ← reach overlap.srcStart overlap.shape src.basetile
    let box := Shape.indicesFrom first count
    return some ((src.copiesFrom srcAt dstAt dstShape overlap.covers box.items).append
      ⟨[], box.fault⟩)

end Tiling

namespace Tensor

variable {α : Type} [Scalar α]

/-- An operation that only the owner of a tile submits. -/
def onOwner (rank : Rank) (tile : Tile) (op : Op α) : List (Call α) :=
  if rank = tile.owner then [.submit op] else []

/-! ## Tile by tile -/

/-- Copies tiles onto their counterparts, on the owners of these. -/
def copyTilesScript (rank : Rank) : List Tile → List Tile → Script α
  | [], [] => {}
  | s :: src, d :: dst =>
    ⟨.transfer s.handle d.owner :: onOwner rank d (Op.copy s d) ++ [.flush d.handle], none⟩
      ++ copyTilesScript rank src dst
  | _, _ => .fail (.fault .unequalLengths)

/-! ## Through overlaps -/

/-- One copy onto a destination tile: the source is transferred to the owner, which copies. -/
def copyCalls (rank : Rank) (src : Tensor) (d : Tile) (c : TileCopy) : Script α :=
  .bind (src.tile c.source) fun s =>
    ⟨.transfer s.handle d.owner :: onOwner rank d (Op.copyOverlap s d c.plan c.access), none⟩

/-- All copies onto one destination tile, then its flush. -/
def tileScript (rank : Rank) (src : Tensor) (srcAt : Index) (dstTiling : Tiling) (dstAt : Index)
    (n : Nat) (d : Tile) : Script α :=
  .bind (dstTiling.tileStartAt n) fun start =>
  .bind (Word.addEach dstAt start) fun tileAt =>
  .bind (src.tiling.copiesOnto srcAt tileAt d.layout.shape) fun
    | none => {}
    | some copies =>
      copies.items.foldr (fun c rest => copyCalls rank src d c ++ rest)
        (match copies.fault with
          | none => ⟨[.flush d.handle], none⟩
          | some f => .fail (.fault f))

/-- The destination tiles in grid order. -/
def tilesScript (rank : Rank) (src : Tensor) (srcAt : Index) (dst : Tensor) (dstAt : Index) :
    Script α :=
  dst.tiles.zipIdx.foldr
    (fun p rest => tileScript rank src srcAt dst.tiling dstAt p.2 p.1 ++ rest) {}

/-- What is wrong with the ranks of two blocks and of the offsets that they are placed at. -/
def mismatch (srcNdim : Nat) (srcAt : Index) (dstNdim : Nat) (dstAt : Index) : Option TensorError :=
  if srcNdim ≠ dstNdim then some (.ranks srcNdim dstNdim)
  else if srcAt.length ≠ dstNdim then some (.offsets srcAt.length dstNdim)
  else if dstAt.length ≠ dstNdim then some (.offsets dstAt.length dstNdim)
  else none

/-! ## The collective calls -/

/-- Copies the part of `src` that overlaps `dst`, with both placed in one coordinate system. What
lies outside the overlap keeps its value. -/
def copyIntersection (rank : Rank) (src : Tensor) (srcAt : Index) (dst : Tensor) (dstAt : Index) :
    Script α :=
  match mismatch src.ndim srcAt dst.ndim dstAt with
  | some e => .ofError e
  | none =>
    if dst.ndim = 0 then copyTilesScript rank src.tiles dst.tiles
    else
      .bind (Overlap.between srcAt src.shape dstAt dst.shape) fun
        | none => {}
        | some _ => tilesScript rank src srcAt dst dstAt

/-- Copies onto a tensor of the same shape and any tiling. -/
def copyTo (rank : Rank) (src dst : Tensor) : Script α :=
  if src.ndim ≠ dst.ndim then .ofError (.ranks src.ndim dst.ndim)
  else if src.shape ≠ dst.shape then .ofError (.shapes src.shape dst.shape)
  else if src.tiling.basetile = dst.tiling.basetile then copyTilesScript rank src.tiles dst.tiles
  else
    let origin := List.replicate src.ndim 0
    copyIntersection rank src origin dst origin

/-- Collects a tensor in the single tile of another. -/
def gather (rank : Rank) (src dst : Tensor) : Script α :=
  if dst.tiling.grid.count ≠ 1 then .ofError (.notSingleTile dst.tiling.grid.shape)
  else copyTo rank src dst

/-- Spreads the single tile of a tensor over the tiles of another. -/
def scatter (rank : Rank) (src dst : Tensor) : Script α :=
  if src.tiling.grid.count ≠ 1 then .ofError (.notSingleTile src.tiling.grid.shape)
  else copyTo rank src dst

/-- Fills a tensor with zeros. Each rank clears the tiles that it owns. -/
def clear (rank : Rank) (t : Tensor) : Script α :=
  ⟨t.tiles.flatMap fun tile => onOwner rank tile (Op.clear tile) ++ [.flush tile.handle], none⟩

end Tensor

/-- Copies the part of one tile that overlaps another, with both placed in one coordinate system.
Tiles that do not overlap are left alone. -/
def Tile.copyIntersection {α : Type} [Scalar α] (src : Tile) (srcAt : Index) (dst : Tile)
    (dstAt : Index) : Script α :=
  let ndim := dst.layout.shape.length
  match Tensor.mismatch src.layout.shape.length srcAt ndim dstAt with
  | some e => .ofError e
  | none =>
    if ndim = 0 then ⟨[.submit (Op.copy src dst)], none⟩
    else
      .bind (Overlap.between srcAt src.layout.shape dstAt dst.layout.shape) fun
        | none => {}
        | some plan =>
          let access := if plan.covers then .write else .readWrite
          ⟨[.submit (Op.copyOverlap src dst plan access)], none⟩

end TiledTensor
