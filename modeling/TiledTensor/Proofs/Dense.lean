import TiledTensor.Collective
import TiledTensor.Proofs.Region
import TiledTensor.Proofs.Serial

/-!
# Collective calls on dense arrays

A dense array has an element for every multi-index, and knows nothing of tiles, owners and
transfers. On dense arrays the collective calls are what they are meant to be: a copy of an array, a
copy of the elements that two arrays share when both are placed in one coordinate system, and an
array of zeros. `Collective.apply` is this meaning, and `Tensor.Holds` says that the tiles of a
tensor hold the elements of an array.
-/

namespace TiledTensor

/-- The coordinates of a place as they are seen from another. -/
def Index.minus (i a : Index) : Index := List.zipWith (· - ·) i a

theorem Index.plus_minus {a i : Index} (h : i.length = a.length) : (a.plus i).minus a = i := by
  induction a generalizing i with
  | nil =>
    rw [List.length_eq_zero_iff.mp h]
    rfl
  | cons x a ih =>
    cases i with
    | nil => cases h
    | cons y i =>
      rw [Region.plus_cons]
      show (x + y - x) :: Index.minus (Index.plus a i) a = _
      rw [ih (by simpa using h), Nat.add_sub_cancel_left]

variable {α : Type}

/-! ## Blocks and tensors -/

/-- A block holds the elements of an array. -/
def Layout.Holds (l : Layout) (block : List α) (x : Index → α) : Prop :=
  block.length = l.count ∧ ∀ y, l.shape.contains y = true →
    ∃ k, l.toLinear y = .ok k ∧ block[k]? = some (x y)

theorem Layout.holds_iff {l : Layout} {block : List α} {x : Index → α} :
    l.Holds block x ↔ block.length = l.count ∧ ∀ y, l.shape.contains y = true →
      block[l.shape.position y]? = some (x y) := by
  refine and_congr_right fun _ => forall_congr' fun y => forall_congr' fun hy => ?_
  rw [toLinear_eq hy]
  simp

/-- A block holds an array if it lists the elements of the array in linear order. -/
theorem Layout.holds_iff_eq {l : Layout} {block : List α} {x : Index → α} :
    l.Holds block x ↔ block = (List.range l.count).map fun k => x (l.shape.digitsOf k) := by
  rw [holds_iff]
  constructor
  · rintro ⟨hlen, hheld⟩
    refine List.ext_getElem (by simp [hlen]) fun k hk hk' => ?_
    have hprod : k < l.shape.prod := by rwa [← l.count_eq.1, ← hlen]
    have hplace := hheld _ (Shape.contains_digitsOf hprod)
    rw [Shape.position_digitsOf hprod, List.getElem?_eq_getElem hk] at hplace
    simpa using hplace
  · rintro rfl
    refine ⟨by simp, fun y hy => ?_⟩
    rw [List.getElem?_map, List.getElem?_range (l.position_lt_count hy)]
    exact congrArg (fun y => some (x y)) (Shape.digitsOf_position hy)

/-- The tile of a tensor with a linear number has a block, which holds its elements of an array. -/
def Tensor.TileHolds (t : Tensor) (n : Nat) (tile : Tile) (held : Option (List α)) (x : Index → α) :
    Prop :=
  ∃ start block, t.tiling.tileStartAt n = .ok start ∧ held = some block ∧
    tile.layout.Holds block fun y => x (start.plus y)

/-- The tiles of a tensor, as their owners show them, hold the elements of an array. -/
def Tensor.Holds (t : Tensor) (shows : Rank → Store α) (x : Index → α) : Prop :=
  ∀ (n : Nat) tile, t.tiles[n]? = some tile → t.TileHolds n tile (shows tile.owner tile.handle) x

/-! ## The calls -/

/-- A collective call, with the tensors that it is about. -/
inductive Collective (ι : Type)
  | copyTo (src dst : ι)
  | copyIntersection (src : ι) (srcAt : Index) (dst : ι) (dstAt : Index)
  | gather (src dst : ι)
  | scatter (src dst : ι)
  | clear (dst : ι)
  deriving DecidableEq

/-- The elements of an array with those replaced that it shares with another one, when both are
placed in one coordinate system. -/
def copyBox (shape : Shape) (srcAt : Index) (x : Index → α) (dstAt : Index) (y : Index → α) :
    Index → α := fun i =>
  if dstAt.plus i ∈ (⟨srcAt, shape⟩ : Region) then x ((dstAt.plus i).minus srcAt) else y i

namespace Collective

variable {ι : Type}

/-- The two tensors of a call are different. -/
def Distinct : Collective ι → Prop
  | copyTo s d | copyIntersection s _ d _ | gather s d | scatter s d => s ≠ d
  | clear _ => True

/-- The tensor that a call changes. -/
def target : Collective ι → ι
  | copyTo _ d | copyIntersection _ _ d _ | gather _ d | scatter _ d | clear d => d

/-- The tensor that a call reads, if it reads one. -/
def source : Collective ι → ι
  | copyTo s _ | copyIntersection s _ _ _ | gather s _ | scatter s _ | clear s => s

variable [Scalar α]

/-- What a rank does for a call. -/
def script (rank : Rank) (t : ι → Tensor) : Collective ι → Script α
  | copyTo s d => Tensor.copyTo rank (t s) (t d)
  | copyIntersection s srcAt d dstAt => Tensor.copyIntersection rank (t s) srcAt (t d) dstAt
  | gather s d => Tensor.gather rank (t s) (t d)
  | scatter s d => Tensor.scatter rank (t s) (t d)
  | clear d => Tensor.clear rank (t d)

/-- What a call makes of the array `y` that it changes and the array `x` that it reads. Where the
call is refused the array stays as it is. -/
def result (t : ι → Tensor) (x y : Index → α) : Collective ι → Index → α
  | copyTo s d => if (t s).shape = (t d).shape then x else y
  | copyIntersection s srcAt d dstAt =>
    if Tensor.mismatch (t s).ndim srcAt (t d).ndim dstAt = none then
      copyBox (t s).shape srcAt x dstAt y
    else y
  | gather s d => if (t d).tiling.grid.count = 1 ∧ (t s).shape = (t d).shape then x else y
  | scatter s d => if (t s).tiling.grid.count = 1 ∧ (t s).shape = (t d).shape then x else y
  | clear _ => fun _ => Scalar.zero

/-- What a call does to the dense arrays. -/
def apply [DecidableEq ι] (t : ι → Tensor) (m : ι → Index → α) (c : Collective ι) :
    ι → Index → α :=
  fun i => if i = c.target then c.result t (m c.source) (m c.target) else m i

end Collective

end TiledTensor
