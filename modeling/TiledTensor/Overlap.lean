import TiledTensor.Word

/-!
# The overlap of two boxes

Two boxes placed in one coordinate system share a box or nothing. The overlap is described twice,
in the coordinates of the source box and in those of the destination box.
-/

namespace TiledTensor

/-- The box shared by a source box and a destination box. -/
structure Overlap where
  /-- Where the shared box starts in the source box. -/
  srcStart : Index
  /-- Where the shared box starts in the destination box. -/
  dstStart : Index
  shape : Shape
  /-- The shared box is the whole destination box. -/
  covers : Bool
  deriving DecidableEq

namespace Overlap

/-- The overlap along one dimension: both starts and the extent. -/
def axis (srcAt srcLen dstAt dstLen : Nat) : Except Fault (Option (Nat × Nat × Nat)) := do
  let lo := max srcAt dstAt
  let hi := min (← Word.add srcAt srcLen) (← Word.add dstAt dstLen)
  return if hi ≤ lo then none else some (lo - srcAt, lo - dstAt, hi - lo)

/-- The overlaps of all dimensions. The first dimension without one decides: those after it are
not looked at. -/
def axes : (srcAt : Index) → (srcLen : Shape) → (dstAt : Index) → (dstLen : Shape) →
    Except Fault (Option (List (Nat × Nat × Nat)))
  | sa :: srcAt, sl :: srcLen, da :: dstAt, dl :: dstLen => do
    match ← axis sa sl da dl with
    | none => return none
    | some a => return (← axes srcAt srcLen dstAt dstLen).map (a :: ·)
  | _, _, _, _ => .ok (some [])

/-- The overlap of the box of shape `srcShape` at `srcAt` with the box of shape `dstShape` at
`dstAt`; nothing where the boxes have no common index. -/
def between (srcAt : Index) (srcShape : Shape) (dstAt : Index) (dstShape : Shape) :
    Except Fault (Option Overlap) :=
  if srcAt.length = dstShape.length ∧ srcShape.length = dstShape.length
      ∧ dstAt.length = dstShape.length then do
    return (← axes srcAt srcShape dstAt dstShape).map fun as =>
      let shape := as.map (·.2.2)
      ⟨as.map (·.1), as.map (·.2.1), shape, shape == dstShape⟩
  else .error .overlapRanks

/-- Number of shared elements. -/
def count (o : Overlap) : Except Fault Nat := Word.product o.shape

end Overlap

end TiledTensor
