import TiledTensor.Handle
import TiledTensor.Op

/-!
# Copying a sub-box

A sub-box of one buffer is copied onto a sub-box of another, row by row: along the first dimension
the elements are contiguous in both buffers, and the other dimensions are walked through by two
odometers, one for each buffer, that move an offset along with their index. The scratch buffer has
room for the two indices.
-/

namespace TiledTensor

/-- Two boxes of one shape, each with the strides of the buffer that it lies in. -/
structure SubBox where
  srcStart : Index
  srcStride : List Nat
  dstStart : Index
  dstStride : List Nat
  shape : Shape
  deriving DecidableEq

namespace SubBox

/-- Offsets of the first elements of the two boxes in their buffers. -/
def startOffsets (b : SubBox) : Except Fault (Nat × Nat) := do
  return (← Word.dot b.srcStart b.srcStride, ← Word.dot b.dstStart b.dstStride)

/-- One step of an odometer from dimension `j` on: the first dimension that stays below its end
moves on, those before it return to their start, and the offset follows by the strides. -/
def turn (start : Index) (shape : Shape) (stride : List Nat) :
    Nat → Index → Nat → Except Fault (Index × Nat)
  | _, [], offset => .ok ([], offset)
  | j, x :: index, offset =>
    match start[j]?, shape[j]?, stride[j]? with
    | some s, some d, some step => do
      let x ← Word.add x 1
      let offset ← Word.add offset step
      if x < (← Word.add s d) then return (x :: index, offset)
      else
        let offset ← Word.sub offset (← Word.mul d step)
        let (index, offset) ← turn start shape stride (j + 1) index offset
        return (s :: index, offset)
    | _, _, _ => .error .outOfBounds

/-- Moves an index and its offset to the next row. The first dimension stays where it is. -/
def advance (index : Index) (start : Index) (shape : Shape) (stride : List Nat) (offset : Nat) :
    Except Fault (Index × Nat) :=
  match index with
  | [] => .ok ([], offset)
  | x :: rest => do
    let (rest, offset) ← turn start shape stride 1 rest offset
    return (x :: rest, offset)

/-- The elements of `dst` with `n` of them, from position `dstAt` on, taken from `src` at `srcAt`
on. -/
def copyRow {α : Type} (src dst : List α) (n srcAt dstAt : Nat) : Except Fault (List α) := do
  let dstEnd ← Word.add dstAt n
  let srcEnd ← Word.add srcAt n
  if dstEnd ≤ dst.length ∧ srcEnd ≤ src.length then
    return dst.take dstAt ++ (src.drop srcAt).take n ++ dst.drop dstEnd
  else .error .outOfBounds

/-- Where a copy stands: the indices and offsets of both odometers, and the destination so far. -/
structure Progress (α : Type) where
  srcIndex : Index
  srcOffset : Nat
  dstIndex : Index
  dstOffset : Nat
  dst : List α

/-- Copies `rows` more rows. -/
def copyRows {α : Type} (b : SubBox) (row : Nat) (src : List α) :
    Nat → Progress α → Except Fault (Progress α)
  | 0, p => .ok p
  | rows + 1, p => do
    let dst ← copyRow src p.dst row p.srcOffset p.dstOffset
    let (srcIndex, srcOffset) ← advance p.srcIndex b.srcStart b.shape b.srcStride p.srcOffset
    let (dstIndex, dstOffset) ← advance p.dstIndex b.dstStart b.shape b.dstStride p.dstOffset
    copyRows b row src rows ⟨srcIndex, srcOffset, dstIndex, dstOffset, dst⟩

/-- Copies the box from `src` onto `dst` with room for `words` coordinates. The answer is the new
destination and what is left in that room. A scalar is copied by itself and an empty box not at
all, without using the room. -/
def copy {α : Type} (b : SubBox) (src dst : List α) (room : Except Fault (List Nat)) :
    Except Fault (List α × Option (List Nat)) :=
  match b.shape with
  | [] =>
    match src, dst with
    | x :: _, _ :: rest => .ok (x :: rest, none)
    | _, _ => .error .outOfBounds
  | row :: others =>
    if 0 ∈ b.shape then .ok (dst, none)
    else do
      let words ← room
      if words.length < b.shape.length then .error .outOfBounds
      else if b.srcStart.length ≠ b.shape.length
          ∨ b.dstStart.length ≠ words.length - b.shape.length then .error .unequalLengths
      else
        let rows ← Word.product others
        let (srcOffset, dstOffset) ← b.startOffsets
        let p ← copyRows b row src rows ⟨b.srcStart, srcOffset, b.dstStart, dstOffset, dst⟩
        return (p.dst, some (p.srcIndex ++ p.dstIndex))

end SubBox

namespace View

variable {α : Type} [Scalar α]

/-- A buffer as room for machine words. -/
def room : View α → Except Fault (List Nat)
  | shared _ => .error .lockedForReading
  | exclusive block =>
    let bytes := Scalar.encodeBlock block
    if bytes.length % 8 = 0 then
      .ok ((List.range (bytes.length / 8)).map fun i => ofBytes ((bytes.drop (8 * i)).take 8))
    else .error .unevenBytes
  | scratch bytes =>
    if bytes % 8 = 0 then .ok (List.replicate (bytes / 8) 0) else .error .unevenBytes

/-- Leaves machine words in a buffer that was used as room for them. -/
def leave (v : View α) (words : List Nat) : View α :=
  match v with
  | exclusive block =>
    exclusive (Scalar.decodeBlock block.length (words.flatMap (bytesOf 8)))
  | v => v

end View

/-- Copies a sub-box of the first buffer onto the second, with the third as room. -/
def Codelet.subBox {α : Type} [Scalar α] (b : SubBox) : Codelet α
  | [src, dst, scratch] => do
    let block ← src.elements
    match dst with
    | .shared _ => .error .lockedForReading
    | .exclusive old => do
      let (new, words) ← b.copy block old scratch.room
      return [src, .exclusive new, (words.map scratch.leave).getD scratch]
    | .scratch _ => do
      let (_, words) ← b.copy block (← dst.elements) scratch.room
      return [src, dst, (words.map scratch.leave).getD scratch]
  | views => .ok views

end TiledTensor
