import TiledTensor.Handle
import TiledTensor.Op

/-!
# Codelets on whole buffers

Copying one buffer onto another, clearing a buffer, and mixing several buffers into one. A codelet
that is given the wrong number of buffers does nothing.
-/

namespace TiledTensor.Codelet

variable {α : Type} [Scalar α]

/-- Copies the first buffer onto the second, as far as both reach. -/
def copy : Codelet α
  | [src, dst] => do
    let block ← src.elements
    return [src, ← dst.update fun old => .ok (overlay block old)]
  | views => .ok views

/-- Fills the buffer with zeros. -/
def clear : Codelet α
  | [out] => do return [← out.update fun old => .ok (old.map fun _ => Scalar.zero)]
  | views => .ok views

/-- The bits of the element at position `i`, zero past the end. -/
def bitsAt (i : Nat) (block : List α) : Nat :=
  match block[i]? with
  | some x => Scalar.toBits x
  | none => 0

/-- Element `i` of the last buffer becomes three times itself, plus `c`, plus the elements `i` of
the other buffers, all on bit patterns. -/
def mixElement (c : Nat) (inputs : List (List α)) (x : α) (i : Nat) : α :=
  Scalar.ofBits ((inputs.map (bitsAt i)).foldl (· + ·) (Scalar.toBits x * 3 + c))

/-- Mixes all buffers into the last one. -/
def mix (c : Nat) : Codelet α := fun views =>
  match views.reverse with
  | [] => .ok []
  | out :: others => do
    let inputs ← others.reverse.mapM View.elements
    let out ← out.update fun old => .ok (old.zipIdx.map fun (x, i) => mixElement c inputs x i)
    return others.reverse ++ [out]

end TiledTensor.Codelet
