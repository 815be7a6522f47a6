import TiledTensor.Element
import TiledTensor.TaskGraph

/-!
# Operations on buffers

An operation names the buffers that it works on, with the access mode of each, and carries its
codelet: the function from the contents of the buffers before to the contents after. A codelet sees
nothing but its buffers, and what it returns for a buffer that it may only read is dropped.
-/

namespace TiledTensor

/-- One buffer of an operation. -/
inductive Operand
  | data (h : HandleId) (access : Access)
  /-- Zeroed memory for one execution. -/
  | scratch (bytes : Nat)
  deriving DecidableEq

/-- The access to the data buffer of an operand, if it is one. -/
def Operand.use? : Operand → Option (HandleId × Access)
  | .data h a => some (h, a)
  | .scratch _ => none

/-- A buffer as a codelet finds it. -/
inductive View (α : Type)
  | shared (block : List α)
  | exclusive (block : List α)
  | scratch (bytes : Nat)
  deriving DecidableEq

namespace View

variable {α : Type} [Scalar α]

/-- The elements of a buffer. -/
def elements : View α → Except Fault (List α)
  | shared block => .ok block
  | exclusive block => .ok block
  | scratch bytes =>
    if bytes % Scalar.size α = 0 then .ok (List.replicate (bytes / Scalar.size α) Scalar.zero)
    else .error .unevenBytes

/-- Changes the elements of a buffer. What is written to scratch memory is not kept: nothing reads
it after the codelet. -/
def update (v : View α) (f : List α → Except Fault (List α)) : Except Fault (View α) :=
  match v with
  | shared _ => .error .lockedForReading
  | exclusive block => do return exclusive (← f block)
  | scratch bytes => do
    let _ ← f (← elements (scratch bytes : View α))
    return scratch bytes

end View

/-- What an operation does to its buffers. -/
abbrev Codelet (α : Type) := List (View α) → Except Fault (List (View α))

/-- An operation with its buffers. -/
structure Op (α : Type) where
  name : String
  operands : List Operand
  codelet : Codelet α

/-- The accesses of an operation to data buffers, in the order of its operands. -/
def Op.uses {α : Type} (op : Op α) : List (HandleId × Access) := op.operands.filterMap Operand.use?

end TiledTensor
