import TiledTensor.Shape

/-!
# Access modes

A task declares for each of its buffers how it uses it. Reads may share a buffer; a write excludes
every other access. Scratch memory belongs to one execution of one task and orders nothing.
-/

namespace TiledTensor

/-- How a task uses one of its buffers. -/
inductive Access
  | read | write | readWrite | scratch
  deriving DecidableEq

namespace Access

def text : Access → String
  | read => "Read" | write => "Write" | readWrite => "ReadWrite" | scratch => "Scratch"

/-- The access may change the buffer. -/
def writes : Access → Bool
  | write | readWrite => true
  | read | scratch => false

/-- Modes in the order of the list above. -/
def level : Access → Nat
  | read => 0 | write => 1 | readWrite => 2 | scratch => 3

end Access

end TiledTensor
