import TiledTensor.Node

/-!
# Using an accessor

An accessor that has been granted lets its holder open one buffer, read it, and write it if that is
what it was asked for. The grant lasts until the accessor is released, and no conflicting task
starts before.
-/

namespace TiledTensor.Node

variable {α : Type} [Scalar α]

/-- Opens the buffer of an accessor, allocating it first where there is none. -/
def enter (n : Node α) (a : Accessor) : Node α × Except Fault (List α) := n.openHandle a.handle

/-- The elements that an accessor shows. -/
def shown (n : Node α) (a : Accessor) : List α := (n.handle a.handle).contents

/-- Writes the first elements of the buffer of an accessor. -/
def write (n : Node α) (a : Accessor) (block : List α) : Except Fault (Node α) :=
  if a.access.writes then .ok (n.setHandle a.handle ((n.handle a.handle).store block))
  else .error .lockedForReading

/-- Writes one element of the buffer of an accessor. -/
def writeAt (n : Node α) (a : Accessor) (place : Nat) (x : α) : Except Fault (Node α) :=
  if a.access.writes = false then .error .lockedForReading
  else if place < (n.shown a).length then n.write a ((n.shown a).set place x)
  else .error .outOfBounds

end TiledTensor.Node
