import TiledTensor.Word

/-!
# Walking through a box

A box is the set of multi-indices between a start and the start plus a shape. A walk visits them
one after the other like an odometer, the first dimension varying fastest. A box with an extent of
zero has no index; the box of rank zero has one.

The end of each dimension is computed when the odometer turns it, so a box that reaches beyond the
range of words is walked up to the first turn of such a dimension and faults there.
-/

namespace TiledTensor

/-- A walk through the box at `start`: the next index to visit, if there is one left. -/
structure BoxWalk where
  start : Index
  shape : Shape
  current : Option Index
  deriving DecidableEq

/-- How a bounded walk ended. -/
inductive BoxWalk.Ending
  /-- Every index of the box has been visited. -/
  | finished
  /-- The bound was reached first. -/
  | cut
  | faulted (f : Fault)
  deriving DecidableEq

namespace BoxWalk

/-- A walk that has not visited any index yet. -/
def new (start : Index) (shape : Shape) : Except Fault BoxWalk :=
  if start.length ≠ shape.length then .error .boxRanks
  else .ok ⟨start, shape, if 0 ∈ shape then none else some start⟩

/-- The odometer step from `current`: the first dimension that stays below its end moves on and
those before it return to their start. Carrying out of the last dimension leaves nothing. -/
def successor : Index → Index → Shape → Except Fault (Option Index)
  | x :: current, s :: start, d :: shape => do
    let x ← Word.add x 1
    if x < (← Word.add s d) then return some (x :: current)
    else return (← successor current start shape).map (s :: ·)
  | _, _, _ => .ok none

/-- The index to visit and the rest of the walk. -/
def next (w : BoxWalk) : Except Fault (Option (Index × BoxWalk)) :=
  match w.current with
  | none => .ok none
  | some i => do
    let following ← successor i w.start w.shape
    return some (i, { w with current := following })

/-- The indices visited by at most `n` steps. -/
def take : Nat → BoxWalk → List Index × Ending
  | 0, _ => ([], .cut)
  | n + 1, w =>
    match w.next with
    | .error f => ([], .faulted f)
    | .ok none => ([], .finished)
    | .ok (some (i, rest)) =>
      let (visited, ending) := take n rest
      (i :: visited, ending)

end BoxWalk

/-- All indices of a box, in the order of the walk. One step more than the box has indices is
enough to see the end. -/
def Shape.indicesFrom (start : Index) (shape : Shape) : Trail Index :=
  match BoxWalk.new start shape with
  | .error f => .stopped f
  | .ok w =>
    match w.take (shape.foldl (· * ·) 1 + 1) with
    | (visited, .faulted f) => ⟨visited, some f⟩
    | (visited, _) => ⟨visited, none⟩

end TiledTensor
