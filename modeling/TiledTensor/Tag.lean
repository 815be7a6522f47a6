import TiledTensor.Word

/-!
# Tags

A tag names a tile across processes: the same tile carries the same tag on every rank. Tags are
handed out in runs, and a run that would pass the largest tag faults.
-/

namespace TiledTensor

/-- The name of a tile that all processes agree on. -/
structure Tag where
  val : Nat
  deriving DecidableEq

/-- The tags from `first` on, up to but not including `stop`. -/
structure TagRange where
  first : Tag
  stop : Tag
  deriving DecidableEq

namespace Tag

def text (t : Tag) : String := t.val.repr

/-- The tag `n` places after `t`. -/
def offset (t : Tag) (n : Nat) : Except Fault Tag := do
  return ⟨← Word.add t.val n⟩

end Tag

/-- The tag belongs to the range. -/
def TagRange.contains (r : TagRange) (t : Tag) : Bool :=
  decide (r.first.val ≤ t.val) && decide (t.val < r.stop.val)

end TiledTensor
