/-!
# Shapes and multi-indices

A shape lists the extents of a block and a multi-index the coordinates of one element, both with
the fastest varying dimension first. The empty shape is a scalar: it has no dimension and exactly
one element.
-/

namespace TiledTensor

/-- Extents of a block, fastest varying dimension first. -/
abbrev Shape := List Nat

/-- Coordinates of one element, in the order of the extents. -/
abbrev Index := List Nat

/-- The number of a process in its world. -/
abbrev Rank := Nat

/-- The written form of a shape: its extents in parentheses. -/
def Shape.text (s : Shape) : String := "(" ++ ", ".intercalate (s.map Nat.repr) ++ ")"

/-- The written form of a multi-index: its coordinates in square brackets. -/
def Index.text (i : Index) : String := "[" ++ ", ".intercalate (i.map Nat.repr) ++ "]"

/-- Every coordinate lies below its extent, and there is one for each dimension. -/
def Shape.contains : Shape → Index → Bool
  | [], [] => true
  | d :: s, x :: i => decide (x < d) && Shape.contains s i
  | _, _ => false

end TiledTensor
