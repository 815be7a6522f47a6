import TiledTensor.Word

/-!
# Column-major layouts

A layout places the elements of a contiguous block in linear order, the first dimension varying
fastest. Its strides are the products of the extents to the left of each dimension. A layout
exists only for a shape all of whose partial products are words: `Layout.new` refuses the others,
and the field `built` keeps that every layout has passed it.
-/

namespace TiledTensor

/-- Strides of the remaining dimensions and the final product, given the product `acc` of the
dimensions before them. -/
def Shape.stridesFrom (acc : Nat) : Shape → Except Fault (List Nat × Nat)
  | [] => .ok ([], acc)
  | d :: s => do
    let (stride, count) ← stridesFrom (← Word.mul acc d) s
    return (acc :: stride, count)

/-- Extents, column-major strides and number of elements of a contiguous block. -/
structure Layout where
  shape : Shape
  stride : List Nat
  count : Nat
  built : shape.stridesFrom 1 = .ok (stride, count)
  deriving DecidableEq

namespace Layout

/-- The layout of a shape, unless one of its partial products is no word. -/
def new (s : Shape) : Except Fault Layout :=
  match h : s.stridesFrom 1 with
  | .ok (stride, count) => .ok ⟨s, stride, count, h⟩
  | .error f => .error f

theorem shape_of_new {s : Shape} {l : Layout} (h : new s = .ok l) : l.shape = s := by
  unfold new at h
  split at h
  · cases h; rfl
  · cases h

/-- The layout of the scalar shape. -/
def scalar : Layout := ⟨[], [], 1, rfl⟩

instance : Inhabited Layout := ⟨scalar⟩

/-- Coordinates of a linear offset: the remainders of the successive divisions by the extents. -/
def digits (rest : Nat) : Shape → Except Fault Index
  | [] => .ok []
  | d :: s => do
    let x ← Word.mod rest d
    return x :: (← digits (← Word.div rest d) s)

/-- The coordinates of the element at a linear offset. -/
def toIndex (l : Layout) (offset : Nat) : Except Fault Index :=
  if offset < l.count then digits offset l.shape else .error (.offsetOutOfRange offset l.shape)

/-- The linear offset of the element at some coordinates. -/
def toLinear (l : Layout) (i : Index) : Except Fault Nat :=
  if i.length ≠ l.shape.length then .error (.indexRank i l.shape)
  else if l.shape.contains i then Word.dot i l.stride
  else .error (.indexOutOfBounds i l.shape)

end Layout

end TiledTensor
