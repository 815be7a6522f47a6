import TiledTensor.Shape

/-!
# Faults

A fault is the reason why a computation stopped without an answer: an arithmetic operation left
the range of a machine word, a position lay outside a list, or a caller broke a rule that the
called function checks. The first kind has no text; the checked rules have one each.
-/

namespace TiledTensor

/-- Why a computation stopped without an answer. -/
inductive Fault
  /-- A sum, difference or product left the range of a word. -/
  | overflow
  | divisionByZero
  /-- A position or range outside a list. -/
  | outOfBounds
  /-- Two lists that are read in step have different lengths. -/
  | unequalLengths
  /-- The buffer was being written by a computation that faulted. -/
  | poisoned
  /-- A buffer whose bytes do not divide into elements of the type it is read as. -/
  | unevenBytes
  /-- A block of memory that takes up half of all addresses or more. -/
  | tooLarge
  | lockedForReading
  | offsetOutOfRange (offset : Nat) (shape : Shape)
  | indexRank (index : Index) (shape : Shape)
  | indexOutOfBounds (index : Index) (shape : Shape)
  | boxRanks
  | tilingRanks (shape basetile : Shape)
  | emptyBasetile (shape basetile : Shape)
  | tileOutOfGrid (index : Index) (grid : Shape)
  | overlapRanks
  deriving DecidableEq

namespace Fault

/-- What a broken rule says; faults of the machine say nothing. -/
def message : Fault → Option String
  | overflow | divisionByZero | outOfBounds | unequalLengths | poisoned => none
  | unevenBytes => some "buffer does not divide into elements"
  | tooLarge => some "capacity overflow"
  | lockedForReading => some "buffer is locked for reading only"
  | offsetOutOfRange offset shape =>
    some ("linear offset " ++ offset.repr ++ " out of range for shape " ++ shape.text)
  | indexRank index shape =>
    some ("index " ++ index.text ++ " does not match the rank of shape " ++ shape.text)
  | indexOutOfBounds index shape =>
    some ("index " ++ index.text ++ " out of bounds for shape " ++ shape.text)
  | boxRanks => some "box start and shape ranks differ"
  | tilingRanks shape basetile =>
    some ("shape " ++ shape.text ++ " and basetile " ++ basetile.text ++ " have different ranks")
  | emptyBasetile shape basetile =>
    some ("basetile " ++ basetile.text ++ " must be positive for shape " ++ shape.text)
  | tileOutOfGrid index grid =>
    some ("tile index " ++ index.text ++ " out of bounds for grid " ++ grid.text)
  | overlapRanks => some "intersected boxes have different ranks"

end Fault

/-- What was produced in order, and the fault that cut it short, if one did. -/
structure Trail (α : Type) where
  items : List α
  fault : Option Fault := none
  deriving DecidableEq

namespace Trail

variable {α : Type}

/-- A trail that ends at once with a fault. -/
def stopped (f : Fault) : Trail α := ⟨[], some f⟩

/-- One more item in front. -/
def cons (a : α) (t : Trail α) : Trail α := { t with items := a :: t.items }

/-- Continue after the last item, unless a fault came first. -/
def append (s t : Trail α) : Trail α :=
  match s.fault with
  | none => ⟨s.items ++ t.items, t.fault⟩
  | some _ => s

end Trail

end TiledTensor
