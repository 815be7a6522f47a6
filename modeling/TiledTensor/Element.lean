import TiledTensor.Fault

/-!
# Elements

Tiles hold elements of one of five types. No arithmetic is done on them here: an element is the
bit pattern of its value, and travels between processes as its bytes, lowest first.
-/

namespace TiledTensor

/-- The types of element that a tile can hold. -/
inductive ElementType
  | f32 | f64 | f16 | bf16 | i64
  deriving DecidableEq

namespace ElementType

def text : ElementType → String
  | f32 => "F32" | f64 => "F64" | f16 => "F16" | bf16 => "BF16" | i64 => "I64"

/-- Size of an element in bytes. -/
def size : ElementType → Nat
  | f32 => 4 | f64 => 8 | f16 => 2 | bf16 => 2 | i64 => 8

/-- The bit patterns of a type. -/
abbrev Value (t : ElementType) : Type := BitVec (8 * t.size)

end ElementType

/-- A type whose values are the bit patterns of an element type. -/
class Scalar (α : Type) where
  elementType : ElementType
  toBits : α → Nat
  /-- The value whose pattern is the low part of a number. -/
  ofBits : Nat → α
  toBits_ofBits : ∀ n, toBits (ofBits n) = (BitVec.ofNat (8 * elementType.size) n).toNat
  ofBits_toBits : ∀ x, ofBits (toBits x) = x

instance (t : ElementType) : Scalar t.Value where
  elementType := t
  toBits x := x.toNat
  ofBits n := BitVec.ofNat _ n
  toBits_ofBits _ := rfl
  ofBits_toBits x := by simp

/-- The lowest `n` bytes of a number, lowest first. -/
def bytesOf : Nat → Nat → List UInt8
  | 0, _ => []
  | n + 1, x => UInt8.ofNat (x % 256) :: bytesOf n (x / 256)

/-- The number with given bytes, lowest first. -/
def ofBytes : List UInt8 → Nat
  | [] => 0
  | b :: bs => b.toNat + 256 * ofBytes bs

namespace Scalar

variable {α : Type} [Scalar α]

/-- Size of an element in bytes. -/
def size (α : Type) [Scalar α] : Nat := (Scalar.elementType α).size

/-- The value whose bits are all zero. -/
def zero : α := ofBits 0

def encode (x : α) : List UInt8 := bytesOf (size α) (toBits x)

def decode (bs : List UInt8) : α := ofBits (ofBytes bs)

/-- The bytes of a block of elements, one element after the other. -/
def encodeBlock (xs : List α) : List UInt8 := xs.flatMap encode

/-- The first `n` elements of a run of bytes. -/
def decodeBlock : Nat → List UInt8 → List α
  | 0, _ => []
  | n + 1, bs => decode (bs.take (size α)) :: decodeBlock n (bs.drop (size α))

end Scalar

end TiledTensor
