import Mathlib.Algebra.Group.Nat.Defs
import TiledTensor.Element

/-!
# Blocks as messages

A block of elements comes out of its message as it went in.
-/

namespace TiledTensor

theorem length_bytesOf (n x : Nat) : (bytesOf n x).length = n := by
  induction n generalizing x with
  | zero => rfl
  | succ n ih => rw [bytesOf, List.length_cons, ih]

theorem ofBytes_bytesOf (n x : Nat) : ofBytes (bytesOf n x) = x % 256 ^ n := by
  induction n generalizing x with
  | zero => rw [Nat.pow_zero, Nat.mod_one]; rfl
  | succ n ih =>
    have hbyte : x % 256 % 2 ^ 8 = x % 256 := Nat.mod_mod x 256
    rw [bytesOf, ofBytes, ih, UInt8.toNat_ofNat', hbyte, Nat.pow_succ', Nat.mod_mul]

theorem ofBytes_lt (bs : List UInt8) : ofBytes bs < 256 ^ bs.length := by
  induction bs with
  | nil => exact Nat.one_pos
  | cons b bs ih =>
    have hb : b.toNat < 256 := b.toNat_lt
    rw [ofBytes, List.length_cons, Nat.pow_succ]
    omega

theorem bytesOf_ofBytes (bs : List UInt8) : bytesOf bs.length (ofBytes bs) = bs := by
  induction bs with
  | nil => rfl
  | cons b bs ih =>
    have hb : b.toNat < 256 := b.toNat_lt
    have hmod : (b.toNat + 256 * ofBytes bs) % 256 = b.toNat := by omega
    have hdiv : (b.toNat + 256 * ofBytes bs) / 256 = ofBytes bs := by omega
    rw [List.length_cons, ofBytes, bytesOf, hmod, hdiv, ih, UInt8.ofNat_toNat]

namespace Scalar

variable {α : Type} [Scalar α]

theorem length_encode (x : α) : (encode x).length = size α := length_bytesOf _ _

theorem decode_encode (x : α) : decode (encode x) = x := by
  have hx : toBits x % 2 ^ (8 * size α) = toBits x := by
    rw [size, ← BitVec.toNat_ofNat, ← toBits_ofBits, ofBits_toBits]
  have hpow : (256 : Nat) ^ size α = 2 ^ (8 * size α) := by rw [Nat.pow_mul]
  rw [decode, encode, ofBytes_bytesOf, hpow, hx, ofBits_toBits]

theorem length_encodeBlock (xs : List α) : (encodeBlock xs).length = xs.length * size α := by
  induction xs with
  | nil => simp [encodeBlock]
  | cons x xs ih =>
    rw [encodeBlock, List.flatMap_cons, List.length_append, length_encode, ← encodeBlock, ih,
      List.length_cons, Nat.succ_mul, Nat.add_comm]

theorem decodeBlock_encodeBlock (xs : List α) : decodeBlock xs.length (encodeBlock xs) = xs := by
  induction xs with
  | nil => rfl
  | cons x xs ih =>
    have hcons : encodeBlock (x :: xs) = encode x ++ encodeBlock xs := List.flatMap_cons
    rw [List.length_cons, decodeBlock, hcons, ← length_encode x, List.take_left, List.drop_left, ih,
      decode_encode]

theorem encode_decode {bs : List UInt8} (h : bs.length = size α) :
    encode (decode bs : α) = bs := by
  have hpow : (2 : Nat) ^ (8 * size α) = 256 ^ bs.length := by rw [h, Nat.pow_mul]
  have hbits : toBits (ofBits (ofBytes bs) : α) = ofBytes bs := by
    rw [toBits_ofBits, BitVec.toNat_ofNat, ← size, hpow, Nat.mod_eq_of_lt (ofBytes_lt bs)]
  rw [encode, decode, hbits, ← h, bytesOf_ofBytes]

theorem length_decodeBlock (n : Nat) (bs : List UInt8) :
    (decodeBlock n bs : List α).length = n := by
  induction n generalizing bs with
  | zero => rfl
  | succ n ih => rw [decodeBlock, List.length_cons, ih]

/-- A message of the right size comes out of the block that it was put into as it was. -/
theorem encodeBlock_decodeBlock {n : Nat} {bs : List UInt8} (h : n * size α = bs.length) :
    encodeBlock (decodeBlock n bs : List α) = bs := by
  induction n generalizing bs with
  | zero =>
    rw [Nat.zero_mul] at h
    exact (List.eq_nil_of_length_eq_zero h.symm).symm
  | succ n ih =>
    rw [Nat.succ_mul] at h
    have htake : (bs.take (size α)).length = size α := by
      rw [List.length_take]
      omega
    have hdrop : n * size α = (bs.drop (size α)).length := by
      rw [List.length_drop]
      omega
    show (decode (bs.take (size α)) :: decodeBlock n (bs.drop (size α)) : List α).flatMap encode = bs
    rw [List.flatMap_cons, encode_decode htake, ← encodeBlock, ih hdrop, List.take_append_drop]

end Scalar

end TiledTensor
