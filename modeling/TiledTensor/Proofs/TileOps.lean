import TiledTensor.Collective
import TiledTensor.Proofs.Buffers
import TiledTensor.Proofs.Odometer

/-!
# What the operations on tiles leave

Each of the three operations of a collective call replaces one tile and touches nothing else: a copy
puts another tile in its place, a clear zeros, and the copy of an overlap what the two boxes have in
common.
-/

namespace TiledTensor

variable {α : Type} [Scalar α]

/-- Twice as many elements as fill the range of words with their bytes can still be counted. -/
theorem Scalar.two_le_size (α : Type) [Scalar α] : 2 ≤ Scalar.size α := by
  unfold Scalar.size
  cases Scalar.elementType α <;> decide

theorem two_mul_le_of_bytes {count : Nat} (h : count * Scalar.size α < Word.limit) :
    2 * count ≤ Word.limit := by
  have := Nat.mul_le_mul_left count (Scalar.two_le_size α)
  omega

/-- The codelet of a sub-box leaves in its buffers what the copy leaves. -/
theorem Codelet.subBox_eq {b : SubBox} {xs ys new : List α} {words : Option (List Nat)}
    (hcopy : b.copy xs ys (.ok (List.replicate (2 * b.shape.length) 0)) = .ok (new, words)) :
    ∃ v, Codelet.subBox b [.shared xs, .exclusive ys, .scratch (2 * b.shape.length * 8)] =
      .ok [.shared xs, .exclusive new, v] := by
  have hview : (View.scratch (2 * b.shape.length * 8) : View α).room =
      .ok (List.replicate (2 * b.shape.length) 0) := by
    rw [View.room, Nat.mul_mod_left, if_pos rfl, Nat.mul_div_cancel _ (by decide)]
  rw [Codelet.subBox, hview]
  refine ⟨(words.map (View.leave (.scratch (2 * b.shape.length * 8)))).getD
    (.scratch (2 * b.shape.length * 8)), ?_⟩
  show (b.copy xs ys _ >>= _) = _
  rw [hcopy]
  rfl

/-- A box inside two tiles whose bytes can be counted is copied exactly, and there is room for
it. -/
theorem Op.copy_boxOf {s d : Tile} {plan : Overlap} {xs ys : List α}
    (hs : Region.Inside plan.srcStart plan.shape s.layout.shape)
    (hd : Region.Inside plan.dstStart plan.shape d.layout.shape)
    (hsrc : s.layout.count * Scalar.size α < Word.limit)
    (hdst : d.layout.count * Scalar.size α < Word.limit) (hxs : xs.length = s.layout.count)
    (hys : ys.length = d.layout.count) :
    ∃ new words, (boxOf s d plan).copy xs ys (.ok (List.replicate (2 * plan.shape.length) 0)) =
        .ok (new, words) ∧
      SubBox.Copied (boxOf s d plan) s.layout d.layout xs ys new :=
  SubBox.copy_eq ⟨hs, rfl, two_mul_le_of_bytes hsrc⟩ ⟨hd, rfl, two_mul_le_of_bytes hdst⟩ hxs hys

namespace Store

variable {s : Store α} {src dst : Tile} {xs ys new : List α} {plan : Overlap} {access : Access}

/-- A copy puts one tile in the place of another. -/
theorem run_copy (hs : s src.handle = some xs) (hd : s dst.handle = some ys)
    (hlen : xs.length = ys.length) : s.run (Op.copy src dst) = s.set dst.handle (some xs) := by
  have hread : ¬Access.read.writes = true := Bool.false_ne_true
  have hwrite : Access.write.writes = true := rfl
  simp only [run, openAll, Op.copy, hs, hd, if_pos hwrite, if_neg hread]
  show s.set dst.handle ((s dst.handle).map (overlay (overlay xs ys))) = _
  rw [hd, Option.map_some, overlay_of_length hlen.symm, overlay_of_length hlen.symm]

/-- A clear puts zeros in the place of a tile. -/
theorem run_clear (hd : s dst.handle = some ys) :
    s.run (Op.clear dst) = s.set dst.handle (some (ys.map fun _ => Scalar.zero)) := by
  have hwrite : Access.write.writes = true := rfl
  simp only [run, openAll, Op.clear, hd, if_pos hwrite]
  show (s.set dst.handle ((s dst.handle).map (overlay (ys.map fun _ => Scalar.zero)))) = _
  rw [hd, Option.map_some, overlay_of_length (List.length_map _).symm]

/-- The copy of an overlap replaces what the box of the destination holds. -/
theorem run_copyOverlap (hs : s src.handle = some xs) (hd : s dst.handle = some ys)
    {words : Option (List Nat)} (hroom : allocatable (2 * plan.shape.length * 8) = true)
    (hcopy : (Op.boxOf src dst plan).copy xs ys (.ok (List.replicate (2 * plan.shape.length) 0)) =
      .ok (new, words)) (hlen : new.length = ys.length) :
    s.run (Op.copyOverlap src dst plan access) = s.set dst.handle (some new) := by
  have hread : ¬Access.read.writes = true := Bool.false_ne_true
  have hwrite : (if access = .write then Access.write else .readWrite).writes = true := by
    split <;> rfl
  have hbytes : (2 * plan.shape.length * 8 + 7) / 8 * 8 = 2 * plan.shape.length * 8 := by omega
  obtain ⟨v, hcodelet⟩ : ∃ v, Codelet.subBox (Op.boxOf src dst plan)
      [.shared xs, .exclusive ys, .scratch (2 * plan.shape.length * 8)] =
      .ok [.shared xs, .exclusive new, v] := Codelet.subBox_eq hcopy
  simp only [run, openAll, Op.copyOverlap, hs, hd, hbytes, hroom, if_true, hwrite, if_neg hread,
    Option.map_some, hcodelet, storeAll, overlay_of_length hlen.symm]

end Store

end TiledTensor
