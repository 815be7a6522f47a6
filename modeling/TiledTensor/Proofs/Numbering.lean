import Mathlib.Data.List.Infix
import TiledTensor.Proofs.Positions

/-!
# The numbering of a layout

A shape has a layout exactly if the products of its leading extents are all words.  The layout then
numbers the multi-indices of the shape: the offsets below the count and the multi-indices stand for
each other, in the order that compares the last coordinates first.  What is refused is refused by a
rule, and never by the arithmetic.
-/

namespace TiledTensor

namespace Shape

variable {s : Shape} {i j : Index} {acc d x y p q : Nat} {f : Fault}

/-! ## Which shapes have a layout -/

/-- The products of the leading extents, the first dimension apart. -/
theorem exists_prefix_cons_iff {b : Nat} (hacc : acc < b) :
    (∃ t, t <+: d :: s ∧ b ≤ acc * t.prod) ↔ ∃ t, t <+: s ∧ b ≤ acc * d * t.prod := by
  constructor
  · rintro ⟨t, ht, hle⟩
    rcases List.prefix_cons_iff.mp ht with rfl | ⟨t, rfl, hts⟩
    · rw [List.prod_nil, Nat.mul_one] at hle
      exact absurd hle (Nat.not_le.mpr hacc)
    · rw [List.prod_cons, ← Nat.mul_assoc] at hle
      exact ⟨t, hts, hle⟩
  · rintro ⟨t, ht, hle⟩
    refine ⟨d :: t, List.prefix_cons_iff.mpr (Or.inr ⟨t, rfl, ht⟩), ?_⟩
    rwa [List.prod_cons, ← Nat.mul_assoc]

/-- The strides of a shape exist unless some product of leading extents is no word. -/
theorem stridesFrom_eq_error_iff (hacc : acc < Word.limit) :
    stridesFrom acc s = .error f ↔
      f = .overflow ∧ ∃ t, t <+: s ∧ Word.limit ≤ acc * t.prod := by
  induction s generalizing acc with
  | nil =>
    refine iff_of_false (fun h => by cases h) ?_
    rintro ⟨-, t, ht, hle⟩
    rw [List.prefix_nil.mp ht, List.prod_nil, Nat.mul_one] at hle
    exact absurd hle (Nat.not_le.mpr hacc)
  | cons d s ih =>
    rw [exists_prefix_cons_iff hacc, stridesFrom]
    by_cases hd : acc * d < Word.limit
    · rw [Except.bind_of_ok (Word.mul_eq_ok_iff.mpr ⟨hd, rfl⟩), ← ih hd]
      cases stridesFrom (acc * d) s with
      | error g => exact Iff.rfl
      | ok r => exact iff_of_false (fun h => by cases h) (fun h => by cases h)
    · have hfault : Word.mul acc d = .error .overflow := if_neg hd
      have hexists : ∃ t, t <+: s ∧ Word.limit ≤ acc * d * t.prod :=
        ⟨[], List.nil_prefix, by rw [List.prod_nil, Nat.mul_one]; exact Nat.not_lt.mp hd⟩
      rw [hfault, and_iff_left hexists]
      exact ⟨fun h => by cases h; rfl, fun h => by rw [h]; rfl⟩

/-! ## The order of the positions -/

/-- The last entry decides between lists that agree up to it. -/
theorem append_singleton_lt_iff (h : i.length = j.length) :
    i ++ [x] < j ++ [y] ↔ i < j ∨ i = j ∧ x < y := by
  induction i generalizing j with
  | nil =>
    obtain rfl : j = [] := List.length_eq_zero_iff.mp h.symm
    simp [List.cons_lt_cons_iff]
  | cons a i ih =>
    cases j with
    | nil => cases h
    | cons b j =>
      rw [List.cons_append, List.cons_append, List.cons_lt_cons_iff, List.cons_lt_cons_iff,
        ih (Nat.succ.inj h), List.cons.injEq]
      constructor
      · rintro (hab | ⟨rfl, hij | ⟨rfl, hxy⟩⟩)
        · exact Or.inl (Or.inl hab)
        · exact Or.inl (Or.inr ⟨rfl, hij⟩)
        · exact Or.inr ⟨⟨rfl, rfl⟩, hxy⟩
      · rintro ((hab | ⟨rfl, hij⟩) | ⟨⟨rfl, rfl⟩, hxy⟩)
        · exact Or.inl hab
        · exact Or.inr ⟨rfl, Or.inl hij⟩
        · exact Or.inr ⟨rfl, Or.inr ⟨rfl, hxy⟩⟩

/-- The lowest coordinate decides between numbers that agree above it. -/
theorem add_mul_lt_iff (hx : x < d) (hy : y < d) :
    x + d * p < y + d * q ↔ p < q ∨ p = q ∧ x < y := by
  rcases Nat.lt_trichotomy p q with hpq | rfl | hqp
  · have := add_mul_lt hx hpq
    omega
  · omega
  · have := add_mul_lt hy hqp
    omega

/-- Positions go up with the last coordinate in which two multi-indices differ. -/
theorem position_lt_position_iff (hi : contains s i = true) (hj : contains s j = true) :
    position s i < position s j ↔ i.reverse < j.reverse := by
  induction s generalizing i j with
  | nil =>
    obtain rfl : i = [] := List.length_eq_zero_iff.mp (length_of_contains hi)
    obtain rfl : j = [] := List.length_eq_zero_iff.mp (length_of_contains hj)
    simp
  | cons d s ih =>
    cases i with
    | nil => cases hi
    | cons x i =>
      cases j with
      | nil => cases hj
      | cons y j =>
        obtain ⟨hx, hi⟩ := contains_cons.mp hi
        obtain ⟨hy, hj⟩ := contains_cons.mp hj
        -- the first coordinate counts only where all the others agree, as the last entry of a reversed list
        have hlen : i.reverse.length = j.reverse.length := by
          rw [List.length_reverse, List.length_reverse, length_of_contains hi, length_of_contains hj]
        rw [position, position, add_mul_lt_iff hx hy, ih hi hj, position_inj hi hj,
          List.reverse_cons, List.reverse_cons, append_singleton_lt_iff hlen, List.reverse_inj]

end Shape

namespace Layout

variable {s : Shape} {f : Fault}

/-- Making a layout is computing its strides. -/
theorem new_eq_error_iff : new s = .error f ↔ s.stridesFrom 1 = .error f := by
  unfold new
  split
  · rename_i hr
    refine iff_of_false (fun h => by cases h) fun h => ?_
    rw [hr] at h
    cases h
  · rename_i g hr
    rw [hr, Except.error.injEq, Except.error.injEq]

/-- A layout fails only for want of words. -/
theorem fault_of_new (h : new s = .error f) : f = .overflow :=
  ((Shape.stridesFrom_eq_error_iff (by decide)).mp (new_eq_error_iff.mp h)).1

/-- The offsets below the count and the multi-indices of the shape stand for each other, in the
order that compares the last coordinates first. -/
structure Numbers (l : Layout) (s : Shape) : Prop where
  shape : l.shape = s
  count : l.count = s.prod ∧ l.count < Word.limit
  offsets : ∀ k, (∃ i, l.toIndex k = .ok i) ↔ k < l.count
  indices : ∀ i, (∃ k, l.toLinear i = .ok k) ↔ i.length = s.length ∧ s.contains i = true
  inverse : ∀ k i, l.toIndex k = .ok i ↔ l.toLinear i = .ok k
  order : ∀ k m i j, l.toIndex k = .ok i → l.toIndex m = .ok j → (k < m ↔ i.reverse < j.reverse)
  /-- Only the rules refuse; no quotient, product or sum faults. -/
  refused_offset : ∀ k f, l.toIndex k = .error f → f = .offsetOutOfRange k s
  refused_index : ∀ i f, l.toLinear i = .error f →
    f = if i.length = s.length then .indexOutOfBounds i s else .indexRank i s

/-- Every layout numbers the multi-indices of its shape. -/
theorem numbers (l : Layout) : l.Numbers l.shape where
  shape := rfl
  count := l.count_eq
  offsets k := by
    constructor
    · rintro ⟨i, h⟩
      obtain ⟨hi, rfl⟩ := toIndex_eq_ok_iff.mp h
      exact position_lt_count hi
    · intro hk
      exact ⟨_, toIndex_eq hk⟩
  indices i := by
    constructor
    · rintro ⟨k, h⟩
      obtain ⟨hi, -⟩ := toLinear_eq_ok_iff.mp h
      exact ⟨Shape.length_of_contains hi, hi⟩
    · rintro ⟨-, hi⟩
      exact ⟨_, toLinear_eq hi⟩
  inverse k i := toIndex_eq_ok_iff.trans toLinear_eq_ok_iff.symm
  order k m i j hk hm := by
    obtain ⟨hi, rfl⟩ := toIndex_eq_ok_iff.mp hk
    obtain ⟨hj, rfl⟩ := toIndex_eq_ok_iff.mp hm
    exact Shape.position_lt_position_iff hi hj
  refused_offset k f h := by
    by_cases hk : k < l.count
    · rw [toIndex_eq hk] at h
      cases h
    · rw [toIndex, if_neg hk] at h
      exact (Except.error.inj h).symm
  refused_index i f h := by
    by_cases hi : l.shape.contains i = true
    · rw [toLinear_eq hi] at h
      cases h
    · rw [toLinear, if_neg hi] at h
      split at h
      · rename_i hlen
        rw [if_neg hlen]
        exact (Except.error.inj h).symm
      · rename_i hlen
        rw [if_pos (not_not.mp hlen)]
        exact (Except.error.inj h).symm

/-- A shape is refused exactly if some product of its leading extents is no word, and every other
one is numbered. -/
theorem new_numbers (s : Shape) :
    (∀ f, new s = .error f ↔ f = .overflow ∧ ∃ t, t <+: s ∧ Word.limit ≤ t.prod) ∧
      ∀ l, new s = .ok l → l.Numbers s := by
  constructor
  · intro f
    rw [new_eq_error_iff, Shape.stridesFrom_eq_error_iff (by decide)]
    simp only [Nat.one_mul]
  · intro l h
    obtain rfl := shape_of_new h
    exact l.numbers

/-- A shape that has no elements but a product that is no word, and one with nearly as many elements
as there are words. -/
theorem new_numbers_of_extremes :
    new [2, 0x8000000000000000, 0] = .error .overflow ∧
      ∃ l, new [0x100000000, 0xFFFFFFFF] = .ok l ∧ l.Numbers [0x100000000, 0xFFFFFFFF] := by
  constructor
  · exact ((new_numbers _).1 _).mpr ⟨rfl, [2, 0x8000000000000000], by decide, by decide⟩
  · exact ⟨_, rfl, (new_numbers _).2 _ rfl⟩

end Layout

end TiledTensor
