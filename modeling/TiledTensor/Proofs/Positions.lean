import Mathlib.Algebra.BigOperators.Group.List.Lemmas
import Mathlib.Algebra.BigOperators.Ring.List
import Mathlib.Algebra.Ring.Nat
import TiledTensor.Layout

/-!
# Linear positions

A multi-index and its position in column-major order are the digits and the value of one mixed radix
number.  `Shape.digitsOf` and `Shape.position` go from one to the other without regard to the range
of words, and are inverse to each other between the positions of a shape and its multi-indices.  A
layout exists only where all partial products are words, and computes just these two.
-/

namespace TiledTensor

/-- A first step that succeeds. -/
theorem Except.bind_of_ok {ε α β : Type} {x : Except ε α} {a : α} (h : x = .ok a)
    (f : α → Except ε β) : (x >>= f) = f a := by
  rw [h]
  rfl

/-- Steps that can fail succeed one after the other. -/
theorem bind_eq_ok {ε β γ : Type} {x : Except ε β} {f : β → Except ε γ} {c : γ}
    (h : x >>= f = .ok c) : ∃ b, x = .ok b ∧ f b = .ok c := by
  cases x with
  | error e => cases h
  | ok b => exact ⟨b, rfl, h⟩

/-- The offset of an index in a buffer with some strides. -/
def Index.offset : Index → List Nat → Nat
  | x :: i, step :: stride => x * step + offset i stride
  | _, _ => 0

namespace Word

/-- The sum of the products is the offset, and no partial sum is larger. -/
theorem dotFrom_eq_ok_iff {acc o : Nat} {i : Index} {stride : List Nat} (hacc : acc < limit) :
    dotFrom acc i stride = .ok o ↔
      i.length = stride.length ∧ acc + i.offset stride < limit ∧ o = acc + i.offset stride := by
  induction i generalizing acc stride with
  | nil =>
    cases stride with
    | nil => simp [dotFrom, Index.offset, hacc, eq_comm]
    | cons step stride => simp [dotFrom]
  | cons x i ih =>
    cases stride with
    | nil => simp [dotFrom]
    | cons step stride =>
      rw [Index.offset, List.length_cons, List.length_cons, Nat.add_right_cancel_iff, ← Nat.add_assoc]
      by_cases h : acc + x * step < limit
      · rw [dotFrom, Except.bind_of_ok (mul_eq_ok_iff.mpr ⟨by omega, rfl⟩),
          Except.bind_of_ok (add_eq_ok_iff.mpr ⟨h, rfl⟩), ih h]
      · constructor
        · intro hok
          rw [dotFrom] at hok
          obtain ⟨_, hmul, hok⟩ := bind_eq_ok hok
          obtain ⟨_, hadd, -⟩ := bind_eq_ok hok
          rw [(mul_eq_ok_iff.mp hmul).2] at hadd
          exact absurd (add_eq_ok_iff.mp hadd).1 h
        · rintro ⟨-, hlt, -⟩
          omega

theorem dot_eq_ok_iff {o : Nat} {i : Index} {stride : List Nat} :
    dot i stride = .ok o ↔
      i.length = stride.length ∧ i.offset stride < limit ∧ o = i.offset stride := by
  rw [dot, dotFrom_eq_ok_iff (by decide), Nat.zero_add]

/-- A product that is returned is the exact one. -/
theorem eq_of_productFrom {acc n : Nat} {xs : List Nat} (h : productFrom acc xs = .ok n) :
    n = acc * xs.prod := by
  induction xs generalizing acc with
  | nil =>
    rw [List.prod_nil, Nat.mul_one]
    exact (Except.ok.inj h).symm
  | cons x xs ih =>
    obtain ⟨_, hmul, h⟩ := bind_eq_ok h
    rw [ih h, (mul_eq_ok_iff.mp hmul).2, List.prod_cons, Nat.mul_assoc]

theorem eq_of_product {n : Nat} {xs : List Nat} (h : product xs = .ok n) : n = xs.prod := by
  rw [eq_of_productFrom h, Nat.one_mul]

end Word

namespace Shape

/-- The coordinates of the element at a position. -/
def digitsOf (k : Nat) : Shape → Index
  | [] => []
  | d :: s => k % d :: digitsOf (k / d) s

/-- The position of the element at some coordinates. -/
def position : Shape → Index → Nat
  | d :: s, x :: i => x + d * position s i
  | _, _ => 0

variable {s : Shape} {i : Index} {k acc d x : Nat}

@[simp] theorem contains_cons : contains (d :: s) (x :: i) = true ↔ x < d ∧ contains s i = true := by
  simp [contains]

theorem length_of_contains (h : contains s i = true) : i.length = s.length := by
  induction s generalizing i with
  | nil =>
    cases i with
    | nil => rfl
    | cons x i => simp [contains] at h
  | cons d s ih =>
    cases i with
    | nil => simp [contains] at h
    | cons x i => simp [ih (contains_cons.mp h).2]

@[simp] theorem length_digitsOf (k : Nat) (s : Shape) : (digitsOf k s).length = s.length := by
  induction s generalizing k with
  | nil => rfl
  | cons d s ih => simp [digitsOf, ih]

/-- A coordinate counts for less than the extents up to it. -/
theorem add_mul_lt {x d q n : Nat} (hx : x < d) (hq : q < n) : x + d * q < d * n :=
  calc x + d * q < d * (q + 1) := by rw [Nat.mul_succ]; omega
    _ ≤ d * n := Nat.mul_le_mul_left d hq

theorem prod_pos (h0 : 0 ∉ s) : 0 < s.prod := Nat.pos_of_ne_zero (List.prod_ne_zero h0)

/-- The lowest digit of a position and what is left of the position without it. -/
theorem digits_lt {n : Nat} (h : k < d * n) : k % d < d ∧ k / d < n := by
  have hd : 0 < d := Nat.pos_of_ne_zero fun h0 => by simp [h0] at h
  exact ⟨Nat.mod_lt k hd, Nat.div_lt_of_lt_mul h⟩

theorem position_lt (h : contains s i = true) : position s i < s.prod := by
  induction s generalizing i with
  | nil => simp [position]
  | cons d s ih =>
    cases i with
    | nil => simp [contains] at h
    | cons x i =>
      obtain ⟨hx, hi⟩ := contains_cons.mp h
      rw [position, List.prod_cons]
      exact add_mul_lt hx (ih hi)

/-- A shape with a multi-index has no extent of zero. -/
theorem zero_notMem_of_contains (h : contains s i = true) : 0 ∉ s := by
  intro h0
  have hlt := position_lt h
  rw [List.prod_eq_zero h0] at hlt
  exact Nat.not_lt_zero _ hlt

/-- The positions of a shape have coordinates in it. -/
theorem contains_digitsOf (h : k < s.prod) : contains s (digitsOf k s) = true := by
  induction s generalizing k with
  | nil => rfl
  | cons d s ih =>
    rw [List.prod_cons] at h
    obtain ⟨hx, hq⟩ := digits_lt h
    exact contains_cons.mpr ⟨hx, ih hq⟩

theorem position_digitsOf (h : k < s.prod) : position s (digitsOf k s) = k := by
  induction s generalizing k with
  | nil =>
    rw [List.prod_nil] at h
    exact (Nat.lt_one_iff.mp h).symm
  | cons d s ih =>
    rw [List.prod_cons] at h
    rw [digitsOf, position, ih (Nat.div_lt_of_lt_mul h), Nat.mod_add_div]

theorem digitsOf_position (h : contains s i = true) : digitsOf (position s i) s = i := by
  induction s generalizing i with
  | nil =>
    cases i with
    | nil => rfl
    | cons x i => simp [contains] at h
  | cons d s ih =>
    cases i with
    | nil => simp [contains] at h
    | cons x i =>
      obtain ⟨hx, hi⟩ := contains_cons.mp h
      have hd : 0 < d := Nat.zero_lt_of_lt hx
      rw [position, digitsOf, Nat.add_mul_mod_self_left, Nat.mod_eq_of_lt hx,
        Nat.add_mul_div_left _ _ hd, Nat.div_eq_of_lt hx, Nat.zero_add, ih hi]

/-- No two multi-indices have the same position. -/
theorem position_inj {j : Index} (hi : contains s i = true) (hj : contains s j = true) :
    position s i = position s j ↔ i = j := by
  refine ⟨fun h => ?_, fun h => h ▸ rfl⟩
  rw [← digitsOf_position hi, h, digitsOf_position hj]

/-- The lowest digit counts up. -/
theorem digits_succ_of_lt (h : k % d + 1 < d) : (k + 1) % d = k % d + 1 ∧ (k + 1) / d = k / d := by
  have hone : 1 < d := by omega
  refine ⟨by rw [Nat.add_mod, Nat.mod_eq_of_lt hone, Nat.mod_eq_of_lt h], ?_⟩
  rw [Nat.add_div (by omega), Nat.mod_eq_of_lt hone, if_neg (by omega), Nat.div_eq_of_lt hone,
    Nat.add_zero]

/-- The lowest digit starts again, and the others count up. -/
theorem digits_succ_of_carry (hd : 0 < d) (h : k % d + 1 = d) :
    (k + 1) % d = 0 ∧ (k + 1) / d = k / d + 1 := by
  have hsucc : k + 1 = d * (k / d + 1) := by
    have := Nat.mod_add_div k d
    rw [Nat.mul_succ]
    omega
  rw [hsucc, Nat.mul_mod_right, Nat.mul_div_cancel_left _ hd]
  exact ⟨rfl, rfl⟩

/-- The digits of the last position are the largest ones. -/
theorem digits_of_last {m : Nat} (h : k + 1 = d * m) : k % d + 1 = d ∧ k / d + 1 = m := by
  have hmod : (k + 1) % d = 0 := by rw [h, Nat.mul_mod_right]
  have hx : k % d < d := (digits_lt (by omega : k < d * m)).1
  have hd : 0 < d := Nat.zero_lt_of_lt hx
  have hlast : k % d + 1 = d := by
    by_contra hne
    rw [(digits_succ_of_lt (by omega)).1] at hmod
    omega
  refine ⟨hlast, ?_⟩
  rw [← (digits_succ_of_carry hd hlast).2, h, Nat.mul_div_cancel_left m hd]

/-! ## Strides -/

/-- The first dimension has the stride of all before it, and is one of those before the others. -/
theorem stridesFrom_cons_eq_ok {stride : List Nat} {count : Nat}
    (h : stridesFrom acc (d :: s) = .ok (stride, count)) :
    ∃ rest, stride = acc :: rest ∧ acc * d < Word.limit ∧
      stridesFrom (acc * d) s = .ok (rest, count) := by
  rw [stridesFrom] at h
  by_cases hlt : acc * d < Word.limit
  · rw [Except.bind_of_ok (Word.mul_eq_ok_iff.mpr ⟨hlt, rfl⟩)] at h
    cases hrest : stridesFrom (acc * d) s with
    | error f => rw [hrest] at h; cases h
    | ok r =>
      obtain ⟨rest, total⟩ := r
      rw [Except.bind_of_ok hrest] at h
      obtain ⟨rfl, rfl⟩ : acc :: rest = stride ∧ total = count := by
        simpa [pure, Except.pure] using h
      exact ⟨rest, rfl, hlt, rfl⟩
  · rw [Word.mul, if_neg hlt] at h
    cases h

/-- All partial products of the extents are words. -/
theorem stridesFrom_eq_ok {stride : List Nat} {count : Nat} (hacc : acc < Word.limit)
    (h : stridesFrom acc s = .ok (stride, count)) :
    count = acc * s.prod ∧ count < Word.limit ∧ stride.length = s.length := by
  induction s generalizing acc stride with
  | nil =>
    obtain ⟨rfl, rfl⟩ : [] = stride ∧ acc = count := by simpa [stridesFrom] using h
    exact ⟨by simp, hacc, rfl⟩
  | cons d s ih =>
    obtain ⟨rest, rfl, hlt, hrest⟩ := stridesFrom_cons_eq_ok h
    obtain ⟨hcount, hlimit, hlen⟩ := ih hlt hrest
    exact ⟨by rw [hcount, List.prod_cons, Nat.mul_assoc], hlimit, by simp [hlen]⟩

/-- A shape with smaller extents has strides if the larger one has. -/
theorem stridesFrom_mono {s' : Shape} {acc' : Nat} (hacc : acc' ≤ acc)
    (hs : List.Forall₂ (· ≤ ·) s' s) {r : List Nat × Nat} (h : stridesFrom acc s = .ok r) :
    ∃ r', stridesFrom acc' s' = .ok r' := by
  induction hs generalizing acc acc' r with
  | nil => exact ⟨_, rfl⟩
  | @cons d' d s' s hd _ ih =>
    obtain ⟨stride, count⟩ := r
    obtain ⟨rest, -, hlt, hrest⟩ := stridesFrom_cons_eq_ok h
    have hle : acc' * d' ≤ acc * d := Nat.mul_le_mul hacc hd
    obtain ⟨r', hr'⟩ := ih hle hrest
    rw [stridesFrom, Except.bind_of_ok (Word.mul_eq_ok_iff.mpr ⟨Nat.lt_of_le_of_lt hle hlt, rfl⟩)]
    exact ⟨_, Except.bind_of_ok hr' _⟩

/-- In the strides of a shape the offset of a multi-index is its position. -/
theorem offset_strides {stride : List Nat} {count : Nat} (h : stridesFrom acc s = .ok (stride, count))
    (i : Index) : i.offset stride = acc * position s i := by
  induction s generalizing acc stride i with
  | nil =>
    obtain ⟨rfl, -⟩ : [] = stride ∧ acc = count := by simpa [stridesFrom] using h
    cases i <;> simp [Index.offset, position]
  | cons d s ih =>
    obtain ⟨rest, rfl, -, hrest⟩ := stridesFrom_cons_eq_ok h
    cases i with
    | nil => simp [Index.offset, position]
    | cons x i => rw [Index.offset, ih hrest, position, Nat.mul_add, Nat.mul_comm x, Nat.mul_assoc]

end Shape

namespace Layout

variable {l : Layout} {s : Shape} {i : Index} {k : Nat}

theorem count_eq (l : Layout) : l.count = l.shape.prod ∧ l.count < Word.limit := by
  obtain ⟨hcount, hlimit, -⟩ := Shape.stridesFrom_eq_ok (by decide) l.built
  exact ⟨by rw [hcount, Nat.one_mul], hlimit⟩

theorem digits_eq (h : 0 ∉ s) : digits k s = .ok (s.digitsOf k) := by
  induction s generalizing k with
  | nil => rfl
  | cons d s ih =>
    rw [List.mem_cons, not_or] at h
    have hmod : Word.mod k d = .ok (k % d) := if_neg (Ne.symm h.1)
    have hdiv : Word.div k d = .ok (k / d) := if_neg (Ne.symm h.1)
    rw [digits, Except.bind_of_ok hmod, Except.bind_of_ok hdiv, Except.bind_of_ok (ih h.2)]
    rfl

/-- The offsets of a layout have coordinates. -/
theorem toIndex_eq (hk : k < l.count) : l.toIndex k = .ok (l.shape.digitsOf k) := by
  rw [toIndex, if_pos hk]
  refine digits_eq fun h0 => ?_
  have hzero : l.shape.prod = 0 := List.prod_eq_zero h0
  rw [l.count_eq.1, hzero] at hk
  exact absurd hk (Nat.not_lt_zero k)

theorem position_lt_count (hi : l.shape.contains i = true) : l.shape.position i < l.count :=
  l.count_eq.1 ▸ Shape.position_lt hi

theorem length_stride (l : Layout) : l.stride.length = l.shape.length :=
  (Shape.stridesFrom_eq_ok (by decide) l.built).2.2

/-- The extents of a layout with elements are words. -/
theorem extent_lt (l : Layout) (h0 : 0 ∉ l.shape) : ∀ d ∈ l.shape, d < Word.limit := by
  intro d hd
  have hle : d ≤ l.shape.prod :=
    Nat.le_of_dvd (Shape.prod_pos h0) (List.dvd_prod hd)
  obtain ⟨hcount, hlimit⟩ := l.count_eq
  omega

theorem offset_stride (l : Layout) (i : Index) : i.offset l.stride = l.shape.position i := by
  rw [Shape.offset_strides l.built, Nat.one_mul]

/-- No partial sum of the position leaves the range of words. -/
theorem dot_stride (hi : l.shape.contains i = true) : Word.dot i l.stride = .ok (l.shape.position i) := by
  have hlt := Nat.lt_trans (position_lt_count hi) l.count_eq.2
  rw [Word.dot_eq_ok_iff, offset_stride]
  exact ⟨(Shape.length_of_contains hi).trans l.length_stride.symm, hlt, rfl⟩

/-- The coordinates of a layout have offsets. -/
theorem toLinear_eq (hi : l.shape.contains i = true) :
    l.toLinear i = .ok (l.shape.position i) := by
  rw [toLinear, if_neg (not_not_intro (Shape.length_of_contains hi)), if_pos hi, dot_stride hi]

/-- The coordinates are found again from their offset. -/
theorem toIndex_position (hi : l.shape.contains i = true) :
    l.toIndex (l.shape.position i) = .ok i := by
  rw [toIndex_eq (position_lt_count hi), Shape.digitsOf_position hi]

/-- An offset has the coordinates of which it is the position. -/
theorem toIndex_eq_ok_iff :
    l.toIndex k = .ok i ↔ l.shape.contains i = true ∧ l.shape.position i = k := by
  constructor
  · intro h
    have hk : k < l.count := by
      rw [toIndex] at h
      split at h
      · assumption
      · cases h
    rw [toIndex_eq hk, Except.ok.injEq] at h
    rw [l.count_eq.1] at hk
    rw [← h]
    exact ⟨Shape.contains_digitsOf hk, Shape.position_digitsOf hk⟩
  · rintro ⟨hi, rfl⟩
    exact toIndex_position hi

/-- Coordinates of the shape have their position as their offset. -/
theorem toLinear_eq_ok_iff :
    l.toLinear i = .ok k ↔ l.shape.contains i = true ∧ l.shape.position i = k := by
  constructor
  · intro h
    by_cases hi : l.shape.contains i = true
    · rw [toLinear_eq hi, Except.ok.injEq] at h
      exact ⟨hi, h⟩
    · rw [toLinear, if_neg hi] at h
      split at h <;> cases h
  · rintro ⟨hi, rfl⟩
    exact toLinear_eq hi

/-- A layout of a shape exists where one of a larger shape does. -/
theorem new_of_le {s' : Shape} (hs : List.Forall₂ (· ≤ ·) s' l.shape) :
    ∃ l', new s' = .ok l' ∧ l'.shape = s' := by
  obtain ⟨⟨stride, count⟩, hr⟩ := Shape.stridesFrom_mono (Nat.le_refl 1) hs l.built
  refine ⟨⟨s', stride, count, hr⟩, ?_, rfl⟩
  unfold new
  split
  · rename_i stride' count' h'
    rw [hr, Except.ok.injEq, Prod.mk.injEq] at h'
    obtain ⟨rfl, rfl⟩ := h'
    rfl
  · rename_i f h'
    rw [hr] at h'
    cases h'

end Layout

end TiledTensor
