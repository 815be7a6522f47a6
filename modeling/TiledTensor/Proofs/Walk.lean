import Mathlib.Data.List.Nodup
import TiledTensor.Box
import TiledTensor.Proofs.Region

/-!
# The walk through a box

Where the ends of a box are words, the walk visits its indices in the order of their positions and
stops: the `k`th index lies as far from the start as the `k`th multi-index of the shape lies from
the origin.
-/

namespace TiledTensor

open Region (Holds Bounded)

variable {start i : Index} {shape : Shape} {k : Nat}

namespace BoxWalk

/-- The index that a walk visits after `k` others. -/
def visit (start : Index) (shape : Shape) (k : Nat) : Index := start.plus (shape.digitsOf k)

theorem visit_cons {s d : Nat} :
    visit (s :: start) (d :: shape) k = (s + k % d) :: visit start shape (k / d) := rfl

/-- The leading dimensions of a box are turned as if there were no others; these go on where the
odometer carries out of the leading ones. -/
theorem successor_append (hb : Bounded start shape) (hk : k < shape.prod) (i start' : Index)
    (shape' : Shape) :
    successor (visit start shape k ++ i) (start ++ start') (shape ++ shape') =
      if k + 1 < shape.prod then .ok (some (visit start shape (k + 1) ++ i))
      else (successor i start' shape').map (·.map (start ++ ·)) := by
  induction start generalizing shape k with
  | nil =>
    obtain rfl : shape = [] := List.length_eq_zero_iff.mp hb.length.symm
    rw [List.prod_nil, if_neg (Nat.not_lt.mpr (Nat.le_add_left 1 k))]
    change successor i start' shape' = (successor i start' shape').map (·.map id)
    cases successor i start' shape' with
    | error f => rfl
    | ok r => cases r <;> rfl
  | cons s start ih =>
    cases shape with
    | nil => exact absurd hb id
    | cons d shape =>
      rw [List.prod_cons] at hk ⊢
      obtain ⟨hmod, hq⟩ := Shape.digits_lt hk
      have hd : 0 < d := Nat.zero_lt_of_lt hmod
      have hsum : s + k % d + 1 < Word.limit := by
        have := hb.1
        omega
      rw [visit_cons, List.cons_append, List.cons_append, List.cons_append, successor,
        Except.bind_of_ok (Word.add_eq_ok_iff.mpr ⟨hsum, rfl⟩),
        Except.bind_of_ok (Word.add_eq_ok_iff.mpr ⟨hb.1, rfl⟩)]
      by_cases hturn : k % d + 1 < d
      · obtain ⟨hmod', hdiv'⟩ := Shape.digits_succ_of_lt hturn
        have hlast : k + 1 < d * shape.prod := by
          have h := Shape.add_mul_lt hturn hq
          have := Nat.mod_add_div k d
          omega
        rw [if_pos (by omega : s + k % d + 1 < s + d), if_pos hlast, visit_cons, hmod', hdiv']
        rfl
      · obtain ⟨hmod', hdiv'⟩ := Shape.digits_succ_of_carry hd (by omega : k % d + 1 = d)
        have hlast : k + 1 < d * shape.prod ↔ k / d + 1 < shape.prod := by
          rw [← hdiv', Nat.div_lt_iff_lt_mul hd, Nat.mul_comm]
        rw [if_neg (by omega : ¬s + k % d + 1 < s + d), ih hb.2 hq]
        simp only [hlast]
        split
        · rw [visit_cons, hmod', hdiv']
          rfl
        · cases successor i start' shape' with
          | error f => rfl
          | ok r => cases r <;> rfl

/-- An odometer step goes from one position to the next. -/
theorem successor_visit (hb : Bounded start shape) (hk : k < shape.prod) :
    successor (visit start shape k) start shape =
      .ok (if k + 1 < shape.prod then some (visit start shape (k + 1)) else none) := by
  have h := successor_append hb hk [] [] []
  simp only [List.append_nil] at h
  rw [h]
  split <;> rfl

/-- What is left of a walk after `k` indices. -/
theorem take_visit (hb : Bounded start shape) {n : Nat} (hn : k + n = shape.prod) :
    take (n + 1) ⟨start, shape, if k < shape.prod then some (visit start shape k) else none⟩ =
      ((List.range' k n).map (visit start shape), .finished) := by
  induction n generalizing k with
  | zero =>
    rw [if_neg (by omega)]
    rfl
  | succ n ih =>
    have hk : k < shape.prod := by omega
    have hnext : next ⟨start, shape, some (visit start shape k)⟩ = .ok (some (visit start shape k,
        ⟨start, shape, if k + 1 < shape.prod then some (visit start shape (k + 1)) else none⟩)) := by
      rw [next]
      dsimp only
      rw [Except.bind_of_ok (successor_visit hb hk)]
      rfl
    rw [if_pos hk, take, hnext]
    dsimp only
    rw [ih (by omega), List.range'_succ, List.map_cons]

theorem visit_zero (hlen : start.length = shape.length) : visit start shape 0 = start := by
  induction start generalizing shape with
  | nil =>
    cases shape with
    | nil => rfl
    | cons d shape => simp at hlen
  | cons s start ih =>
    cases shape with
    | nil => simp at hlen
    | cons d shape =>
      have h : visit start shape 0 = start := ih (by simpa using hlen)
      rw [visit, Shape.digitsOf, Nat.zero_mod, Nat.zero_div, Region.plus_cons, Nat.add_zero]
      exact congrArg (s :: ·) h

/-- A walk through a box visits its indices in the order of their positions, and is finished. -/
theorem take_new (hb : Bounded start shape) :
    ∃ w, new start shape = .ok w ∧
      w.take (shape.prod + 1) = ((List.range shape.prod).map (visit start shape), .finished) := by
  have hcurrent : (if 0 ∈ shape then none else some start) =
      if 0 < shape.prod then some (visit start shape 0) else none := by
    rw [visit_zero hb.length]
    by_cases h0 : 0 ∈ shape
    · have hzero : shape.prod = 0 := List.prod_eq_zero h0
      rw [if_pos h0, if_neg (by omega)]
    · have hpos : shape.prod ≠ 0 := List.prod_ne_zero h0
      rw [if_neg h0, if_pos (by omega)]
  refine ⟨⟨start, shape, if 0 ∈ shape then none else some start⟩, ?_, ?_⟩
  · rw [new, if_neg (not_not_intro hb.length)]
  · rw [hcurrent, take_visit hb (Nat.zero_add shape.prod), List.range_eq_range']

theorem holds_visit (hlen : start.length = shape.length) (hk : k < shape.prod) :
    Holds start shape (visit start shape k) := by
  rw [visit, Region.holds_plus_iff_contains (by rw [Shape.length_digitsOf, hlen])]
  exact Shape.contains_digitsOf hk

end BoxWalk

namespace Shape

open BoxWalk (visit)

/-- All indices of a box are visited in the order of their positions. -/
theorem indicesFrom_eq (hb : Bounded start shape) :
    indicesFrom start shape = ⟨(List.range shape.prod).map (visit start shape), none⟩ := by
  have hprod : shape.foldl (· * ·) 1 = shape.prod := List.prod_eq_foldl.symm
  obtain ⟨w, hnew, htake⟩ := BoxWalk.take_new hb
  rw [indicesFrom, hnew]
  dsimp only
  rw [hprod, htake]

theorem mem_visits (hlen : start.length = shape.length) :
    i ∈ (List.range shape.prod).map (visit start shape) ↔ Holds start shape i := by
  rw [List.mem_map]
  constructor
  · rintro ⟨k, hk, rfl⟩
    exact BoxWalk.holds_visit hlen (List.mem_range.mp hk)
  · intro h
    obtain ⟨j, hj, rfl, -⟩ := h.exists_plus
    exact ⟨position shape j, List.mem_range.mpr (position_lt hj), by rw [visit, digitsOf_position hj]⟩

/-- No index has two positions. -/
theorem visit_inj (hlen : start.length = shape.length) {k k' : Nat} (hk : k < shape.prod)
    (hk' : k' < shape.prod) (h : visit start shape k = visit start shape k') : k = k' := by
  have hdigits : digitsOf k shape = digitsOf k' shape := by
    refine Region.plus_left_cancel ?_ ?_ h
    · rw [length_digitsOf, hlen]
    · rw [length_digitsOf, hlen]
  rw [← position_digitsOf hk, ← position_digitsOf hk', hdigits]

/-- No index is visited twice. -/
theorem nodup_visits (hlen : start.length = shape.length) :
    ((List.range shape.prod).map (visit start shape)).Nodup := by
  refine List.Nodup.map_on ?_ List.nodup_range
  intro k hk k' hk' h
  exact visit_inj hlen (List.mem_range.mp hk) (List.mem_range.mp hk') h

end Shape

end TiledTensor
