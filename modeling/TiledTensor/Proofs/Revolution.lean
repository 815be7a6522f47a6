import Mathlib.Tactic.Ring
import TiledTensor.Codelet.SubBox
import TiledTensor.Proofs.Walk

/-!
# A revolution of the odometer

The odometer of a sub-box moves an offset along with its index.  Its calls go through the rows of
the box in the order of the walk through the dimensions behind the first, and the call at the last
row leads back to the first one: what is taken from the offset when a dimension begins anew is what
was added to it on the way through the dimension.  This holds in any strides, not only in those of a
layout.

Within a call the odometer passes indices outside the box: a dimension has moved on to its end and
is not turned yet.  The calls succeed exactly if the offsets of all indices that can be passed are
words (`exists_advances_iff`); the call at the last row passes the largest of them.
-/

namespace TiledTensor

open Region (Holds Bounded)
open BoxWalk (visit visit_cons)

namespace SubBox

variable {start index i : Index} {shape others : Shape} {stride : List Nat} {r : Index × Nat}
  {s d step x base offset k m n row : Nat}

/-! ## Turning -/

/-- The dimensions before the one that is turned do not matter. -/
theorem turn_succ (j : Nat) : turn (s :: start) (d :: shape) (step :: stride) (j + 1) index offset =
    turn start shape stride j index offset := by
  induction index generalizing j offset with
  | nil => rfl
  | cons x index ih => simp only [turn, List.getElem?_cons_succ, ih]

/-- What a turn does: the first dimension goes on by one, or it is at its end and begins anew, and
the others are turned. -/
theorem turn_cons_eq_ok_iff :
    turn (s :: start) (d :: shape) (step :: stride) 0 (x :: index) offset = .ok r ↔
      x + 1 < Word.limit ∧ offset + step < Word.limit ∧ s + d < Word.limit ∧
        if x + 1 < s + d then r = ((x + 1) :: index, offset + step)
        else d * step < Word.limit ∧ d * step ≤ offset + step ∧
          ∃ r', turn start shape stride 0 index (offset + step - d * step) = .ok r' ∧
            r = (s :: r'.1, r'.2) := by
  rw [turn]
  dsimp only [List.getElem?_cons_zero]
  constructor
  · intro h
    obtain ⟨_, hx, h⟩ := bind_eq_ok h
    obtain ⟨_, hstep, h⟩ := bind_eq_ok h
    obtain ⟨_, hend, h⟩ := bind_eq_ok h
    obtain ⟨hxlt, rfl⟩ := Word.add_eq_ok_iff.mp hx
    obtain ⟨hsteplt, rfl⟩ := Word.add_eq_ok_iff.mp hstep
    obtain ⟨hendlt, rfl⟩ := Word.add_eq_ok_iff.mp hend
    refine ⟨hxlt, hsteplt, hendlt, ?_⟩
    split at h
    · rename_i hlt
      rw [if_pos hlt]
      exact (Except.ok.inj h).symm
    · rename_i hlt
      rw [if_neg hlt]
      obtain ⟨_, hmul, h⟩ := bind_eq_ok h
      obtain ⟨_, hsub, h⟩ := bind_eq_ok h
      obtain ⟨hback, rfl⟩ := Word.mul_eq_ok_iff.mp hmul
      obtain ⟨hle, rfl⟩ := Word.sub_eq_ok_iff.mp hsub
      obtain ⟨r', hrest, h⟩ := bind_eq_ok h
      rw [turn_succ] at hrest
      exact ⟨hback, hle, r', hrest, (Except.ok.inj h).symm⟩
  · rintro ⟨hx, hstep, hend, h⟩
    rw [Except.bind_of_ok (Word.add_eq_ok_iff.mpr ⟨hx, rfl⟩),
      Except.bind_of_ok (Word.add_eq_ok_iff.mpr ⟨hstep, rfl⟩),
      Except.bind_of_ok (Word.add_eq_ok_iff.mpr ⟨hend, rfl⟩)]
    split at h
    · rename_i hlt
      rw [if_pos hlt, h]
      rfl
    · rename_i hlt
      obtain ⟨hback, hle, r', hrest, rfl⟩ := h
      rw [if_neg hlt, Except.bind_of_ok (Word.mul_eq_ok_iff.mpr ⟨hback, rfl⟩),
        Except.bind_of_ok (Word.sub_eq_ok_iff.mpr ⟨hle, rfl⟩),
        Except.bind_of_ok ((turn_succ 0).trans hrest)]
      rfl

/-- At the end of a dimension the offset is the one at its start, and what was added since. -/
theorem offset_at_end {o : Nat} (hlast : x + 1 = s + d) :
    base + (x * step + o) + step = base + s * step + o + d * step :=
  calc base + (x * step + o) + step = base + ((x + 1) * step + o) := by ring
    _ = base + ((s + d) * step + o) := by rw [hlast]
    _ = base + s * step + o + d * step := by ring

/-- A turn that succeeds goes from one place of the box to the next, and from the last one to the
first; the offset follows. -/
theorem eq_of_turn (hstart : start.length = shape.length) (hstride : stride.length = shape.length)
    (hk : k < shape.prod)
    (h : turn start shape stride 0 (visit start shape k) (base + (visit start shape k).offset stride) =
      .ok r) :
    r = (visit start shape ((k + 1) % shape.prod),
      base + (visit start shape ((k + 1) % shape.prod)).offset stride) := by
  -- `base` is the offset of the dimensions before, which have already begun anew
  induction shape generalizing start stride base k r with
  | nil =>
    obtain rfl := List.length_eq_zero_iff.mp hstart
    obtain rfl := List.length_eq_zero_iff.mp hstride
    exact (Except.ok.inj h).symm
  | cons d shape ih =>
    obtain ⟨s, start, rfl⟩ := List.exists_cons_of_length_eq_add_one hstart
    obtain ⟨step, stride, rfl⟩ := List.exists_cons_of_length_eq_add_one hstride
    rw [List.prod_cons] at hk ⊢
    obtain ⟨hx, hq⟩ := Shape.digits_lt hk
    rw [visit_cons, Index.offset, turn_cons_eq_ok_iff] at h
    obtain ⟨-, -, -, h⟩ := h
    rw [visit_cons, Nat.mod_mul_right_mod, Nat.mod_mul_right_div_self, Index.offset]
    by_cases hturn : k % d + 1 < d
    · obtain ⟨hmod, hdiv⟩ := Shape.digits_succ_of_lt hturn
      rw [if_pos (by omega)] at h
      rw [h, hmod, hdiv, Nat.mod_eq_of_lt hq, Prod.mk.injEq]
      refine ⟨rfl, ?_⟩
      ring
    · have hlast : k % d + 1 = d := by omega
      obtain ⟨hmod, hdiv⟩ := Shape.digits_succ_of_carry (by omega) hlast
      rw [if_neg (by omega)] at h
      obtain ⟨-, -, r', hrest, rfl⟩ := h
      rw [offset_at_end (by omega : s + k % d + 1 = s + d), Nat.add_sub_cancel] at hrest
      rw [ih (Nat.succ.inj hstart) (Nat.succ.inj hstride) hq hrest, hmod, hdiv, Prod.mk.injEq]
      refine ⟨rfl, ?_⟩
      ring

/-! ## Indices that are passed -/

/-- The indices that are passed within a turn: one dimension has just moved on, those before it are
back at their start, and those behind it are anywhere in the box. -/
def Passes : Index → Shape → Index → Prop
  | s :: start, d :: shape, x :: i =>
    (s < x ∧ x ≤ s + d) ∧ Holds start shape i ∨ x = s ∧ Passes start shape i
  | _, _, _ => False

/-- A turn succeeds where the offsets of the indices that can be passed are words. -/
theorem exists_turn (hb : Bounded start shape) (hstride : stride.length = shape.length)
    (hk : k < shape.prod) (hpass : ∀ i, Passes start shape i → base + i.offset stride < Word.limit) :
    ∃ r, turn start shape stride 0 (visit start shape k)
      (base + (visit start shape k).offset stride) = .ok r := by
  induction shape generalizing start stride base k with
  | nil =>
    obtain rfl := List.length_eq_zero_iff.mp hb.length
    exact ⟨_, rfl⟩
  | cons d shape ih =>
    obtain ⟨s, start, rfl⟩ := List.exists_cons_of_length_eq_add_one hb.length
    obtain ⟨step, stride, rfl⟩ := List.exists_cons_of_length_eq_add_one hstride
    obtain ⟨hend, hb⟩ : s + d < Word.limit ∧ Bounded start shape := hb
    rw [List.prod_cons] at hk
    obtain ⟨hx, hq⟩ := Shape.digits_lt hk
    have hmoved : base + ((s + k % d) * step + (visit start shape (k / d)).offset stride) + step <
        Word.limit := by
      have h := hpass ((s + k % d + 1) :: visit start shape (k / d))
        (.inl ⟨⟨by omega, by omega⟩, BoxWalk.holds_visit hb.length hq⟩)
      rw [Index.offset, Nat.succ_mul] at h
      omega
    simp only [visit_cons, Index.offset, turn_cons_eq_ok_iff]
    by_cases hturn : k % d + 1 < d
    · exact ⟨_, by omega, hmoved, hend, by rw [if_pos (by omega)]⟩
    · have hrest : ∀ i, Passes start shape i → base + s * step + i.offset stride < Word.limit := by
        intro i hi
        have h := hpass (s :: i) (.inr ⟨rfl, hi⟩)
        rwa [Index.offset, ← Nat.add_assoc] at h
      obtain ⟨r, hr⟩ := ih hb (Nat.succ.inj hstride) hq hrest
      rw [offset_at_end (by omega : s + k % d + 1 = s + d)] at hmoved ⊢
      refine ⟨(s :: r.1, r.2), by omega, hmoved, hend, ?_⟩
      rw [if_neg (by omega), Nat.add_sub_cancel]
      exact ⟨by omega, Nat.le_add_left _ _, r, hr, rfl⟩

/-- The last place of a box has the largest offset. -/
theorem offset_le_last (hi : Holds start shape i) (hk : k + 1 = shape.prod) :
    i.offset stride ≤ (visit start shape k).offset stride := by
  induction shape generalizing start stride i k with
  | nil =>
    obtain rfl := List.length_eq_zero_iff.mp hi.length.1
    obtain rfl := List.length_eq_zero_iff.mp hi.length.2
    exact Nat.le_refl _
  | cons d shape ih =>
    obtain ⟨s, start, rfl⟩ := List.exists_cons_of_length_eq_add_one hi.length.1
    obtain ⟨x, i, rfl⟩ := List.exists_cons_of_length_eq_add_one hi.length.2
    obtain ⟨hx, hi⟩ : (s ≤ x ∧ x < s + d) ∧ Holds start shape i := hi
    cases stride with
    | nil => exact Nat.zero_le _
    | cons step stride =>
      rw [List.prod_cons] at hk
      obtain ⟨hmod, hdiv⟩ := Shape.digits_of_last hk
      rw [visit_cons, Index.offset, Index.offset]
      exact Nat.add_le_add (Nat.mul_le_mul_right step (by omega)) (ih hi hdiv)

/-- The turn at the last place passes the largest offsets. -/
theorem bounds_of_turn (hstart : start.length = shape.length) (hstride : stride.length = shape.length)
    (hk : k + 1 = shape.prod)
    (h : turn start shape stride 0 (visit start shape k) (base + (visit start shape k).offset stride) =
      .ok r) :
    Bounded start shape ∧ ∀ i, Passes start shape i → base + i.offset stride < Word.limit := by
  induction shape generalizing start stride base k r with
  | nil =>
    obtain rfl := List.length_eq_zero_iff.mp hstart
    exact ⟨trivial, fun i hi => absurd hi id⟩
  | cons d shape ih =>
    obtain ⟨s, start, rfl⟩ := List.exists_cons_of_length_eq_add_one hstart
    obtain ⟨step, stride, rfl⟩ := List.exists_cons_of_length_eq_add_one hstride
    rw [List.prod_cons] at hk
    obtain ⟨hmod, hdiv⟩ := Shape.digits_of_last hk
    have hlast : s + k % d + 1 = s + d := by omega
    rw [visit_cons, Index.offset, turn_cons_eq_ok_iff, if_neg (by omega), offset_at_end hlast,
      Nat.add_sub_cancel] at h
    obtain ⟨-, hmoved, hend, -, -, r', hrest, rfl⟩ := h
    obtain ⟨hb, hpass⟩ := ih (Nat.succ.inj hstart) (Nat.succ.inj hstride) hdiv hrest
    refine ⟨⟨hend, hb⟩, fun i hi => ?_⟩
    cases i with
    | nil => exact absurd hi id
    | cons x i =>
      rw [Index.offset]
      rcases hi with ⟨⟨-, hx⟩, hi⟩ | ⟨rfl, hi⟩
      · have hle : Index.offset i stride ≤ (visit start shape (k / d)).offset stride :=
          offset_le_last hi hdiv
        have hmul : x * step ≤ (s + d) * step := Nat.mul_le_mul_right step hx
        rw [Nat.add_mul] at hmul
        omega
      · rw [← Nat.add_assoc]
        exact hpass i hi

/-- The indices of the box have smaller offsets than those that are passed. -/
theorem offset_lt_of_holds (hi : Holds start shape i) (hstart : base + start.offset stride < Word.limit)
    (hpass : ∀ i, Passes start shape i → base + i.offset stride < Word.limit) :
    base + i.offset stride < Word.limit := by
  cases shape with
  | nil =>
    obtain rfl := List.length_eq_zero_iff.mp hi.length.1
    obtain rfl := List.length_eq_zero_iff.mp hi.length.2
    exact hstart
  | cons d shape =>
    obtain ⟨s, start, rfl⟩ := List.exists_cons_of_length_eq_add_one hi.length.1
    obtain ⟨x, i, rfl⟩ := List.exists_cons_of_length_eq_add_one hi.length.2
    obtain ⟨⟨hsx, hx⟩, hi⟩ : (s ≤ x ∧ x < s + d) ∧ Holds start shape i := hi
    have hend := hpass ((s + d) :: i) (.inl ⟨⟨by omega, Nat.le_refl _⟩, hi⟩)
    cases stride with
    | nil => exact hend
    | cons step stride =>
      have hle : x * step ≤ (s + d) * step := Nat.mul_le_mul_right step (Nat.le_of_lt hx)
      rw [Index.offset] at hend ⊢
      omega

/-! ## Rows -/

/-- The index that row `m` of a box starts at. -/
def rowStart (start : Index) (others : Shape) (m : Nat) : Index := start.plus (0 :: others.digitsOf m)

/-- The indices at which an odometer stands, before the first call and within the calls.  The first
dimension is not turned. -/
def Stands : Index → Shape → Index → Prop
  | s :: start, _ :: shape, x :: i => x = s ∧ (i = start ∨ Passes start shape i)
  | _, _, _ => False

theorem Stands.eq_or_passes (h : Stands start shape i) : i = start ∨ Passes start shape i := by
  cases start with
  | nil => exact absurd h id
  | cons s start =>
    cases shape with
    | nil => exact absurd h id
    | cons d shape =>
      cases i with
      | nil => exact absurd h id
      | cons x i =>
        obtain ⟨rfl, rfl | hi⟩ := h
        · exact .inl rfl
        · exact .inr (.inr ⟨rfl, hi⟩)

theorem rowStart_cons : rowStart (s :: start) others m = s :: visit start others m := rfl

/-- A call turns the dimensions behind the first. -/
theorem advance_cons_eq_ok_iff :
    advance (x :: index) (s :: start) (d :: shape) (step :: stride) offset = .ok r ↔
      ∃ r', turn start shape stride 0 index offset = .ok r' ∧ r = (x :: r'.1, r'.2) := by
  rw [advance]
  constructor
  · intro h
    obtain ⟨r', hturn, h⟩ := bind_eq_ok h
    rw [turn_succ] at hturn
    exact ⟨r', hturn, (Except.ok.inj h).symm⟩
  · rintro ⟨r', hturn, rfl⟩
    rw [turn_succ, Except.bind_of_ok hturn]
    rfl

section

variable (hstart : start.length = (row :: others).length)

include hstart

theorem rowStart_zero : rowStart start others 0 = start := by
  have h := BoxWalk.visit_zero hstart
  rwa [visit, Shape.digitsOf, Nat.zero_mod, Nat.zero_div] at h

theorem head?_rowStart : (rowStart start others m).head? = start.head? := by
  obtain ⟨s, start, rfl⟩ := List.exists_cons_of_length_eq_add_one hstart
  rfl

theorem tail_rowStart : (rowStart start others m).tail = visit start.tail others m := by
  obtain ⟨s, start, rfl⟩ := List.exists_cons_of_length_eq_add_one hstart
  rfl

/-- No two rows start at the same index. -/
theorem rowStart_inj (hm : m < others.prod) (hk : k < others.prod)
    (h : rowStart start others m = rowStart start others k) : m = k := by
  obtain ⟨s, start, rfl⟩ := List.exists_cons_of_length_eq_add_one hstart
  rw [rowStart_cons, rowStart_cons] at h
  exact Shape.visit_inj (Nat.succ.inj hstart) hm hk (List.cons_eq_cons.mp h).2

variable (hstride : stride.length = (row :: others).length)

include hstride

/-- A call that succeeds goes from one row to the next, and from the last row to the first. -/
theorem eq_of_advance (hm : m < others.prod)
    (h : advance (rowStart start others m) start (row :: others) stride
      ((rowStart start others m).offset stride) = .ok r) :
    r = (rowStart start others ((m + 1) % others.prod),
      (rowStart start others ((m + 1) % others.prod)).offset stride) := by
  obtain ⟨s, start, rfl⟩ := List.exists_cons_of_length_eq_add_one hstart
  obtain ⟨step, stride, rfl⟩ := List.exists_cons_of_length_eq_add_one hstride
  rw [rowStart_cons, Index.offset, advance_cons_eq_ok_iff] at h
  obtain ⟨r', hturn, rfl⟩ := h
  rw [eq_of_turn (Nat.succ.inj hstart) (Nat.succ.inj hstride) hm hturn]
  rfl

/-- A call succeeds where the offsets at which the odometer can stand are words. -/
theorem exists_advance (hb : Bounded start.tail others) (hm : m < others.prod)
    (hoffsets : ∀ i, Stands start (row :: others) i → i.offset stride < Word.limit) :
    ∃ r, advance (rowStart start others m) start (row :: others) stride
      ((rowStart start others m).offset stride) = .ok r := by
  obtain ⟨s, start, rfl⟩ := List.exists_cons_of_length_eq_add_one hstart
  obtain ⟨step, stride, rfl⟩ := List.exists_cons_of_length_eq_add_one hstride
  have hpass : ∀ i, Passes start others i → s * step + i.offset stride < Word.limit := fun i hi =>
    hoffsets (s :: i) ⟨rfl, .inr hi⟩
  obtain ⟨r, hr⟩ := exists_turn hb (Nat.succ.inj hstride) hm hpass
  rw [rowStart_cons, Index.offset]
  exact ⟨_, advance_cons_eq_ok_iff.mpr ⟨r, hr, rfl⟩⟩

/-- The call at the last row passes the largest offsets. -/
theorem bounds_of_advance (horigin : start.offset stride < Word.limit) (hm : m + 1 = others.prod)
    (h : advance (rowStart start others m) start (row :: others) stride
      ((rowStart start others m).offset stride) = .ok r) :
    Bounded start.tail others ∧
      ∀ i, Stands start (row :: others) i → i.offset stride < Word.limit := by
  obtain ⟨s, start, rfl⟩ := List.exists_cons_of_length_eq_add_one hstart
  obtain ⟨step, stride, rfl⟩ := List.exists_cons_of_length_eq_add_one hstride
  rw [rowStart_cons, Index.offset, advance_cons_eq_ok_iff] at h
  obtain ⟨r', hturn, rfl⟩ := h
  obtain ⟨hb, hpass⟩ := bounds_of_turn (Nat.succ.inj hstart) (Nat.succ.inj hstride) hm hturn
  refine ⟨hb, fun i hi => ?_⟩
  cases i with
  | nil => exact absurd hi id
  | cons x i =>
    obtain ⟨rfl, rfl | hi⟩ := hi
    · exact horigin
    · exact hpass i hi

/-- The offset of a row is the sum of the products of its index and the strides. -/
theorem dot_rowStart (hm : m < others.prod)
    (hoffsets : ∀ i, Stands start (row :: others) i → i.offset stride < Word.limit) :
    Word.dot (rowStart start others m) stride = .ok ((rowStart start others m).offset stride) := by
  obtain ⟨s, start, rfl⟩ := List.exists_cons_of_length_eq_add_one hstart
  obtain ⟨step, stride, rfl⟩ := List.exists_cons_of_length_eq_add_one hstride
  have hholds := BoxWalk.holds_visit (Nat.succ.inj hstart) hm
  have hlt := offset_lt_of_holds hholds (hoffsets (s :: start) ⟨rfl, .inl rfl⟩) fun i hi =>
    hoffsets (s :: i) ⟨rfl, .inr hi⟩
  refine Word.dot_eq_ok_iff.mpr ⟨?_, hlt, rfl⟩
  rw [rowStart_cons, List.length_cons, hholds.length.2, hstride, List.length_cons]

end

/-! ## Revolutions -/

/-- What `n` calls make of an index and its offset. -/
def advances (start : Index) (shape : Shape) (stride : List Nat) :
    Nat → Index → Nat → Except Fault (Index × Nat)
  | 0, index, offset => .ok (index, offset)
  | n + 1, index, offset => do
    let (index, offset) ← advance index start shape stride offset
    advances start shape stride n index offset

section

variable (hstart : start.length = (row :: others).length)
  (hstride : stride.length = (row :: others).length)

include hstart hstride

/-- Calls that succeed go through the rows in a circle. -/
theorem eq_of_advances (hm : m < others.prod)
    (h : advances start (row :: others) stride n (rowStart start others m)
      ((rowStart start others m).offset stride) = .ok r) :
    r = (rowStart start others ((m + n) % others.prod),
      (rowStart start others ((m + n) % others.prod)).offset stride) := by
  induction n generalizing m with
  | zero =>
    rw [Nat.add_zero, Nat.mod_eq_of_lt hm]
    exact (Except.ok.inj h).symm
  | succ n ih =>
    obtain ⟨_, hadvance, h⟩ := bind_eq_ok h
    obtain rfl := eq_of_advance hstart hstride hm hadvance
    rw [ih (Nat.mod_lt _ (Nat.zero_lt_of_lt hm)) h, Nat.mod_add_mod, Nat.add_right_comm, Nat.add_assoc]

/-- One revolution that succeeds ends at home. -/
theorem eq_of_revolution (hpos : 0 < others.prod)
    (h : advances start (row :: others) stride others.prod start (start.offset stride) = .ok r) :
    r = (start, start.offset stride) := by
  have hhome := rowStart_zero hstart
  have hr := eq_of_advances (m := 0) (r := r) hstart hstride hpos (by rwa [hhome])
  rwa [Nat.zero_add, Nat.mod_self, hhome] at hr

theorem exists_advances (hb : Bounded start.tail others) (hm : m < others.prod)
    (hoffsets : ∀ i, Stands start (row :: others) i → i.offset stride < Word.limit) :
    ∃ r, advances start (row :: others) stride n (rowStart start others m)
      ((rowStart start others m).offset stride) = .ok r := by
  induction n generalizing m with
  | zero => exact ⟨_, rfl⟩
  | succ n ih =>
    obtain ⟨r, hr⟩ := exists_advance hstart hstride hb hm hoffsets
    obtain rfl := eq_of_advance hstart hstride hm hr
    rw [advances, Except.bind_of_ok hr]
    exact ih (Nat.mod_lt _ (Nat.zero_lt_of_lt hm))

/-- Where the offsets at which it can stand are words, an odometer goes round and round. -/
theorem advances_eq (hb : Bounded start.tail others) (hpos : 0 < others.prod)
    (hoffsets : ∀ i, Stands start (row :: others) i → i.offset stride < Word.limit) (n : Nat) :
    advances start (row :: others) stride n start (start.offset stride) =
      .ok (rowStart start others (n % others.prod),
        (rowStart start others (n % others.prod)).offset stride) := by
  obtain ⟨r, hr⟩ := exists_advances (n := n) hstart hstride hb hpos hoffsets
  have heq := eq_of_advances hstart hstride hpos hr
  rw [Nat.zero_add] at heq
  rwa [rowStart_zero hstart, heq] at hr

/-- Calls that go past the last row have passed all that can be passed. -/
theorem bounds_of_advances (horigin : start.offset stride < Word.limit) (hm : m < others.prod)
    (hn : others.prod ≤ m + n)
    (h : advances start (row :: others) stride n (rowStart start others m)
      ((rowStart start others m).offset stride) = .ok r) :
    Bounded start.tail others ∧
      ∀ i, Stands start (row :: others) i → i.offset stride < Word.limit := by
  induction n generalizing m with
  | zero => exact absurd hn (Nat.not_le.mpr hm)
  | succ n ih =>
    obtain ⟨_, hadvance, h⟩ := bind_eq_ok h
    by_cases hlast : m + 1 = others.prod
    · exact bounds_of_advance hstart hstride horigin hlast hadvance
    · obtain rfl := eq_of_advance hstart hstride hm hadvance
      dsimp only at h
      rw [Nat.mod_eq_of_lt (by omega)] at h
      exact ih (by omega) (by omega) h

/-- An odometer can be called again and again exactly if the offsets at which it can stand are
words. -/
theorem exists_advances_iff (h0 : 0 ∉ others) (horigin : start.offset stride < Word.limit) :
    (∀ n, ∃ r, advances start (row :: others) stride n start (start.offset stride) = .ok r) ↔
      Bounded start.tail others ∧
        ∀ i, Stands start (row :: others) i → i.offset stride < Word.limit := by
  have hpos : 0 < others.prod := Shape.prod_pos h0
  constructor
  · intro h
    obtain ⟨r, hr⟩ := h others.prod
    refine bounds_of_advances (m := 0) (r := r) hstart hstride horigin hpos (Nat.le_add_left _ 0) ?_
    rwa [rowStart_zero hstart]
  · rintro ⟨hb, hoffsets⟩ n
    exact ⟨_, advances_eq hstart hstride hb hpos hoffsets n⟩

end

/-- Where an odometer stands after `k` calls, beside the rows that a walk visits. -/
structure InStep (start : Index) (stride : List Nat) (rows : List Index) (k : Nat) (index : Index)
    (offset : Nat) : Prop where
  first : index.head? = start.head?
  /-- Behind the first dimension the index is the one that the walk visits, which begins anew after
  its last one. -/
  others : rows[k % rows.length]? = some index.tail
  offset : Word.dot index stride = .ok offset
  /-- The odometer is home after whole revolutions only. -/
  home : index = start ↔ rows.length ∣ k

/-- An odometer keeps in step with the walk through the dimensions behind the first, round after
round, and no call faults. -/
theorem advances_follow_walk (hrank : 0 < shape.length) (hstride : stride.length = shape.length)
    (hpos : 0 ∉ shape) (hends : Bounded start shape)
    (hoffsets : ∀ i, Stands start shape i → i.offset stride < Word.limit) :
    ∃ w rows origin, BoxWalk.new start.tail shape.tail = .ok w ∧
      w.take (rows.length + 1) = (rows, .finished) ∧ rows.length = shape.tail.prod ∧
      Word.dot start stride = .ok origin ∧
      (∀ k, ∃ index offset, advances start shape stride k start origin = .ok (index, offset) ∧
        InStep start stride rows k index offset) ∧
      advances start shape stride shape.tail.prod start origin = .ok (start, origin) := by
  obtain ⟨row, others, rfl⟩ := List.exists_cons_of_length_pos hrank
  have hb : Bounded start.tail others := hends.tail
  have hrows : 0 < others.prod := Shape.prod_pos (mt (List.mem_cons_of_mem row) hpos)
  have hhome := rowStart_zero hends.length
  have hcalls := advances_eq hends.length hstride hb hrows hoffsets
  obtain ⟨w, hw, htake⟩ := BoxWalk.take_new hb
  refine ⟨w, (List.range others.prod).map (visit start.tail others), start.offset stride, hw, ?_,
    by simp, ?_, fun k => ⟨_, _, hcalls k, ?_⟩, ?_⟩
  · rw [List.length_map, List.length_range]
    exact htake
  · have h := dot_rowStart hends.length hstride hrows hoffsets
    rwa [hhome] at h
  · have hk : k % others.prod < others.prod := Nat.mod_lt k hrows
    refine ⟨head?_rowStart hends.length, ?_, dot_rowStart hends.length hstride hk hoffsets, ?_⟩
    · simp [hk, tail_rowStart hends.length]
    · rw [List.length_map, List.length_range, Nat.dvd_iff_mod_eq_zero]
      refine ⟨fun h => rowStart_inj hends.length hk hrows (h.trans hhome.symm), fun h => ?_⟩
      rw [h, hhome]
  · have h := hcalls others.prod
    rwa [Nat.mod_self, hhome] at h

/-- The strides are those of no layout, and the largest offset that is passed is the last word. -/
theorem advances_follow_walk_of_last_word :
    advances [2, 1, 2] [5, 2, 2] [1, 5, 0x3FFFFFFFFFFFFFFE] 4 [2, 1, 2] 0x8000000000000003 =
        .ok ([2, 1, 2], 0x8000000000000003) ∧
      ∀ k, ∃ index offset, advances [2, 1, 2] [5, 2, 2] [1, 5, 0x3FFFFFFFFFFFFFFE] k [2, 1, 2]
          0x8000000000000003 = .ok (index, offset) ∧
        [[1, 2], [2, 2], [1, 3], [2, 3]][k % 4]? = some index.tail ∧
        Word.dot index [1, 5, 0x3FFFFFFFFFFFFFFE] = .ok offset ∧ (index = [2, 1, 2] ↔ 4 ∣ k) := by
  have hends : Bounded [2, 1, 2] [5, 2, 2] := ⟨by decide, by decide, by decide, trivial⟩
  have horigin : Index.offset [2, 1, 2] [1, 5, 0x3FFFFFFFFFFFFFFE] < Word.limit := by decide
  have hoffsets : ∀ i, Stands [2, 1, 2] [5, 2, 2] i →
      i.offset [1, 5, 0x3FFFFFFFFFFFFFFE] < Word.limit :=
    (bounds_of_advance (m := 3) (by decide) (by decide) horigin (by decide) (by rfl)).2
  obtain ⟨w, rows, origin, hw, htake, hlen, hdot, hcalls, hhome⟩ :=
    advances_follow_walk (by decide) (by decide) (by decide) hends hoffsets
  obtain rfl : w = ⟨[1, 2], [2, 2], some [1, 2]⟩ := (Except.ok.inj hw).symm
  rw [hlen] at htake
  obtain rfl : rows = [[1, 2], [2, 2], [1, 3], [2, 3]] := (congrArg Prod.fst htake).symm
  obtain rfl : origin = 0x8000000000000003 := (Except.ok.inj hdot).symm
  refine ⟨hhome, fun k => ?_⟩
  obtain ⟨index, offset, hcall, hstep⟩ := hcalls k
  exact ⟨index, offset, hcall, hstep.others, hstep.offset, hstep.home⟩

/-! ## The odometers of a copy -/

variable {α : Type} {b : SubBox} {src dst new : List α} {room : Except Fault (List Nat)}
  {words : List Nat}

/-- Both odometers are called once for each row. -/
theorem advances_of_copyRows {p p' : Progress α} (h : copyRows b row src n p = .ok p') :
    advances b.srcStart b.shape b.srcStride n p.srcIndex p.srcOffset =
        .ok (p'.srcIndex, p'.srcOffset) ∧
      advances b.dstStart b.shape b.dstStride n p.dstIndex p.dstOffset =
        .ok (p'.dstIndex, p'.dstOffset) := by
  induction n generalizing p with
  | zero =>
    obtain rfl := Except.ok.inj h
    exact ⟨rfl, rfl⟩
  | succ n ih =>
    obtain ⟨_, -, h⟩ := bind_eq_ok h
    obtain ⟨⟨_, _⟩, hsrc, h⟩ := bind_eq_ok h
    obtain ⟨⟨_, _⟩, hdst, h⟩ := bind_eq_ok h
    obtain ⟨hsrcs, hdsts⟩ := ih h
    exact ⟨(Except.bind_of_ok hsrc _).trans hsrcs, (Except.bind_of_ok hdst _).trans hdsts⟩

/-- A copy that has used its room has copied all rows. -/
theorem exists_copyRows (h : b.copy src dst room = .ok (new, some words)) :
    ∃ row others rows srcOffset dstOffset p, b.shape = row :: others ∧ 0 ∉ b.shape ∧
      b.srcStart.length = b.shape.length ∧ Word.product others = .ok rows ∧
      b.startOffsets = .ok (srcOffset, dstOffset) ∧
      copyRows b row src rows ⟨b.srcStart, srcOffset, b.dstStart, dstOffset, dst⟩ = .ok p ∧
      words = p.srcIndex ++ p.dstIndex := by
  rw [copy.eq_def] at h
  split at h
  · split at h <;> cases h
  rename_i row others hshape
  split at h
  · cases h
  rename_i h0
  obtain ⟨_, -, h⟩ := bind_eq_ok h
  split at h
  · cases h
  split at h
  · cases h
  rename_i hlens
  obtain ⟨rows, hrows, h⟩ := bind_eq_ok h
  obtain ⟨⟨srcOffset, dstOffset⟩, horigins, h⟩ := bind_eq_ok h
  obtain ⟨p, hp, h⟩ := bind_eq_ok h
  exact ⟨row, others, rows, srcOffset, dstOffset, p, hshape, h0, not_not.mp (not_or.mp hlens).1, hrows,
    horigins, hp, (Option.some.inj (Prod.mk.inj (Except.ok.inj h)).2).symm⟩

/-- A copy that succeeds leaves its odometers at home: the room that it has used holds the two
starts. -/
theorem copy_returns_home (hlen : b.dstStart.length = b.shape.length)
    (h : b.copy src dst room = .ok (new, some words)) : words = b.srcStart ++ b.dstStart := by
  obtain ⟨row, others, rows, srcOffset, dstOffset, p, hshape, h0, hsrcLen, hrows, horigins, hp, rfl⟩ :=
    exists_copyRows h
  rw [hshape] at h0 hsrcLen hlen
  obtain ⟨_, hsrcDot, horigins⟩ := bind_eq_ok horigins
  obtain ⟨_, hdstDot, horigins⟩ := bind_eq_ok horigins
  obtain ⟨rfl, rfl⟩ := Prod.mk.inj (Except.ok.inj horigins)
  obtain ⟨hsrcStride, -, rfl⟩ := Word.dot_eq_ok_iff.mp hsrcDot
  obtain ⟨hdstStride, -, rfl⟩ := Word.dot_eq_ok_iff.mp hdstDot
  have hpos : 0 < others.prod := Shape.prod_pos (mt (List.mem_cons_of_mem row) h0)
  obtain ⟨hsrc, hdst⟩ := advances_of_copyRows hp
  rw [hshape, Word.eq_of_product hrows] at hsrc hdst
  have hsrcHome := eq_of_revolution hsrcLen (hsrcStride.symm.trans hsrcLen) hpos hsrc
  have hdstHome := eq_of_revolution hlen (hdstStride.symm.trans hlen) hpos hdst
  rw [(Prod.mk.inj hsrcHome).1, (Prod.mk.inj hdstHome).1]

end SubBox

end TiledTensor
