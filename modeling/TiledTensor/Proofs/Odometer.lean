import TiledTensor.Proofs.Revolution

/-!
# The odometer copies element by element

A sub-box is copied row by row, and the two odometers find the rows: after `m` rows their indices
are those of row `m`, and their offsets the positions of its first element.  So the copy puts into
each place of the box in the destination what is at the same place of the box in the source, and
leaves all other places alone.

The offset of an odometer runs past the end of a dimension before the odometer turns it, so the
count of the buffer has to leave room in the range of words: half of the range is enough.
-/

namespace TiledTensor

open Region (Holds Inside)
open BoxWalk (visit)

namespace Word

/-- Without a zero no partial product is larger than the product. -/
theorem productFrom_eq {acc : Nat} {xs : List Nat} (h0 : 0 ∉ xs) (h : acc * xs.prod < limit) :
    productFrom acc xs = .ok (acc * xs.prod) := by
  induction xs generalizing acc with
  | nil => simp [productFrom]
  | cons x xs ih =>
    obtain ⟨-, hxs⟩ := not_or.mp (mt List.mem_cons.mpr h0)
    rw [List.prod_cons, ← Nat.mul_assoc] at h ⊢
    have hle : acc * x ≤ acc * x * xs.prod :=
      Nat.le_mul_of_pos_right _ (Shape.prod_pos hxs)
    rw [productFrom, Except.bind_of_ok (mul_eq_ok_iff.mpr ⟨Nat.lt_of_le_of_lt hle h, rfl⟩), ih hxs h]

theorem product_eq {xs : List Nat} (h0 : 0 ∉ xs) (h : xs.prod < limit) :
    product xs = .ok xs.prod := by
  rw [product, productFrom_eq h0 (by rwa [Nat.one_mul]), Nat.one_mul]

end Word

/-! ## Boxes in a buffer -/

namespace Region

variable {start i : Index} {extent shape : Shape}

/-- A place of a box that lies inside a shape is a place of the shape. -/
theorem Inside.contains_plus (h : Inside start extent shape) (hi : extent.contains i = true) :
    shape.contains (start.plus i) = true := by
  induction start generalizing extent shape i with
  | nil => cases extent <;> cases shape <;> first | exact absurd h id | rfl
  | cons s start ih =>
    cases extent with
    | nil => cases shape <;> exact absurd h id
    | cons e extent =>
      cases shape with
      | nil => exact absurd h id
      | cons d shape =>
        cases i with
        | nil => cases hi
        | cons x i =>
          obtain ⟨hx, hi⟩ := Shape.contains_cons.mp hi
          have hend : s + e ≤ d := h.1
          have hplace : s + x < d := by omega
          exact Shape.contains_cons.mpr ⟨hplace, ih h.2 hi⟩

theorem Inside.contains_of_holds (h : Inside start extent shape) (hi : Holds start extent i) :
    shape.contains i = true := by
  obtain ⟨o, ho, rfl, -⟩ := hi.exists_plus
  exact h.contains_plus ho

end Region

namespace SubBox

variable {start : Index} {shape : Shape} {stride : List Nat}

/-- What is passed in a box inside a shape lies beyond the shape in one dimension at most. -/
theorem Passes.position_lt {i : Index} {extent dims : Shape} (hi : Passes start extent i)
    (hin : Inside start extent dims) (h0 : 0 ∉ extent) : dims.position i < 2 * dims.prod := by
  induction start generalizing extent dims i with
  | nil => cases extent <;> exact absurd hi id
  | cons s start ih =>
    cases extent with
    | nil => exact absurd hi id
    | cons e extent =>
      cases dims with
      | nil => exact absurd hin id
      | cons d dims =>
        cases i with
        | nil => exact absurd hi id
        | cons x i =>
          obtain ⟨hend, hin⟩ : s + e ≤ d ∧ Inside start extent dims := hin
          obtain ⟨he, h0⟩ := not_or.mp (mt List.mem_cons.mpr h0)
          rw [Shape.position, List.prod_cons]
          rcases hi with ⟨⟨hsx, hx⟩, hi⟩ | ⟨rfl, hi⟩
          · have hp : Shape.position dims i < dims.prod :=
              Shape.position_lt (hin.contains_of_holds hi)
            have hle : d * (Shape.position dims i + 1) ≤ d * dims.prod := Nat.mul_le_mul_left d hp
            rw [Nat.mul_succ] at hle
            omega
          · rw [Nat.mul_left_comm]
            exact Shape.add_mul_lt (by omega) (ih hi hin h0)

/-- A box lies in a buffer with these strides, and twice the elements of the buffer can be
counted. -/
structure Lies (start : Index) (shape : Shape) (stride : List Nat) (l : Layout) : Prop where
  inside : Inside start shape l.shape
  strides : stride = l.stride
  small : 2 * l.count ≤ Word.limit

namespace Lies

variable {l : Layout} {others : Shape} {row m x : Nat}

/-- The elements of a row stand one after the other. -/
theorem position_row (h : Lies start (row :: others) stride l) :
    l.shape.position (start.plus (x :: others.digitsOf m)) =
      l.shape.position (rowStart start others m) + x := by
  have hin := h.inside
  cases start with
  | nil => exact absurd hin id
  | cons s start =>
    cases hs : l.shape with
    | nil => rw [hs] at hin; exact absurd hin id
    | cons d dims =>
      rw [rowStart, Region.plus_cons, Region.plus_cons, Shape.position, Shape.position]
      omega

/-- Each element of a row has a place in the buffer. -/
theorem contains_row (h : Lies start (row :: others) stride l) (hm : m < others.prod) (hx : x < row) :
    l.shape.contains (start.plus (x :: others.digitsOf m)) = true :=
  h.inside.contains_plus (Shape.contains_cons.mpr ⟨hx, Shape.contains_digitsOf hm⟩)

theorem dot_start (h : Lies start shape stride l) (h0 : 0 ∉ shape) :
    Word.dot start stride = .ok (l.shape.position start) := by
  have hpos : 0 < shape.prod := Shape.prod_pos h0
  have hin := h.inside.contains_plus (Shape.contains_digitsOf hpos)
  have hstart : start.plus (shape.digitsOf 0) = start := BoxWalk.visit_zero h.inside.length.1
  rw [hstart] at hin
  rw [h.strides, Layout.dot_stride hin]

/-- The rows of a box can be counted. -/
theorem product_others (h : Lies start (row :: others) stride l) (h0 : 0 ∉ row :: others) :
    Word.product others = .ok others.prod := by
  obtain ⟨hrow0, hothers0⟩ := not_or.mp (mt List.mem_cons.mpr h0)
  obtain ⟨l', -, hl'⟩ := Layout.new_of_le h.inside.le
  have hcount := l'.count_eq
  rw [hl', List.prod_cons] at hcount
  have hle : others.prod ≤ row * others.prod := Nat.le_mul_of_pos_left _ (by omega)
  exact Word.product_eq hothers0 (by omega)

theorem row_le_count (h : Lies start (row :: others) stride l) (hrow : 0 < row)
    (hm : m < others.prod) : l.shape.position (rowStart start others m) + row ≤ l.count := by
  have hlast : row - 1 < row := by omega
  have hlt := Layout.position_lt_count (h.contains_row hm hlast)
  rw [h.position_row] at hlt
  omega

/-- A place of the buffer belongs to one row at most. -/
theorem row_unique (h : Lies start (row :: others) stride l) {k y : Nat} (hm : m < others.prod)
    (hk : k < others.prod) (hx : x < row) (hy : y < row)
    (heq : l.shape.position (rowStart start others m) + x =
      l.shape.position (rowStart start others k) + y) : m = k := by
  rw [← h.position_row, ← h.position_row] at heq
  have hlen : start.length = others.length + 1 := h.inside.length.1
  have hplus : start.plus (x :: others.digitsOf m) = start.plus (y :: others.digitsOf k) := by
    rw [← Shape.digitsOf_position (h.contains_row hm hx), heq,
      Shape.digitsOf_position (h.contains_row hk hy)]
  have hdigits := Region.plus_left_cancel (by simp [hlen]) (by simp [hlen]) hplus
  rw [← Shape.position_digitsOf hm, (List.cons_eq_cons.mp hdigits).2, Shape.position_digitsOf hk]

/-- The offsets at which an odometer can stand are less than twice the count. -/
theorem offset_lt (h : Lies start (row :: others) stride l) (h0 : 0 ∉ row :: others) {i : Index}
    (hi : Stands start (row :: others) i) : i.offset stride < Word.limit := by
  obtain ⟨hin, rfl, hsmall⟩ := h
  rw [l.offset_stride]
  refine Nat.lt_of_lt_of_le ?_ hsmall
  rw [l.count_eq.1]
  rcases hi.eq_or_passes with rfl | hi
  · have hp := Shape.position_lt (hin.contains_of_holds (Region.holds_start hin.length.1 h0))
    omega
  · exact hi.position_lt hin h0

/-- The odometer goes from one row to the next, and from the last row to the first. -/
theorem advance_rowStart (h : Lies start (row :: others) stride l) (h0 : 0 ∉ row :: others)
    (hm : m < others.prod) :
    advance (rowStart start others m) start (row :: others) stride
        (l.shape.position (rowStart start others m)) =
      .ok (rowStart start others ((m + 1) % others.prod),
        l.shape.position (rowStart start others ((m + 1) % others.prod))) := by
  have hstart := h.inside.length.1
  have hb := h.inside.bounded (l.extent_lt (h.inside.zero_notMem h0))
  have hstride : stride.length = (row :: others).length := by
    rw [h.strides, l.length_stride, h.inside.length.2]
  obtain ⟨r, hr⟩ := exists_advance hstart hstride hb.tail hm fun i => h.offset_lt h0
  have heq := eq_of_advance hstart hstride hm hr
  obtain ⟨-, rfl, -⟩ := h
  rwa [heq, l.offset_stride, l.offset_stride] at hr

end Lies

/-- A row is copied, and the rest of the buffer is kept. -/
theorem copyRow_eq {α : Type} (src dst : List α) (n : Nat) {srcAt dstAt : Nat}
    (hsrc : srcAt + n ≤ src.length) (hdst : dstAt + n ≤ dst.length)
    (hsrcWord : src.length < Word.limit) (hdstWord : dst.length < Word.limit) :
    ∃ new, copyRow src dst n srcAt dstAt = .ok new ∧ new.length = dst.length ∧
      (∀ x < n, new[dstAt + x]? = src[srcAt + x]?) ∧
      ∀ j, ¬(dstAt ≤ j ∧ j < dstAt + n) → new[j]? = dst[j]? := by
  have hlen : (dst.take dstAt).length = dstAt := by
    rw [List.length_take]
    omega
  have hrow : ((src.drop srcAt).take n).length = n := by
    rw [List.length_take, List.length_drop]
    omega
  refine ⟨dst.take dstAt ++ (src.drop srcAt).take n ++ dst.drop (dstAt + n), ?_, ?_, ?_, ?_⟩
  · rw [copyRow, Except.bind_of_ok (Word.add_eq_ok_iff.mpr ⟨by omega, rfl⟩ : Word.add dstAt n = _),
      Except.bind_of_ok (Word.add_eq_ok_iff.mpr ⟨by omega, rfl⟩ : Word.add srcAt n = _),
      if_pos ⟨hdst, hsrc⟩]
    rfl
  · rw [List.length_append, List.length_append, hlen, hrow, List.length_drop]
    omega
  · intro x hx
    rw [List.append_assoc, List.getElem?_append_right (by omega), hlen, Nat.add_sub_cancel_left,
      List.getElem?_append_left (by omega), List.getElem?_take, if_pos hx, List.getElem?_drop]
  · intro j hj
    by_cases hlow : j < dstAt
    · rw [List.append_assoc, List.getElem?_append_left (by omega), List.getElem?_take, if_pos hlow]
    · have hhigh : dstAt + n ≤ j := by omega
      rw [List.getElem?_append_right (by rw [List.length_append]; omega), List.length_append, hlen,
        hrow, List.getElem?_drop, Nat.add_sub_cancel' hhigh]

/-! ## Copying -/

variable {α : Type} {b : SubBox} {ls ld : Layout} {others : Shape} {row m n : Nat} {src dst : List α}

/-- The rows from number `m` on are copied, and the rest of the destination is kept. -/
theorem copyRows_eq (hshape : b.shape = row :: others) (h0 : 0 ∉ row :: others)
    (hs : Lies b.srcStart (row :: others) b.srcStride ls)
    (hd : Lies b.dstStart (row :: others) b.dstStride ld)
    (hsrc : src.length = ls.count) (hdst : dst.length = ld.count) (hn : m + n = others.prod) :
    ∃ p, copyRows b row src n ⟨rowStart b.srcStart others (m % others.prod),
          ls.shape.position (rowStart b.srcStart others (m % others.prod)),
          rowStart b.dstStart others (m % others.prod),
          ld.shape.position (rowStart b.dstStart others (m % others.prod)), dst⟩ = .ok p ∧
      p.dst.length = dst.length ∧
      (∀ k x, m ≤ k → k < others.prod → x < row →
        p.dst[ld.shape.position (rowStart b.dstStart others k) + x]? =
          src[ls.shape.position (rowStart b.srcStart others k) + x]?) ∧
      ∀ j, (∀ k x, m ≤ k → k < others.prod → x < row →
        j ≠ ld.shape.position (rowStart b.dstStart others k) + x) → p.dst[j]? = dst[j]? := by
  have hrow : 0 < row := Nat.pos_of_ne_zero fun h => h0 (h ▸ List.mem_cons_self)
  induction n generalizing m dst with
  | zero => exact ⟨_, rfl, rfl, fun k x hk hlt _ => absurd hlt (by omega), fun j _ => rfl⟩
  | succ n ih =>
    have hm : m < others.prod := by omega
    obtain ⟨new, hcopy, hlen, hcopied, hkept⟩ := copyRow_eq src dst row
      (by rw [hsrc]; exact hs.row_le_count hrow hm) (by rw [hdst]; exact hd.row_le_count hrow hm)
      (by rw [hsrc]; exact ls.count_eq.2) (by rw [hdst]; exact ld.count_eq.2)
    obtain ⟨p, hp, hplen, hpcopied, hpkept⟩ := ih (m := m + 1) (hlen.trans hdst) (by omega)
    have hother : ∀ x < row, ∀ k y, m + 1 ≤ k → k < others.prod → y < row →
        ld.shape.position (rowStart b.dstStart others m) + x ≠
          ld.shape.position (rowStart b.dstStart others k) + y := by
      intro x hx k y hk hlt hy heq
      have := hd.row_unique hm hlt hx hy heq
      omega
    refine ⟨p, ?_, hplen.trans hlen, fun k x hk hlt hx => ?_, fun j hj => ?_⟩
    · rw [Nat.mod_eq_of_lt hm, copyRows, Except.bind_of_ok hcopy, hshape,
        Except.bind_of_ok (hs.advance_rowStart h0 hm)]
      dsimp only
      rw [Except.bind_of_ok (hd.advance_rowStart h0 hm)]
      exact hp
    · by_cases hkm : k = m
      · subst hkm
        rw [hpkept _ (hother x hx), hcopied x hx]
      · exact hpcopied k x (by omega) hlt hx
    · rw [hpkept j fun k x hk hlt hx => hj k x (by omega) hlt hx]
      refine hkept j fun hin => ?_
      exact hj m (j - ld.shape.position (rowStart b.dstStart others m)) (Nat.le_refl m) hm
        (by omega) (by omega)

/-- What a copy makes of the destination: the box is as in the source, and the rest as before. -/
structure Copied (b : SubBox) (ls ld : Layout) (src dst new : List α) : Prop where
  length : new.length = dst.length
  inside : ∀ o, b.shape.contains o = true →
    new[ld.shape.position (b.dstStart.plus o)]? = src[ls.shape.position (b.srcStart.plus o)]?
  outside : ∀ i, ld.shape.contains i = true → ¬Holds b.dstStart b.shape i →
    new[ld.shape.position i]? = dst[ld.shape.position i]?

/-- All rows together are the box. -/
theorem Copied.of_rows {new : List α} (hshape : b.shape = row :: others)
    (hs : Lies b.srcStart (row :: others) b.srcStride ls)
    (hd : Lies b.dstStart (row :: others) b.dstStride ld) (hlen : new.length = dst.length)
    (hcopied : ∀ k x, 0 ≤ k → k < others.prod → x < row →
      new[ld.shape.position (rowStart b.dstStart others k) + x]? =
        src[ls.shape.position (rowStart b.srcStart others k) + x]?)
    (hkept : ∀ j, (∀ k x, 0 ≤ k → k < others.prod → x < row →
      j ≠ ld.shape.position (rowStart b.dstStart others k) + x) → new[j]? = dst[j]?) :
    Copied b ls ld src dst new := by
  refine ⟨hlen, fun o ho => ?_, fun i hi hout => hkept _ fun k x _ hk hx heq => hout ?_⟩
  · rw [hshape] at ho
    cases o with
    | nil => exact absurd ho (by simp [Shape.contains])
    | cons x o =>
      obtain ⟨hx, ho⟩ := Shape.contains_cons.mp ho
      have h := hcopied (others.position o) x (Nat.zero_le _) (Shape.position_lt ho) hx
      rwa [← hd.position_row, ← hs.position_row, Shape.digitsOf_position ho] at h
  · rw [← hd.position_row] at heq
    rw [← Shape.digitsOf_position hi, heq, Shape.digitsOf_position (hd.contains_row hk hx), hshape]
    refine (Region.holds_plus_iff_contains ?_).mpr
      (Shape.contains_cons.mpr ⟨hx, Shape.contains_digitsOf hk⟩)
    rw [hd.inside.length.1, List.length_cons, List.length_cons, Shape.length_digitsOf]

/-- Copying a box is exact, and there is room for it. -/
theorem copy_eq (hs : Lies b.srcStart b.shape b.srcStride ls)
    (hd : Lies b.dstStart b.shape b.dstStride ld) (hsrc : src.length = ls.count)
    (hdst : dst.length = ld.count) :
    ∃ new words, b.copy src dst (.ok (List.replicate (2 * b.shape.length) 0)) = .ok (new, words) ∧
      Copied b ls ld src dst new := by
  cases hshape : b.shape with
  | nil =>
    rw [hshape] at hs hd
    have hnil : ls.shape = [] ∧ ld.shape = [] :=
      ⟨List.length_eq_zero_iff.mp hs.inside.length.2, List.length_eq_zero_iff.mp hd.inside.length.2⟩
    rw [ls.count_eq.1, hnil.1, List.prod_nil] at hsrc
    rw [ld.count_eq.1, hnil.2, List.prod_nil] at hdst
    obtain ⟨x, rfl⟩ := List.length_eq_one_iff.mp hsrc
    obtain ⟨y, rfl⟩ := List.length_eq_one_iff.mp hdst
    refine ⟨[x], none, by rw [copy, hshape], rfl, fun o _ => ?_, fun i hi hout => absurd ?_ hout⟩
    · rw [hnil.1, hnil.2]
      rfl
    · rw [hnil.2] at hi
      rw [hshape, List.length_eq_zero_iff.mp hd.inside.length.1,
        List.length_eq_zero_iff.mp (Shape.length_of_contains hi)]
      trivial
  | cons row others =>
    by_cases h0 : 0 ∈ b.shape
    · refine ⟨dst, none, by rw [copy.eq_def, hshape]; exact if_pos (hshape ▸ h0), rfl, fun o ho => ?_,
        fun _ _ _ => rfl⟩
      have hlt := Shape.position_lt ho
      rw [List.prod_eq_zero h0] at hlt
      exact absurd hlt (Nat.not_lt_zero _)
    · rw [hshape] at hs hd h0
      obtain ⟨p, hp, hlen, hcopied, hkept⟩ :=
        copyRows_eq (m := 0) hshape h0 hs hd hsrc hdst (Nat.zero_add others.prod)
      have hoffsets : b.startOffsets =
          .ok (ls.shape.position b.srcStart, ld.shape.position b.dstStart) := by
        rw [startOffsets, Except.bind_of_ok (hs.dot_start h0), Except.bind_of_ok (hd.dot_start h0)]
        rfl
      rw [Nat.zero_mod, rowStart_zero hs.inside.length.1, rowStart_zero hd.inside.length.1] at hp
      refine ⟨p.dst, some (p.srcIndex ++ p.dstIndex), ?_, .of_rows hshape hs hd hlen hcopied hkept⟩
      have hroom : ¬(List.replicate (2 * (row :: others).length) 0).length < (row :: others).length := by
        rw [List.length_replicate]
        omega
      have hlens : ¬(b.srcStart.length ≠ (row :: others).length ∨ b.dstStart.length ≠
          (List.replicate (2 * (row :: others).length) 0).length - (row :: others).length) := by
        have := hs.inside.length.1
        have := hd.inside.length.1
        rw [List.length_replicate]
        omega
      rw [copy.eq_def, hshape]
      dsimp only
      rw [if_neg h0, Except.bind_of_ok rfl, if_neg hroom, if_neg hlens,
        Except.bind_of_ok (hs.product_others h0), Except.bind_of_ok hoffsets]
      exact Except.bind_of_ok hp _

end SubBox

end TiledTensor
