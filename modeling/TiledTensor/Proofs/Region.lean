import TiledTensor.Overlap
import TiledTensor.Proofs.Positions

/-!
# Boxes of space

A region is the set of the coordinates of a box.  The overlap of two boxes is what their regions
have in common, given once from the corner of each box; there is none exactly if the regions have
nothing in common, and it covers the destination exactly if the destination lies in the source.
-/

namespace TiledTensor

/-- The coordinates of a box. -/
structure Region where
  start : Index
  shape : Shape

/-- The coordinates that lie as far from one place as others lie from the origin. -/
def Index.plus (a i : Index) : Index := List.zipWith (· + ·) a i

namespace Region

/-- Every coordinate lies between the start and the end. -/
def Holds : Index → Shape → Index → Prop
  | [], [], [] => True
  | s :: start, d :: shape, x :: i => (s ≤ x ∧ x < s + d) ∧ Holds start shape i
  | _, _, _ => False

instance : Membership Index Region := ⟨fun b i => Holds b.start b.shape i⟩

instance decidableHolds : ∀ (s : Index) (d : Shape) (i : Index), Decidable (Holds s d i)
  | [], [], [] => isTrue trivial
  | s :: start, d :: shape, x :: i =>
    have := decidableHolds start shape i
    inferInstanceAs (Decidable ((s ≤ x ∧ x < s + d) ∧ Holds start shape i))
  | [], [], _ :: _ | [], _ :: _, _ | _ :: _, [], _ | _ :: _, _ :: _, [] => isFalse id

instance (b : Region) (i : Index) : Decidable (i ∈ b) := decidableHolds b.start b.shape i

/-- The ends of the box are words. -/
def Bounded : Index → Shape → Prop
  | [], [] => True
  | s :: start, d :: shape => s + d < Word.limit ∧ Bounded start shape
  | _, _ => False

/-- The box lies inside a shape. -/
def Inside : Index → Shape → Shape → Prop
  | [], [], [] => True
  | s :: start, e :: extent, d :: shape => s + e ≤ d ∧ Inside start extent shape
  | _, _, _ => False

variable {a s i : Index} {d e : Shape} {x : Nat}

theorem mem_mk : i ∈ (⟨s, d⟩ : Region) ↔ Holds s d i := Iff.rfl

theorem Bounded.length (h : Bounded s d) : s.length = d.length := by
  induction s generalizing d with
  | nil =>
    cases d with
    | nil => rfl
    | cons e d => exact absurd h id
  | cons y s ih =>
    cases d with
    | nil => exact absurd h id
    | cons e d => simp [ih h.2]

theorem Bounded.tail (h : Bounded s d) : Bounded s.tail d.tail := by
  cases s with
  | nil =>
    cases d with
    | nil => exact h
    | cons e d => exact absurd h id
  | cons y s =>
    cases d with
    | nil => exact absurd h id
    | cons e d => exact h.2

theorem Holds.length (h : Holds s d i) : s.length = d.length ∧ i.length = d.length := by
  induction s generalizing d i with
  | nil =>
    cases d <;> cases i <;> first | exact ⟨rfl, rfl⟩ | exact absurd h id
  | cons y s ih =>
    cases d with
    | nil => cases i <;> exact absurd h id
    | cons e d =>
      cases i with
      | nil => exact absurd h id
      | cons x i => simpa using ih h.2

@[simp] theorem plus_cons {y : Nat} : Index.plus (y :: a) (x :: i) = (y + x) :: a.plus i := rfl

theorem plus_assoc (a b i : Index) : (a.plus b).plus i = a.plus (b.plus i) := by
  induction a generalizing b i with
  | nil => rfl
  | cons x a ih =>
    cases b with
    | nil => rfl
    | cons y b =>
      cases i with
      | nil => rfl
      | cons z i =>
        rw [plus_cons, plus_cons, plus_cons, plus_cons, ih, Nat.add_assoc]

@[simp] theorem length_plus : (a.plus i).length = min a.length i.length := List.length_zipWith

theorem plus_left_cancel {j : Index} (hi : i.length = a.length) (hj : j.length = a.length)
    (h : a.plus i = a.plus j) : i = j := by
  induction a generalizing i j with
  | nil => rw [List.length_eq_zero_iff.mp hi, List.length_eq_zero_iff.mp hj]
  | cons y a ih =>
    cases i with
    | nil => simp at hi
    | cons x i =>
      cases j with
      | nil => simp at hj
      | cons x' j =>
        rw [plus_cons, plus_cons, List.cons.injEq] at h
        rw [Nat.add_left_cancel h.1, ih (by simpa using hi) (by simpa using hj) h.2]

/-- A box that is moved holds what is moved along. -/
theorem holds_plus_iff (hs : a.length = s.length) (hi : i.length = s.length) :
    Holds (a.plus s) d (a.plus i) ↔ Holds s d i := by
  induction a generalizing s d i with
  | nil =>
    cases s with
    | nil => cases i with
      | nil => exact Iff.rfl
      | cons x i => simp at hi
    | cons y s => simp at hs
  | cons z a ih =>
    cases s with
    | nil => simp at hs
    | cons y s =>
      cases i with
      | nil => simp at hi
      | cons x i =>
        cases d with
        | nil => exact Iff.rfl
        | cons e d =>
          refine and_congr ?_ (ih (by simpa using hs) (by simpa using hi))
          change z + y ≤ z + x ∧ z + x < z + y + e ↔ y ≤ x ∧ x < y + e
          omega

/-- What a box holds that was moved was moved along. -/
theorem Holds.exists_of_plus (hs : a.length = s.length) (h : Holds (a.plus s) d i) :
    ∃ j, i = a.plus j ∧ j.length = s.length ∧ Holds s d j := by
  induction a generalizing s d i with
  | nil =>
    obtain rfl : s = [] := List.length_eq_zero_iff.mp hs.symm
    cases d <;> cases i <;> first | exact ⟨[], rfl, rfl, trivial⟩ | exact absurd h id
  | cons z a ih =>
    cases s with
    | nil => simp at hs
    | cons y s =>
      cases d with
      | nil => cases i <;> exact absurd h id
      | cons e d =>
        cases i with
        | nil => exact absurd h id
        | cons x i =>
          obtain ⟨j, rfl, hlen, hj⟩ := ih (by simpa using hs) h.2
          have hx : z + y ≤ x ∧ x < z + y + e := h.1
          refine ⟨(x - z) :: j, ?_, by simp [hlen], by omega, hj⟩
          rw [plus_cons, Nat.add_sub_cancel' (by omega)]

/-- In a box are the places that its shape has, moved to its start. -/
theorem holds_plus_iff_contains (hi : i.length = s.length) :
    Holds s d (s.plus i) ↔ d.contains i = true := by
  induction s generalizing d i with
  | nil =>
    cases i with
    | nil => cases d <;> simp [Holds, Index.plus, Shape.contains]
    | cons x i => simp at hi
  | cons y s ih =>
    cases i with
    | nil => simp at hi
    | cons x i =>
      cases d with
      | nil => simp [Holds, Shape.contains]
      | cons e d =>
        rw [Shape.contains_cons, plus_cons, Holds, ih (by simpa using hi)]
        refine and_congr_left fun _ => ?_
        omega

/-- What a box holds is a place of its shape, moved to its start. -/
theorem Holds.exists_plus (h : Holds s d i) :
    ∃ j, d.contains j = true ∧ i = s.plus j ∧ j.length = s.length := by
  induction s generalizing d i with
  | nil =>
    cases d <;> cases i <;> first | exact ⟨[], rfl, rfl, rfl⟩ | exact absurd h id
  | cons y s ih =>
    cases d with
    | nil => cases i <;> exact absurd h id
    | cons e d =>
      cases i with
      | nil => exact absurd h id
      | cons x i =>
        obtain ⟨j, hj, rfl, hlen⟩ := ih h.2
        refine ⟨(x - y) :: j, ?_, ?_, by simp [hlen]⟩
        · rw [Shape.contains_cons]
          exact ⟨by have := h.1; omega, hj⟩
        · rw [plus_cons, Nat.add_sub_cancel' h.1.1]

/-- A box without an extent of zero holds its start. -/
theorem holds_start (hs : s.length = d.length) (hd : 0 ∉ d) : Holds s d s := by
  induction s generalizing d with
  | nil =>
    cases d with
    | nil => trivial
    | cons e d => simp at hs
  | cons y s ih =>
    cases d with
    | nil => simp at hs
    | cons e d =>
      rw [List.mem_cons, not_or] at hd
      refine ⟨by omega, ih (by simpa using hs) hd.2⟩

theorem Inside.length (h : Inside s e d) : s.length = e.length ∧ d.length = e.length := by
  induction s generalizing e d with
  | nil =>
    cases e <;> cases d <;> first | exact ⟨rfl, rfl⟩ | exact absurd h id
  | cons y s ih =>
    cases e with
    | nil => cases d <;> exact absurd h id
    | cons w e =>
      cases d with
      | nil => exact absurd h id
      | cons z d => simpa using ih h.2

theorem Inside.le (h : Inside s e d) : List.Forall₂ (· ≤ ·) e d := by
  induction s generalizing e d with
  | nil =>
    cases e <;> cases d <;> first | exact .nil | exact absurd h id
  | cons y s ih =>
    cases e with
    | nil => cases d <;> exact absurd h id
    | cons w e =>
      cases d with
      | nil => exact absurd h id
      | cons z d => exact .cons (Nat.le_trans (Nat.le_add_left w y) h.1) (ih h.2)

/-- A shape with a box that is not empty has no extent of zero. -/
theorem Inside.zero_notMem (h : Inside s e d) (h0 : 0 ∉ e) : 0 ∉ d := by
  have hle := h.le
  clear h
  induction hle with
  | nil => exact h0
  | cons hle _ ih =>
    rw [List.mem_cons, not_or] at h0 ⊢
    exact ⟨by omega, ih h0.2⟩

/-- A box inside a shape of words ends at words. -/
theorem Inside.bounded (h : Inside s e d) (hwords : ∀ x ∈ d, x < Word.limit) : Bounded s e := by
  induction s generalizing e d with
  | nil => cases e <;> cases d <;> trivial
  | cons y s ih =>
    cases e with
    | nil => cases d <;> exact absurd h id
    | cons w e =>
      cases d with
      | nil => exact absurd h id
      | cons z d =>
        rw [List.forall_mem_cons] at hwords
        exact ⟨Nat.lt_of_le_of_lt h.1 hwords.1, ih h.2 hwords.2⟩

/-- What lies inside a shape of words is moved there without leaving the range of words. -/
theorem Inside.addEach (h : Inside s e d) (hb : Bounded a d) :
    Word.addEach a s = .ok (a.plus s) ∧ Bounded (a.plus s) e := by
  induction s generalizing a e d with
  | nil =>
    cases e <;> cases d <;> cases a <;> first | exact ⟨rfl, trivial⟩ | exact absurd h id | exact absurd hb id
  | cons y s ih =>
    cases e with
    | nil => cases d <;> exact absurd h id
    | cons w e =>
      cases d with
      | nil => exact absurd h id
      | cons z d =>
        cases a with
        | nil => exact absurd hb id
        | cons x a =>
          obtain ⟨hrest, hbound⟩ := ih h.2 hb.2
          have hin : y + w ≤ z := h.1
          have hend : x + z < Word.limit := hb.1
          have hadd : Word.add x y = .ok (x + y) := Word.add_eq_ok_iff.mpr ⟨by omega, rfl⟩
          have hshifted : x + y + w < Word.limit := by omega
          refine ⟨?_, hshifted, hbound⟩
          rw [Word.addEach, Except.bind_of_ok hadd, Except.bind_of_ok hrest]
          rfl

end Region

namespace Overlap

open Region (Holds Bounded Inside)

variable {a b : Index} {s t : Shape} {o : Overlap}

/-- The overlap is what the two boxes have in common. -/
structure Exact (o : Overlap) (a : Index) (s : Shape) (b : Index) (t : Shape) : Prop where
  /-- The shared box lies in either box. -/
  inside : Inside o.srcStart o.shape s ∧ Inside o.dstStart o.shape t
  /-- Both starts are the same place. -/
  same : a.plus o.srcStart = b.plus o.dstStart
  common : ∀ i, Holds (b.plus o.dstStart) o.shape i ↔ Holds a s i ∧ Holds b t i
  positive : 0 ∉ o.shape
  covers : o.covers = true ↔ ∀ i, Holds b t i → Holds a s i

/-- The overlap along one dimension is what the two intervals have in common. -/
theorem axis_eq {sa sl da dl : Nat} (hs : sa + sl < Word.limit) (hd : da + dl < Word.limit) :
    (axis sa sl da dl = .ok none ∧ ∀ x, ¬((sa ≤ x ∧ x < sa + sl) ∧ da ≤ x ∧ x < da + dl)) ∨
    ∃ p q n, axis sa sl da dl = .ok (some (p, q, n)) ∧ sa + p = da + q ∧ 0 < n ∧
      p + n ≤ sl ∧ q + n ≤ dl ∧
      (∀ x, (da + q ≤ x ∧ x < da + q + n) ↔ (sa ≤ x ∧ x < sa + sl) ∧ da ≤ x ∧ x < da + dl) ∧
      (n = dl ↔ ∀ x, da ≤ x ∧ x < da + dl → sa ≤ x ∧ x < sa + sl) := by
  have hok : axis sa sl da dl = .ok (if min (sa + sl) (da + dl) ≤ max sa da then none
      else some (max sa da - sa, max sa da - da, min (sa + sl) (da + dl) - max sa da)) := by
    rw [axis, Except.bind_of_ok (Word.add_eq_ok_iff.mpr ⟨hs, rfl⟩),
      Except.bind_of_ok (Word.add_eq_ok_iff.mpr ⟨hd, rfl⟩)]
    rfl
  by_cases hempty : min (sa + sl) (da + dl) ≤ max sa da
  · rw [if_pos hempty] at hok
    exact Or.inl ⟨hok, fun x => by omega⟩
  · rw [if_neg hempty] at hok
    refine Or.inr ⟨_, _, _, hok, by omega, by omega, by omega, by omega, fun x => by omega, ?_, ?_⟩
    · intro h x hx
      omega
    · intro h
      have hfirst := h da (by omega)
      have hlast := h (da + dl - 1) (by omega)
      omega

theorem bounded_of_axis {sa sl da dl : Nat} {r : Option (Nat × Nat × Nat)}
    (h : axis sa sl da dl = .ok r) : sa + sl < Word.limit ∧ da + dl < Word.limit := by
  rw [axis] at h
  by_cases hs : sa + sl < Word.limit
  · by_cases hd : da + dl < Word.limit
    · exact ⟨hs, hd⟩
    · rw [Except.bind_of_ok (Word.add_eq_ok_iff.mpr ⟨hs, rfl⟩), Word.add, if_neg hd] at h
      cases h
  · rw [Word.add, if_neg hs] at h
    cases h

/-- Where all dimensions overlap, all ends are words. -/
theorem bounded_of_axes {as : List (Nat × Nat × Nat)} (hs : s.length = t.length)
    (ha : a.length = t.length) (hb : b.length = t.length) (h : axes a s b t = .ok (some as)) :
    Bounded a s ∧ Bounded b t := by
  induction a generalizing s b t as with
  | nil =>
    obtain rfl : t = [] := List.length_eq_zero_iff.mp ha.symm
    obtain rfl : s = [] := List.length_eq_zero_iff.mp hs
    obtain rfl : b = [] := List.length_eq_zero_iff.mp hb
    exact ⟨trivial, trivial⟩
  | cons sa a ih =>
    cases t with
    | nil => simp at ha
    | cons dl t =>
      cases s with
      | nil => simp at hs
      | cons sl s =>
        cases b with
        | nil => simp at hb
        | cons da b =>
          rw [axes] at h
          cases haxis : axis sa sl da dl with
          | error f => rw [haxis] at h; cases h
          | ok r =>
            rw [Except.bind_of_ok haxis] at h
            cases r with
            | none => cases h
            | some p =>
              obtain ⟨h₁, h₂⟩ := bounded_of_axis haxis
              dsimp only at h
              cases hrest : axes a s b t with
              | error f => rw [hrest] at h; cases h
              | ok r =>
                rw [Except.bind_of_ok hrest] at h
                cases r with
                | none => cases h
                | some as' =>
                  obtain ⟨h₃, h₄⟩ := ih (by simpa using hs) (by simpa using ha)
                    (by simpa using hb) hrest
                  exact ⟨⟨h₁, h₃⟩, ⟨h₂, h₄⟩⟩

/-- The overlap that the dimensions make up. -/
def ofAxes (as : List (Nat × Nat × Nat)) (t : Shape) : Overlap :=
  ⟨as.map (·.1), as.map (·.2.1), as.map (·.2.2), as.map (·.2.2) == t⟩

/-- The dimensions make up what the boxes have in common. -/
theorem axes_eq (ha : Bounded a s) (hb : Bounded b t) (hlen : s.length = t.length) :
    (axes a s b t = .ok none ∧ ∀ i, ¬(Holds a s i ∧ Holds b t i)) ∨
      ∃ as, axes a s b t = .ok (some as) ∧ (ofAxes as t).Exact a s b t := by
  induction a generalizing s b t with
  | nil =>
    obtain rfl : s = [] := List.length_eq_zero_iff.mp ha.length.symm
    obtain rfl : t = [] := List.length_eq_zero_iff.mp hlen.symm
    obtain rfl : b = [] := List.length_eq_zero_iff.mp hb.length
    refine Or.inr ⟨[], rfl, ⟨trivial, trivial⟩, rfl, fun i => ?_, by simp [ofAxes], by simp [ofAxes]⟩
    exact and_self_iff.symm
  | cons sa a ih =>
    cases s with
    | nil => exact absurd ha id
    | cons sl s =>
      cases t with
      | nil => simp at hlen
      | cons dl t =>
        cases b with
        | nil => exact absurd hb id
        | cons da b =>
          rw [axes]
          rcases axis_eq ha.1 hb.1 with ⟨haxis, hnone⟩ | ⟨p, q, n, haxis, hsame, hn, hp, hq, hcommon, hcover⟩
          · refine Or.inl ⟨by rw [Except.bind_of_ok haxis]; rfl, fun i hi => ?_⟩
            cases i with
            | nil => exact hi.1
            | cons x i => exact hnone x ⟨hi.1.1, hi.2.1⟩
          · rw [Except.bind_of_ok haxis]
            dsimp only
            rcases ih ha.2 hb.2 (by simpa using hlen) with ⟨hrest, hnone⟩ | ⟨as, hrest, hexact⟩
            · refine Or.inl ⟨by rw [Except.bind_of_ok hrest]; rfl, fun i hi => ?_⟩
              cases i with
              | nil => exact hi.1
              | cons x i => exact hnone i ⟨hi.1.2, hi.2.2⟩
            · obtain ⟨⟨hsrc, hdst⟩, hsames, hcommons, hpositive, hcovers⟩ := hexact
              refine Or.inr ⟨(p, q, n) :: as, by rw [Except.bind_of_ok hrest]; rfl,
                ⟨⟨hp, hsrc⟩, ⟨hq, hdst⟩⟩, ?_, fun i => ?_, ?_, ?_⟩
              · exact List.cons_eq_cons.mpr ⟨hsame, hsames⟩
              · cases i with
                | nil => exact ⟨fun h => absurd h id, fun h => absurd h.1 id⟩
                | cons x i =>
                  refine Iff.trans (and_congr (hcommon x) (hcommons i)) ?_
                  exact and_and_and_comm
              · exact fun h => (List.mem_cons.mp h).elim (Nat.ne_of_lt hn) hpositive
              · have hcons : (ofAxes ((p, q, n) :: as) (dl :: t)).covers = true ↔
                    n = dl ∧ (ofAxes as t).covers = true := by
                  simp [ofAxes]
                have hfirst : da ≤ da + q ∧ da + q < da + dl := ((hcommon (da + q)).mp (by omega)).2
                have hrests : Holds b t (Index.plus b (ofAxes as t).dstStart) :=
                  ((hcommons _).mp (Region.holds_start
                    (by simp [hdst.length, hb.2.length]) hpositive)).2
                rw [hcons, hcover, hcovers]
                constructor
                · rintro ⟨h₁, h₂⟩ i hi
                  cases i with
                  | nil => exact absurd hi id
                  | cons x i => exact ⟨h₁ x hi.1, h₂ i hi.2⟩
                · intro h
                  exact ⟨fun x hx => (h (x :: _) ⟨hx, hrests⟩).1,
                    fun i hi => (h (_ :: i) ⟨hfirst, hi⟩).2⟩

/-- Two boxes overlap in what they have in common. -/
theorem between_eq (ha : Bounded a s) (hb : Bounded b t) (hlen : s.length = t.length) :
    (between a s b t = .ok none ∧ ∀ i, ¬(Holds a s i ∧ Holds b t i)) ∨
      ∃ o, between a s b t = .ok (some o) ∧ o.Exact a s b t := by
  have hranks : a.length = t.length ∧ s.length = t.length ∧ b.length = t.length :=
    ⟨ha.length.trans hlen, hlen, hb.length⟩
  rw [between, if_pos hranks]
  rcases axes_eq ha hb hlen with ⟨hnone, hempty⟩ | ⟨as, hsome, hexact⟩
  · exact Or.inl ⟨by rw [Except.bind_of_ok hnone]; rfl, hempty⟩
  · exact Or.inr ⟨_, by rw [Except.bind_of_ok hsome]; rfl, hexact⟩

/-- Where some dimension does not overlap, the boxes have nothing in common. -/
theorem disjoint_of_axes (h : axes a s b t = .ok none) {i : Index} :
    ¬(Holds a s i ∧ Holds b t i) := by
  induction a generalizing s b t i with
  | nil => cases h
  | cons sa a ih =>
    cases s with
    | nil => cases h
    | cons sl s =>
      cases b with
      | nil => cases h
      | cons da b =>
        cases t with
        | nil => cases h
        | cons dl t =>
          rintro ⟨hs, hd⟩
          cases i with
          | nil => exact hs
          | cons x i =>
            rw [axes] at h
            cases haxis : axis sa sl da dl with
            | error f => rw [haxis] at h; cases h
            | ok r =>
              obtain ⟨hsb, hdb⟩ := bounded_of_axis haxis
              rw [Except.bind_of_ok haxis] at h
              cases r with
              | none =>
                rcases axis_eq hsb hdb with ⟨-, hnone⟩ | ⟨p, q, n, hsome, -⟩
                · exact hnone x ⟨hs.1, hd.1⟩
                · rw [haxis] at hsome
                  cases hsome
              | some p =>
                dsimp only at h
                cases hrest : axes a s b t with
                | error f => rw [hrest] at h; cases h
                | ok as =>
                  rw [Except.bind_of_ok hrest] at h
                  cases as with
                  | none => exact ih hrest ⟨hs.2, hd.2⟩
                  | some as => cases h

/-- Boxes without an overlap have nothing in common, also where not all ends are words. -/
theorem disjoint_of_between (h : between a s b t = .ok none) {i : Index} :
    ¬(Holds a s i ∧ Holds b t i) := by
  rw [between] at h
  split at h
  · cases haxes : axes a s b t with
    | error f => rw [haxes] at h; cases h
    | ok r =>
      rw [Except.bind_of_ok haxes] at h
      cases r with
      | none => exact disjoint_of_axes haxes
      | some as => cases h
  · cases h

/-- An overlap was found only if all ends are words. -/
theorem bounded_of_between (h : between a s b t = .ok (some o)) :
    Bounded a s ∧ Bounded b t ∧ s.length = t.length := by
  rw [between] at h
  split at h
  · rename_i hranks
    cases haxes : axes a s b t with
    | error f => rw [haxes] at h; cases h
    | ok r =>
      rw [Except.bind_of_ok haxes] at h
      cases r with
      | none => cases h
      | some as =>
        obtain ⟨ha, hb⟩ := bounded_of_axes hranks.2.1 hranks.1 hranks.2.2 haxes
        exact ⟨ha, hb, hranks.2.1⟩
  · cases h

namespace Exact

variable {i : Index}

/-- The shared box of the source has the places whose coordinates lie in the destination. -/
theorem holds_src (h : o.Exact a s b t) (hlen : a.length = s.length) :
    Holds o.srcStart o.shape i ↔ s.contains i = true ∧ Holds b t (a.plus i) := by
  have hstart : a.length = o.srcStart.length := by rw [hlen, h.inside.1.length.2, h.inside.1.length.1]
  have hmoved : ∀ {j : Index}, j.length = a.length →
      (Holds o.srcStart o.shape j ↔ s.contains j = true ∧ Holds b t (a.plus j)) := by
    intro j hj
    rw [← Region.holds_plus_iff hstart (hj.trans hstart), h.same, h.common,
      Region.holds_plus_iff_contains hj]
  constructor
  · intro hi
    refine (hmoved ?_).mp hi
    rw [hi.length.2, ← hi.length.1, hstart]
  · intro hi
    exact (hmoved ((Shape.length_of_contains hi.1).trans hlen.symm)).mpr hi

/-- The shared box of the destination has the places whose coordinates lie in the source. -/
theorem holds_dst (h : o.Exact a s b t) (hlen : b.length = t.length) :
    Holds o.dstStart o.shape i ↔ t.contains i = true ∧ Holds a s (b.plus i) := by
  have hstart : b.length = o.dstStart.length := by rw [hlen, h.inside.2.length.2, h.inside.2.length.1]
  have hmoved : ∀ {j : Index}, j.length = b.length →
      (Holds o.dstStart o.shape j ↔ t.contains j = true ∧ Holds a s (b.plus j)) := by
    intro j hj
    rw [← Region.holds_plus_iff hstart (hj.trans hstart), h.common,
      Region.holds_plus_iff_contains hj, and_comm]
  constructor
  · intro hi
    refine (hmoved ?_).mp hi
    rw [hi.length.2, ← hi.length.1, hstart]
  · intro hi
    exact (hmoved ((Shape.length_of_contains hi.1).trans hlen.symm)).mpr hi

/-- The shared box is not empty. -/
theorem holds_dstStart (h : o.Exact a s b t) : Holds o.dstStart o.shape o.dstStart :=
  Region.holds_start h.inside.2.length.1 h.positive

end Exact

end Overlap

end TiledTensor
