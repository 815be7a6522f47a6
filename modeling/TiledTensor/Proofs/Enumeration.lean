import TiledTensor.Proofs.Walk

/-!
# The calls on a walk

A walk is used by calling it again and again.  A walk through a box whose ends are words answers
with the indices of the box in the order of their positions, and from then on with nothing.  Where
some end is no word, the dimensions before it are walked through once, up to the step that would
turn the dimension.  This step is already taken by the call that is to answer with the last index
before the turn, so that index is lost.
-/

namespace TiledTensor

open Region (Holds Bounded)

variable {start : Index} {shape : Shape} {k : Nat}

/-- The coordinates of a position in the leading dimensions and in the others. -/
theorem Shape.digitsOf_append (k : Nat) (s t : Shape) :
    digitsOf k (s ++ t) = digitsOf k s ++ digitsOf (k / s.prod) t := by
  induction s generalizing k with
  | nil => rw [List.prod_nil, Nat.div_one, List.nil_append, digitsOf, List.nil_append]
  | cons d s ih =>
    rw [List.cons_append, digitsOf, ih, Nat.div_div_eq_div_mul, digitsOf, List.prod_cons,
      List.cons_append]

namespace BoxWalk

/-- The answers to `n` calls in a row, up to the call that faults.  A walk that is finished stays
so. -/
def calls : Nat → BoxWalk → Trail (Option Index)
  | 0, _ => ⟨[], none⟩
  | n + 1, w =>
    match w.next with
    | .error f => .stopped f
    | .ok none => (calls n w).cons none
    | .ok (some (i, rest)) => (calls n rest).cons (some i)

theorem calls_succ_of_ok {i : Index} {following : Option Index} (n : Nat)
    (h : successor i start shape = .ok following) :
    calls (n + 1) ⟨start, shape, some i⟩ = (calls n ⟨start, shape, following⟩).cons (some i) := by
  have hnext : next ⟨start, shape, some i⟩ = .ok (some (i, ⟨start, shape, following⟩)) := by
    rw [next]
    dsimp only
    rw [Except.bind_of_ok h]
    rfl
  rw [calls, hnext]

theorem calls_succ_of_error {i : Index} {f : Fault} (n : Nat)
    (h : successor i start shape = .error f) :
    calls (n + 1) ⟨start, shape, some i⟩ = .stopped f := by
  have hnext : next ⟨start, shape, some i⟩ = .error f := by
    rw [next]
    dsimp only
    rw [h]
    rfl
  rw [calls, hnext]

/-- A walk that is finished has nothing to answer, however often it is called. -/
theorem calls_of_finished (start : Index) (shape : Shape) (n : Nat) :
    calls n ⟨start, shape, none⟩ = ⟨List.replicate n none, none⟩ := by
  have hnext : next ⟨start, shape, none⟩ = .ok none := rfl
  induction n with
  | zero => rfl
  | succ n ih =>
    rw [calls, hnext]
    dsimp only
    rw [ih, List.replicate_succ]
    rfl

/-- As long as the odometer goes from one index of a path to the next, the calls answer with the
path. -/
theorem calls_path {path : Nat → Index} {m : Nat}
    (hpath : ∀ k < m, successor (path k) start shape = .ok (some (path (k + 1)))) (n : Nat) :
    calls (m + n) ⟨start, shape, some (path 0)⟩ =
      Trail.append ⟨(List.range m).map fun k => some (path k), none⟩
        (calls n ⟨start, shape, some (path m)⟩) := by
  induction m generalizing n with
  | zero => rw [Nat.zero_add]; rfl
  | succ m ih =>
    rw [Nat.add_right_comm, Nat.add_assoc, ih (fun k hk => hpath k (Nat.lt_succ_of_lt hk)),
      calls_succ_of_ok n (hpath m (Nat.lt_succ_self m)), List.range_succ, List.map_append]
    simp [Trail.append, Trail.cons]

theorem calls_path_of_le {path : Nat → Index} {m n : Nat}
    (hpath : ∀ k < m, successor (path k) start shape = .ok (some (path (k + 1)))) (hn : n ≤ m) :
    calls n ⟨start, shape, some (path 0)⟩ = ⟨(List.range n).map fun k => some (path k), none⟩ := by
  have h := calls_path (m := n) (fun k hk => hpath k (Nat.lt_of_lt_of_le hk hn)) 0
  rw [Nat.add_zero] at h
  rw [h, calls, Trail.append, List.append_nil]

/-! ## Boxes of words -/

/-- The first members of a sequence, and nothing behind them. -/
theorem map_range_add (f : Nat → Index) (m r : Nat) :
    ((List.range (m + r)).map fun k => if k < m then some (f k) else none) =
      (List.range m).map (fun k => some (f k)) ++ List.replicate r none := by
  rw [List.range_add, List.map_append, List.map_map]
  congr 1
  · refine List.map_congr_left fun k hk => ?_
    rw [if_pos (List.mem_range.mp hk)]
  · refine List.eq_replicate_iff.mpr ⟨by simp, fun o ho => ?_⟩
    obtain ⟨k, -, rfl⟩ := List.mem_map.mp ho
    exact if_neg (Nat.not_lt.mpr (Nat.le_add_right m k))

/-- Call number `k` answers with the index at position `k`, and with nothing behind the last one. -/
theorem calls_of_bounded (hb : Bounded start shape) (hpos : 0 < shape.prod) (n : Nat) :
    calls n ⟨start, shape, some (visit start shape 0)⟩ =
      ⟨(List.range n).map fun k => if k < shape.prod then some (visit start shape k) else none,
        none⟩ := by
  obtain ⟨p, hp⟩ := Nat.exists_eq_add_one.mpr hpos
  have hpath : ∀ k < p, successor (visit start shape k) start shape =
      .ok (some (visit start shape (k + 1))) := fun k hk => by
    rw [successor_visit hb (by omega), if_pos (by omega)]
  have hlast : successor (visit start shape p) start shape = .ok none := by
    rw [successor_visit hb (by omega), if_neg (by omega)]
  -- position `p` is the last one, and the calls behind its own find the walk finished
  by_cases hn : n < shape.prod
  · rw [calls_path_of_le hpath (by omega), Trail.mk.injEq, and_iff_left rfl]
    refine List.map_congr_left fun k hk => ?_
    rw [if_pos (Nat.lt_trans (List.mem_range.mp hk) hn)]
  · obtain ⟨r, rfl⟩ := Nat.exists_eq_add_of_le (Nat.not_lt.mp hn)
    have hend := calls_path hpath (r + 1)
    rw [calls_succ_of_ok r hlast, calls_of_finished, ← Nat.add_assoc, Nat.add_right_comm, ← hp] at hend
    rw [hend, map_range_add, hp, List.range_succ, List.map_append]
    simp [Trail.append, Trail.cons]

/-! ## Boxes that reach beyond the words -/

variable {start' : Index} {shape' : Shape} {s d : Nat}

/-- The leading dimensions are walked through while the others stay at their start. -/
theorem visit_append (hlen : start.length = shape.length) (hlen' : start'.length = shape'.length)
    (hk : k < shape.prod) :
    visit (start ++ start') (shape ++ shape') k = visit start shape k ++ start' := by
  have hzero : start'.plus (shape'.digitsOf 0) = start' := visit_zero hlen'
  rw [visit, Shape.digitsOf_append, Nat.div_eq_of_lt hk, Index.plus,
    List.zipWith_append (by rw [hlen, Shape.length_digitsOf]), ← Index.plus, ← Index.plus, hzero, visit]

/-- A dimension whose end is no word cannot be turned. -/
theorem successor_of_limit_le (h : Word.limit ≤ s + d) :
    successor (s :: start) (s :: start') (d :: shape) = .error .overflow := by
  have hend : Word.add s d = .error .overflow := if_neg (Nat.not_lt.mpr h)
  rw [successor, hend]
  by_cases hs : s + 1 < Word.limit
  · rw [Except.bind_of_ok (Word.add_eq_ok_iff.mpr ⟨hs, rfl⟩)]
    rfl
  · rw [show Word.add s 1 = .error .overflow from if_neg hs]
    rfl

/-- Within the leading dimensions the odometer goes on, and behind them it faults. -/
theorem successor_edge (hb : Bounded start shape) (hlen : start'.length = shape'.length)
    (h : Word.limit ≤ s + d) (hk : k < shape.prod) :
    successor (visit (start ++ s :: start') (shape ++ d :: shape') k) (start ++ s :: start')
        (shape ++ d :: shape') =
      if k + 1 < shape.prod then
        .ok (some (visit (start ++ s :: start') (shape ++ d :: shape') (k + 1)))
      else .error .overflow := by
  have hlen' : (s :: start').length = (d :: shape').length := congrArg (· + 1) hlen
  rw [visit_append hb.length hlen' hk, successor_append hb hk, successor_of_limit_le h]
  split
  · rename_i hk'
    rw [visit_append hb.length hlen' hk']
  · rfl

/-- Every index up to the last one before the turn is answered, and the call for that one faults. -/
theorem calls_edge (hb : Bounded start shape) (hlen : start'.length = shape'.length)
    (h : Word.limit ≤ s + d) (hpos : 0 < shape.prod) (n : Nat) {path : Nat → Index}
    (hpath : path = visit (start ++ s :: start') (shape ++ d :: shape')) :
    calls n ⟨start ++ s :: start', shape ++ d :: shape', some (path 0)⟩ =
      if n < shape.prod then ⟨(List.range n).map fun k => some (path k), none⟩
      else ⟨(List.range (shape.prod - 1)).map fun k => some (path k), some .overflow⟩ := by
  obtain ⟨p, hp⟩ := Nat.exists_eq_add_one.mpr hpos
  have hstep : ∀ k < p, successor (path k) (start ++ s :: start') (shape ++ d :: shape') =
      .ok (some (path (k + 1))) := fun k hk => by
    rw [hpath, successor_edge hb hlen h (by omega), if_pos (by omega)]
  have hlast : successor (path p) (start ++ s :: start') (shape ++ d :: shape') = .error .overflow := by
    rw [hpath, successor_edge hb hlen h (by omega), if_neg (by omega)]
  -- the call for position `p` takes the step behind it before it answers
  by_cases hn : n < shape.prod
  · rw [if_pos hn, calls_path_of_le hstep (by omega)]
  · obtain ⟨r, rfl⟩ := Nat.exists_eq_add_of_le (Nat.not_lt.mp hn)
    rw [if_neg hn, hp, Nat.add_right_comm, Nat.add_assoc, calls_path hstep, calls_succ_of_error r hlast,
      Trail.append, Trail.stopped, Nat.add_sub_cancel, List.append_nil]

/-! ## All boxes -/

/-- What the calls on a walk through a box answer. -/
structure Enumerates (w : BoxWalk) (start : Index) (shape : Shape) : Prop where
  empty : 0 ∈ shape → ∀ n, w.calls n = ⟨List.replicate n none, none⟩
  /-- Call number `k` answers with the index at position `k`, and with nothing behind the last
  one. -/
  whole : Bounded start shape → ∀ n, w.calls n =
    ⟨(List.range n).map fun k => if k < shape.prod then some (visit start shape k) else none, none⟩
  /-- Every index of the box has one position. -/
  once : ∀ i, i ∈ (⟨start, shape⟩ : Region) ↔ ∃! k, k < shape.prod ∧ visit start shape k = i
  /-- The positions are the offsets in the shape. -/
  linear : ∀ l, Layout.new shape = .ok l → ∀ k < shape.prod,
    ∃ i, l.toIndex k = .ok i ∧ visit start shape k = start.plus i
  /-- Where dimension `j` is the first one whose end is no word. -/
  edge : 0 ∉ shape → ∀ j s d, start[j]? = some s → shape[j]? = some d → Word.limit ≤ s + d →
    Bounded (start.take j) (shape.take j) → ∀ n, w.calls n =
      if n < (shape.take j).prod then ⟨(List.range n).map fun k => some (visit start shape k), none⟩
      else ⟨(List.range ((shape.take j).prod - 1)).map fun k => some (visit start shape k),
        some .overflow⟩

/-- A list around one of its entries. -/
theorem take_append_cons_drop {l : List Nat} {j x : Nat} (h : l[j]? = some x) :
    l.take j ++ x :: l.drop (j + 1) = l := by
  obtain ⟨hj, rfl⟩ := List.getElem?_eq_some_iff.mp h
  rw [← List.drop_eq_getElem_cons hj, List.take_append_drop]

/-- Every index of a box has one position. -/
theorem holds_iff_existsUnique (hlen : start.length = shape.length) (i : Index) :
    Holds start shape i ↔ ∃! k, k < shape.prod ∧ visit start shape k = i := by
  rw [← Shape.mem_visits hlen, List.mem_map]
  constructor
  · rintro ⟨k, hk, rfl⟩
    have hk := List.mem_range.mp hk
    exact ⟨k, ⟨hk, rfl⟩, fun k' h => Shape.visit_inj hlen h.1 hk h.2⟩
  · rintro ⟨k, ⟨hk, h⟩, -⟩
    exact ⟨k, List.mem_range.mpr hk, h⟩

/-- A walk enumerates its box. -/
theorem new_enumerates (start : Index) (shape : Shape) (hlen : start.length = shape.length) :
    ∃ w, new start shape = .ok w ∧ w.Enumerates start shape := by
  refine ⟨⟨start, shape, if 0 ∈ shape then none else some start⟩, ?_, ?_⟩
  · rw [new, if_neg (not_not_intro hlen)]
  have hfirst : 0 ∉ shape → (if 0 ∈ shape then none else some start) =
      some (visit start shape 0) := fun h0 => by rw [if_neg h0, visit_zero hlen]
  refine ⟨fun h0 n => ?_, fun hb n => ?_, holds_iff_existsUnique hlen, fun l hl k hk => ?_,
    fun h0 j s d hs hd hlimit hb n => ?_⟩
  · rw [if_pos h0, calls_of_finished]
  · by_cases h0 : 0 ∈ shape
    · have hnone := map_range_add (visit start shape) 0 n
      rw [Nat.zero_add, List.range_zero, List.map_nil, List.nil_append] at hnone
      rw [if_pos h0, calls_of_finished, List.prod_eq_zero h0, hnone]
    · rw [hfirst h0, calls_of_bounded hb (Nat.pos_of_ne_zero (List.prod_ne_zero h0))]
  · obtain rfl := Layout.shape_of_new hl
    exact ⟨_, Layout.toIndex_eq (l.count_eq.1 ▸ hk), rfl⟩
  · have hstart := take_append_cons_drop hs
    have hshape := take_append_cons_drop hd
    have hpos : 0 < (shape.take j).prod :=
      Nat.pos_of_ne_zero (List.prod_ne_zero fun h => h0 (List.mem_of_mem_take h))
    have hrest : (start.drop (j + 1)).length = (shape.drop (j + 1)).length := by
      rw [List.length_drop, List.length_drop, hlen]
    have h := calls_edge hb hrest hlimit hpos n rfl
    rw [hstart, hshape] at h
    rw [hfirst h0, h]

/-- The second dimension of a box ends behind the last word: of the three indices before its turn
the last one is lost. -/
theorem new_enumerates_of_edge :
    ∃ w, new [4, 0xFFFFFFFFFFFFFFFE, 7] [3, 2, 5] = .ok w ∧
      w.calls 2 = ⟨[some [4, 0xFFFFFFFFFFFFFFFE, 7], some [5, 0xFFFFFFFFFFFFFFFE, 7]], none⟩ ∧
      ∀ n, w.calls (3 + n) =
        ⟨[some [4, 0xFFFFFFFFFFFFFFFE, 7], some [5, 0xFFFFFFFFFFFFFFFE, 7]], some .overflow⟩ := by
  obtain ⟨w, hw, henum⟩ := new_enumerates [4, 0xFFFFFFFFFFFFFFFE, 7] [3, 2, 5] rfl
  have h := henum.edge (by decide) 1 _ _ rfl rfl (by decide) ⟨by decide, trivial⟩
  refine ⟨w, hw, h 2, fun n => ?_⟩
  rw [h (3 + n)]
  exact if_neg (Nat.not_lt.mpr (Nat.le_add_right 3 n))

end BoxWalk

end TiledTensor
