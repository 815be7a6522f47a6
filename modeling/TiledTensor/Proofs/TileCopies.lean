import TiledTensor.Proofs.Admission
import TiledTensor.Proofs.Atomicity

/-!
# Copies from one tile to another

A sub-box of one tile is copied onto a sub-box of another as if element by element, wherever the two
boxes lie in their tiles: what the operation declares is what its codelet needs, and nothing in it
faults.

On top of this stands the copy of what two placed tiles have in common.  Its places are told apart
by their coordinates in the space that both tiles are placed in, so the copy is right or wrong
without any mention of how the boxes were found.
-/

namespace TiledTensor

open Region (Holds Bounded Inside)

variable {α : Type} [Scalar α]

/-! ## The copy of a box -/

namespace SubBox

variable {b : SubBox} {ls ld : Layout} {src dst new : List α} {q : Nat}

omit [Scalar α] in
/-- An element of the box comes from the place of the box that it stands at, by linear offsets. -/
theorem Copied.getElem?_inside (h : Copied b ls ld src dst new)
    (hs : Inside b.srcStart b.shape ls.shape) (hd : Inside b.dstStart b.shape ld.shape)
    (hsrc : src.length = ls.count) (hdst : dst.length = ld.count) {o : Index}
    (ho : b.shape.contains o = true) : ∃ p q, ls.toLinear (b.srcStart.plus o) = .ok p ∧
      ld.toLinear (b.dstStart.plus o) = .ok q ∧ p < src.length ∧ q < dst.length ∧
      new[q]? = src[p]? := by
  have hsin := hs.contains_plus ho
  have hdin := hd.contains_plus ho
  refine ⟨_, _, ls.toLinear_eq hsin, ld.toLinear_eq hdin, ?_, ?_, h.inside o ho⟩
  · rw [hsrc]
    exact ls.position_lt_count hsin
  · rw [hdst]
    exact ld.position_lt_count hdin

omit [Scalar α] in
/-- An element that no place of the box has keeps its value. -/
theorem Copied.getElem?_outside (h : Copied b ls ld src dst new)
    (hd : Inside b.dstStart b.shape ld.shape) (hdst : dst.length = ld.count)
    (hq : ∀ o, b.shape.contains o = true → ld.toLinear (b.dstStart.plus o) ≠ .ok q) :
    new[q]? = dst[q]? := by
  by_cases hlt : q < ld.count
  · have hprod : q < ld.shape.prod := ld.count_eq.1 ▸ hlt
    have hplace : ld.shape.position (ld.shape.digitsOf q) = q := Shape.position_digitsOf hprod
    have hout : ¬Holds b.dstStart b.shape (ld.shape.digitsOf q) := by
      intro hin
      obtain ⟨o, ho, heq, -⟩ := hin.exists_plus
      refine hq o ho ?_
      rw [ld.toLinear_eq (hd.contains_plus ho), ← heq, hplace]
    have hkept := h.outside _ (Shape.contains_digitsOf hprod) hout
    rwa [hplace] at hkept
  · rw [List.getElem?_eq_none (by rw [h.length, hdst]; omega), List.getElem?_eq_none (by omega)]

end SubBox

namespace Op

variable {n : Node α} {src dst : Tile} {plan : Overlap} {access : Access} {xs ys new : List α}

theorem uses_copyOverlap (src dst : Tile) (plan : Overlap) (access : Access) :
    (copyOverlap src dst plan access : Op α).uses =
      [(src.handle, .read), (dst.handle, if access = .write then .write else .readWrite)] := rfl

theorem uses_copy (src dst : Tile) :
    (copy src dst : Op α).uses = [(src.handle, .read), (dst.handle, .write)] := rfl

/-- Any rank that can open the buffers has what the copy of the box leaves. -/
theorem shows_run_copyOverlap {words : Option (List Nat)} (hs : src.handle < n.handles.length)
    (hd : dst.handle < n.handles.length) (hsx : n.shows src.handle = some xs)
    (hdy : n.shows dst.handle = some ys) (hroom : allocatable (2 * plan.shape.length * 8) = true)
    (hcopy : (boxOf src dst plan).copy xs ys (.ok (List.replicate (2 * plan.shape.length) 0)) =
      .ok (new, words)) (hlen : new.length = ys.length) :
    (n.run (copyOverlap src dst plan access)).shows = n.shows.set dst.handle (some new) := by
  rw [Node.shows_run n _ ?_]
  · exact Store.run_copyOverlap hsx hdy hroom hcopy hlen
  · rw [uses_copyOverlap]
    exact List.forall_mem_cons.mpr ⟨hs, List.forall_mem_singleton.mpr hd⟩

theorem shows_run_copy (hs : src.handle < n.handles.length) (hd : dst.handle < n.handles.length)
    (hsx : n.shows src.handle = some xs) (hdy : n.shows dst.handle = some ys)
    (hlen : xs.length = ys.length) :
    (n.run (copy src dst)).shows = n.shows.set dst.handle (some xs) := by
  rw [Node.shows_run n _ ?_]
  · exact Store.run_copy hsx hdy hlen
  · rw [uses_copy]
    exact List.forall_mem_cons.mpr ⟨hs, List.forall_mem_singleton.mpr hd⟩

/-- The copy of a box from one tile to another puts the element at each place of the box where the
same place of the box is in the other tile, and leaves all else alone.  The codelet ends without a
fault in the buffers that the operation asks for, and any rank on which they can be opened has this
to show. -/
theorem copyOverlap_copies_each_element {src dst : Tile} {plan : Overlap} (access : Access)
    {xs ys : List α} (hs : Inside plan.srcStart plan.shape src.layout.shape)
    (hd : Inside plan.dstStart plan.shape dst.layout.shape)
    (hsrc : src.layout.count * Scalar.size α < Word.limit)
    (hdst : dst.layout.count * Scalar.size α < Word.limit)
    (hxs : xs.length = src.layout.count) (hys : ys.length = dst.layout.count) :
    (copyOverlap src dst plan access : Op α).operands =
      [.data src.handle .read, .data dst.handle (if access = .write then .write else .readWrite),
        .scratch (2 * plan.shape.length * 8)] ∧
    ∃ new room, (copyOverlap src dst plan access).codelet
        [.shared xs, .exclusive ys, .scratch (2 * plan.shape.length * 8)] =
          .ok [.shared xs, .exclusive new, room] ∧
      new.length = ys.length ∧
      (∀ o, plan.shape.contains o = true → ∃ p q,
        src.layout.toLinear (plan.srcStart.plus o) = .ok p ∧
        dst.layout.toLinear (plan.dstStart.plus o) = .ok q ∧
        p < xs.length ∧ q < ys.length ∧ new[q]? = xs[p]?) ∧
      (∀ q, (∀ o, plan.shape.contains o = true →
        dst.layout.toLinear (plan.dstStart.plus o) ≠ .ok q) → new[q]? = ys[q]?) ∧
      ∀ n : Node α, src.handle < n.handles.length → dst.handle < n.handles.length →
        n.shows src.handle = some xs → n.shows dst.handle = some ys →
        allocatable (2 * plan.shape.length * 8) = true →
        (n.run (copyOverlap src dst plan access)).shows = n.shows.set dst.handle (some new) := by
  obtain ⟨new, words, hcopy, hcopied⟩ := copy_boxOf hs hd hsrc hdst hxs hys
  obtain ⟨room, hcodelet⟩ := Codelet.subBox_eq hcopy
  refine ⟨rfl, new, room, hcodelet, hcopied.length,
    fun o ho => hcopied.getElem?_inside hs hd hxs hys ho,
    fun q hq => hcopied.getElem?_outside hd hys hq, ?_⟩
  intro n hsn hdn hsx hdy hroom
  exact shows_run_copyOverlap hsn hdn hsx hdy hroom hcopy hcopied.length

/-- A tile of three columns of three. -/
def square : Tile := ⟨⟨[3, 3], [1, 3], 9, rfl⟩, 0, 0⟩

/-- A tile of four columns of two. -/
def strip : Tile := ⟨⟨[2, 4], [1, 2], 8, rfl⟩, 1, 0⟩

/-- As many numbers as a tile has elements, counting from `k` on. -/
def counted (k : Nat) (t : Tile) : List (ElementType.Value .i64) :=
  (List.range' k t.layout.count).map (BitVec.ofNat 64)

/-- The far corner of the square, two by two, is copied onto the last two columns of the strip. -/
theorem copyOverlap_copies_each_element_of_corner :
    Inside [1, 1] [2, 2] square.layout.shape ∧ Inside [0, 2] [2, 2] strip.layout.shape ∧
    ∃ new room, (copyOverlap square strip ⟨[1, 1], [0, 2], [2, 2], false⟩ .readWrite).codelet
        [.shared (counted 0 square), .exclusive (counted 100 strip), .scratch 32] =
          .ok [.shared (counted 0 square), .exclusive new, room] ∧
      new[4]? = some 4 ∧ new[7]? = some 8 ∧ new[3]? = some 103 := by
  have hs : Inside [1, 1] [2, 2] square.layout.shape := ⟨by decide, by decide, trivial⟩
  have hd : Inside [0, 2] [2, 2] strip.layout.shape := ⟨by decide, by decide, trivial⟩
  obtain ⟨-, new, room, hrun, -, hin, hout, -⟩ := @copyOverlap_copies_each_element _ _ square strip
    ⟨[1, 1], [0, 2], [2, 2], false⟩ .readWrite (counted 0 square) (counted 100 strip) hs hd
    (by decide) (by decide) rfl rfl
  obtain ⟨p, q, hp, hq, -, -, hfirst⟩ := hin [0, 0] rfl
  obtain rfl : 4 = p := Except.ok.inj hp
  obtain rfl : 4 = q := Except.ok.inj hq
  obtain ⟨p, q, hp, hq, -, -, hlast⟩ := hin [1, 1] rfl
  obtain rfl : 8 = p := Except.ok.inj hp
  obtain rfl : 7 = q := Except.ok.inj hq
  refine ⟨hs, hd, new, room, hrun, hfirst, hlast, hout 3 fun o ho => ?_⟩
  have hplaces : ∀ x < 2, ∀ y < 2, strip.layout.toLinear (Index.plus [0, 2] [x, y]) ≠ .ok 3 := by
    decide
  have hlen : o.length = 2 := Shape.length_of_contains ho
  obtain ⟨x, y, rfl⟩ := List.length_eq_two.mp hlen
  obtain ⟨hx, ho⟩ := Shape.contains_cons.mp ho
  exact hplaces x hx y (Shape.contains_cons.mp ho).1

end Op

/-! ## The copy of what two tiles share -/

namespace Tile

/-- Number of dimensions. -/
def ndim (t : Tile) : Nat := t.layout.shape.length

/-- What a tile placed at `dstAt` holds after the part of another tile, placed at `srcAt`, has been
copied onto it: the source at the coordinates that both have, and elsewhere what it held. -/
structure Merged (s : Tile) (srcAt : Index) (d : Tile) (dstAt : Index) (xs ys new : List α) : Prop where
  length : new.length = ys.length
  common : ∀ x y, s.layout.shape.contains x = true → d.layout.shape.contains y = true →
    srcAt.plus x = dstAt.plus y → ∃ p q, s.layout.toLinear x = .ok p ∧ d.layout.toLinear y = .ok q ∧
      p < xs.length ∧ q < ys.length ∧ new[q]? = xs[p]?
  rest : ∀ y, d.layout.shape.contains y = true →
    (∀ x, s.layout.shape.contains x = true → srcAt.plus x ≠ dstAt.plus y) →
    ∃ q, d.layout.toLinear y = .ok q ∧ q < ys.length ∧ new[q]? = ys[q]?

variable {s d : Tile} {srcAt dstAt : Index} {plan : Overlap} {xs ys new : List α}

omit [Scalar α] in
/-- The copy of the overlap merges the tiles. -/
theorem Merged.of_copied (h : plan.Exact srcAt s.layout.shape dstAt d.layout.shape)
    (ha : Bounded srcAt s.layout.shape) (hb : Bounded dstAt d.layout.shape)
    (hc : SubBox.Copied (Op.boxOf s d plan) s.layout d.layout xs ys new)
    (hxs : xs.length = s.layout.count) (hys : ys.length = d.layout.count) :
    s.Merged srcAt d dstAt xs ys new := by
  refine ⟨hc.length, fun x y hx hy heq => ?_, fun y hy hall => ?_⟩
  · have hsin : Holds srcAt s.layout.shape (dstAt.plus y) := by
      rw [← heq]
      exact (Region.holds_plus_iff_contains
        ((Shape.length_of_contains hx).trans ha.length.symm)).mpr hx
    obtain ⟨o, ho, rfl, holen⟩ := ((h.holds_dst hb.length).mpr ⟨hy, hsin⟩).exists_plus
    have hplace : x = plan.srcStart.plus o := by
      have hxlen := (Shape.length_of_contains hx).trans ha.length.symm
      have hstart : plan.srcStart.length = srcAt.length := by
        rw [h.inside.1.length.1, ha.length, h.inside.1.length.2]
      have holen' : o.length = plan.srcStart.length := by
        rw [Shape.length_of_contains ho, h.inside.1.length.1]
      refine Region.plus_left_cancel hxlen ?_ ?_
      · rw [Region.length_plus, holen', Nat.min_self, hstart]
      · rw [heq, ← Region.plus_assoc, ← h.same, Region.plus_assoc]
    subst hplace
    exact hc.getElem?_inside h.inside.1 h.inside.2 hxs hys ho
  · have hout : ¬Holds plan.dstStart plan.shape y := by
      intro hin
      obtain ⟨x, hx, heq, -⟩ := ((h.holds_dst hb.length).mp hin).2.exists_plus
      exact hall x hx heq.symm
    exact ⟨_, d.layout.toLinear_eq hy, hys ▸ d.layout.position_lt_count hy, hc.outside y hy hout⟩

omit [Scalar α] in
/-- Of a tile without dimensions the one element is copied. -/
theorem Merged.of_scalars (hs : s.layout.shape = []) (hd : d.layout.shape = [])
    (hxs : xs.length = s.layout.count) (hys : ys.length = d.layout.count) :
    s.Merged [] d [] xs ys xs := by
  have hsc : s.layout.count = 1 := by rw [s.layout.count_eq.1, hs, List.prod_nil]
  have hdc : d.layout.count = 1 := by rw [d.layout.count_eq.1, hd, List.prod_nil]
  refine ⟨by omega, fun x y hx hy _ => ?_, fun y hy hall => absurd ?_ (hall [] (by rw [hs]; rfl))⟩
  · refine ⟨_, _, s.layout.toLinear_eq hx, d.layout.toLinear_eq hy, ?_, ?_, ?_⟩
    · exact hxs ▸ s.layout.position_lt_count hx
    · exact hys ▸ d.layout.position_lt_count hy
    · rw [hs, hd]
      rfl
  · rfl

/-- An operation that merges a placed tile into another: it reads the one, and may ignore what the
other held exactly if the one covers it.  Wherever it is run, the tiles are merged, and nothing else
changes. -/
structure Merges (s : Tile) (srcAt : Index) (d : Tile) (dstAt : Index) (op : Op α) : Prop where
  uses : ∃ access, op.uses = [(s.handle, .read), (d.handle, access)] ∧
    (access = .write ∨ access = .readWrite) ∧
    (access = .write ↔ ∀ i, Holds dstAt d.layout.shape i → Holds srcAt s.layout.shape i)
  run : ∀ (m : Node α) (xs ys : List α), s.handle < m.handles.length → d.handle < m.handles.length →
    m.shows s.handle = some xs → m.shows d.handle = some ys →
    xs.length = s.layout.count → ys.length = d.layout.count →
    allocatable (2 * d.layout.shape.length * 8) = true →
    ∃ new, (m.run op).shows = m.shows.set d.handle (some new) ∧ s.Merged srcAt d dstAt xs ys new

theorem merges_copy (hs : s.layout.shape = []) (hd : d.layout.shape = []) :
    s.Merges [] d [] (Op.copy s d : Op α) := by
  refine ⟨⟨.write, rfl, Or.inl rfl, fun _ i hi => ?_, fun _ => rfl⟩, ?_⟩
  · rw [hd] at hi
    rwa [hs]
  · intro m xs ys hsm hdm hsx hdy hxs hys _
    have hmerged := Merged.of_scalars hs hd hxs hys
    exact ⟨xs, Op.shows_run_copy hsm hdm hsx hdy hmerged.length, hmerged⟩

theorem merges_copyOverlap (h : plan.Exact srcAt s.layout.shape dstAt d.layout.shape)
    (ha : Bounded srcAt s.layout.shape) (hb : Bounded dstAt d.layout.shape)
    (hsrc : s.layout.count * Scalar.size α < Word.limit)
    (hdst : d.layout.count * Scalar.size α < Word.limit) :
    s.Merges srcAt d dstAt
      (Op.copyOverlap s d plan (if plan.covers then .write else .readWrite) : Op α) := by
  refine ⟨⟨if plan.covers then .write else .readWrite, ?_, ?_, ?_⟩, ?_⟩
  · rw [Op.uses_copyOverlap]
    cases plan.covers <;> rfl
  · cases plan.covers
    · exact Or.inr rfl
    · exact Or.inl rfl
  · rw [← h.covers]
    cases plan.covers <;> simp
  · intro m xs ys hsm hdm hsx hdy hxs hys hroom
    obtain ⟨new, words, hcopy, hcopied⟩ :=
      Op.copy_boxOf h.inside.1 h.inside.2 hsrc hdst hxs hys
    refine ⟨new, ?_, .of_copied h ha hb hcopied hxs hys⟩
    rw [h.inside.2.length.2] at hroom
    exact Op.shows_run_copyOverlap hsm hdm hsx hdy hroom hcopy hcopied.length

end Tile

namespace Node

variable {n : Node α} {s d : Tile} {srcAt dstAt : Index} {op : Op α}

omit [Scalar α] in
/-- A script of one submission queues its operation, if that is legal. -/
theorem perform_submit (hn : n.scheduler.isSome = true) (hl : n.Legal op .cpu) :
    n.perform ⟨[.submit op], none⟩ = (n.queued op, .ok ()) := by
  have hsub : n.call (.submit op) = (n.queued op, .ok ()) := submitOn_of_legal hn hl
  rw [perform, callAll, hsub]
  rfl

omit [Scalar α] in
theorem queued_ne (n : Node α) (op : Op α) : n.queued op ≠ n := fun h =>
  Nat.succ_ne_self n.nextTask (congrArg Node.nextTask h)

theorem perform_of_mismatch {e : TensorError}
    (h : Tensor.mismatch s.ndim srcAt d.ndim dstAt = some e) :
    n.perform (Tile.copyIntersection s srcAt d dstAt) = (n, .error (.tensor e)) := by
  have hscript : Tile.copyIntersection s srcAt d dstAt = (.ofError e : Script α) := by
    unfold Tile.copyIntersection
    dsimp only
    rw [show Tensor.mismatch s.layout.shape.length srcAt d.layout.shape.length dstAt = some e from h]
  rw [hscript]
  rfl

/-- Placed tiles either have nothing in common, and then there is nothing to do, or are merged by
one operation that this rank admits. -/
theorem perform_of_bounded (hn : n.scheduler.isSome = true)
    (hlegal : ∀ op : Op α, op.Copies s d → n.Legal op .cpu)
    (hsrc : s.layout.count * Scalar.size α < Word.limit)
    (hdst : d.layout.count * Scalar.size α < Word.limit) (hranks : s.ndim = d.ndim)
    (ha : Bounded srcAt s.layout.shape) (hb : Bounded dstAt d.layout.shape) :
    ((∀ i, ¬(Holds srcAt s.layout.shape i ∧ Holds dstAt d.layout.shape i)) ∧
      n.perform (Tile.copyIntersection s srcAt d dstAt) = (n, .ok ())) ∨
    ((∃ i, Holds srcAt s.layout.shape i ∧ Holds dstAt d.layout.shape i) ∧
      ∃ op, n.perform (Tile.copyIntersection s srcAt d dstAt) = (n.queued op, .ok ()) ∧
        s.Merges srcAt d dstAt op) := by
  have hmis : Tensor.mismatch s.layout.shape.length srcAt d.layout.shape.length dstAt = none :=
    Tensor.mismatch_eq_none_iff.mpr ⟨hranks, ha.length.trans hranks, hb.length⟩
  unfold Tile.copyIntersection
  dsimp only
  rw [hmis]
  dsimp only
  by_cases hnil : d.layout.shape.length = 0
  · rw [if_pos hnil]
    have hd : d.layout.shape = [] := List.length_eq_zero_iff.mp hnil
    have hs : s.layout.shape = [] := List.length_eq_zero_iff.mp (hranks.trans hnil)
    obtain rfl : srcAt = [] := List.length_eq_zero_iff.mp (ha.length.trans (hranks.trans hnil))
    obtain rfl : dstAt = [] := List.length_eq_zero_iff.mp (hb.length.trans hnil)
    refine Or.inr ⟨⟨[], by rw [hs]; trivial, by rw [hd]; trivial⟩, _, ?_, Tile.merges_copy hs hd⟩
    exact perform_submit hn (hlegal _ .whole)
  · rw [if_neg hnil]
    rcases Overlap.between_eq ha hb hranks with ⟨hnone, hempty⟩ | ⟨plan, hsome, hexact⟩
    · rw [hnone]
      exact Or.inl ⟨hempty, rfl⟩
    · rw [hsome]
      have hlen : (dstAt.plus plan.dstStart).length = plan.shape.length := by
        rw [Region.length_plus, hb.length, hexact.inside.2.length.1, hexact.inside.2.length.2,
          Nat.min_self]
      have hcommon := (hexact.common _).mp (Region.holds_start hlen hexact.positive)
      refine Or.inr ⟨⟨_, hcommon⟩,
        Op.copyOverlap s d plan (if plan.covers then .write else .readWrite), ?_,
        Tile.merges_copyOverlap hexact ha hb hsrc hdst⟩
      exact perform_submit hn (hlegal _ (.shared plan _ srcAt dstAt hexact))

/-- The copy of what two tiles of this rank share.  If the ranks of the tiles and of their offsets
do not agree, it says so and does nothing.  Placed tiles without a common coordinate are left alone,
and others are merged by one operation. -/
theorem perform_copyIntersection_merges (hn : n.scheduler.isSome = true)
    (hops : ∀ name ∈ defaultOps, name ∈ n.codelets) (hne : s.handle ≠ d.handle)
    (hs : (n.handle s.handle).owner = n.rank) (hd : (n.handle d.handle).owner = n.rank)
    (hsrc : s.layout.count * Scalar.size α < Word.limit)
    (hdst : d.layout.count * Scalar.size α < Word.limit) (srcAt dstAt : Index) :
    (s.ndim ≠ d.ndim → n.perform (Tile.copyIntersection s srcAt d dstAt) =
      (n, .error (.tensor (.ranks s.ndim d.ndim)))) ∧
    (s.ndim = d.ndim → srcAt.length ≠ d.ndim → n.perform (Tile.copyIntersection s srcAt d dstAt) =
      (n, .error (.tensor (.offsets srcAt.length d.ndim)))) ∧
    (s.ndim = d.ndim → srcAt.length = d.ndim → dstAt.length ≠ d.ndim →
      n.perform (Tile.copyIntersection s srcAt d dstAt) =
        (n, .error (.tensor (.offsets dstAt.length d.ndim)))) ∧
    (s.ndim = d.ndim → Bounded srcAt s.layout.shape → Bounded dstAt d.layout.shape →
      (n.perform (Tile.copyIntersection s srcAt d dstAt) = (n, .ok ()) ↔
        ∀ i, ¬(Holds srcAt s.layout.shape i ∧ Holds dstAt d.layout.shape i)) ∧
      ((∃ i, Holds srcAt s.layout.shape i ∧ Holds dstAt d.layout.shape i) →
        ∃ op, n.perform (Tile.copyIntersection s srcAt d dstAt) = (n.queued op, .ok ()) ∧
          s.Merges srcAt d dstAt op)) := by
  refine ⟨fun hmk => perform_of_mismatch (if_pos hmk), fun hmk ha => perform_of_mismatch ?_,
    fun hmk ha hb => perform_of_mismatch ?_, fun hmk ha hb => ?_⟩
  · rw [Tensor.mismatch, if_neg (not_not_intro hmk), if_pos ha]
  · rw [Tensor.mismatch, if_neg (not_not_intro hmk), if_neg (not_not_intro ha), if_pos hb]
  · have hlegal : ∀ op : Op α, op.Copies s d → n.Legal op .cpu := fun op hop =>
      rejection_eq_none_iff.mp (rejection_copies hops hop hne (Or.inl hs) hd)
    rcases perform_of_bounded hn hlegal hsrc hdst hmk ha hb with
      ⟨hempty, hperform⟩ | ⟨⟨i, hi⟩, op, hperform, hmerges⟩
    · exact ⟨⟨fun _ => hempty, fun _ => hperform⟩, fun ⟨i, hi⟩ => absurd hi (hempty i)⟩
    · refine ⟨⟨fun hok => ?_, fun hempty => absurd hi (hempty i)⟩, fun _ => ⟨op, hperform, hmerges⟩⟩
      rw [hperform] at hok
      exact absurd (Prod.mk.inj hok).1 (queued_ne n op)

/-- A rank with both tiles. -/
def desk : Node (ElementType.Value .i64) :=
  { rank := 0, size := 1, codelets := defaultOps
    handles := [.ofBlock (Op.counted 0 Op.square) 0, .ofBlock (Op.counted 100 Op.strip) 0] }

/-- The strip is placed so that it starts in the middle of the square and reaches beyond it.  Four
of its elements come from the square.  Moved one further up it shares nothing with the square. -/
theorem perform_copyIntersection_merges_of_corner :
    desk.scheduler.isSome = true ∧ Bounded [0, 0] Op.square.layout.shape ∧
    Bounded [1, 1] Op.strip.layout.shape ∧
    (∃ op new, desk.perform (Tile.copyIntersection Op.square [0, 0] Op.strip [1, 1]) =
        (desk.queued op, .ok ()) ∧
      (desk.run op).shows 1 = some new ∧ new[0]? = some 4 ∧ new[3]? = some 8 ∧ new[4]? = some 104) ∧
    desk.perform (Tile.copyIntersection Op.square [0, 0] Op.strip [3, 1]) = (desk, .ok ()) := by
  have ha : Bounded [0, 0] Op.square.layout.shape := ⟨by decide, by decide, trivial⟩
  have hb : Bounded [1, 1] Op.strip.layout.shape := ⟨by decide, by decide, trivial⟩
  have hmerges := fun at' => (perform_copyIntersection_merges (n := desk) (s := Op.square)
    (d := Op.strip) rfl (fun _ h => h) (by decide) rfl rfl (by decide) (by decide) [0, 0] at').2.2.2
      rfl ha
  obtain ⟨-, hcommon⟩ := hmerges [1, 1] hb
  obtain ⟨op, hperform, hop⟩ := hcommon ⟨[1, 1], by decide, by decide⟩
  obtain ⟨new, hrun, hnew⟩ := hop.run desk (Op.counted 0 Op.square) (Op.counted 100 Op.strip)
    (by decide) (by decide) rfl rfl rfl rfl (by decide)
  obtain ⟨hdisjoint, -⟩ := hmerges [3, 1] ⟨by decide, by decide, trivial⟩
  refine ⟨rfl, ha, hb, ⟨op, new, hperform, ?_, ?_, ?_, ?_⟩, hdisjoint.mpr ?_⟩
  · rw [hrun]
    rfl
  · obtain ⟨p, q, hp, hq, -, -, heq⟩ := hnew.common [1, 1] [0, 0] rfl rfl rfl
    obtain rfl : 4 = p := Except.ok.inj hp
    obtain rfl : 0 = q := Except.ok.inj hq
    exact heq
  · obtain ⟨p, q, hp, hq, -, -, heq⟩ := hnew.common [2, 2] [1, 1] rfl rfl rfl
    obtain rfl : 8 = p := Except.ok.inj hp
    obtain rfl : 3 = q := Except.ok.inj hq
    exact heq
  · have hbeyond : ∀ x < 3, ∀ y < 3, Index.plus [0, 0] [x, y] ≠ Index.plus [1, 1] [0, 2] := by
      decide
    obtain ⟨q, hq, -, heq⟩ := hnew.rest [0, 2] rfl fun x hx => by
      obtain ⟨x, y, rfl⟩ := List.length_eq_two.mp (Shape.length_of_contains hx)
      obtain ⟨hx, hy⟩ := Shape.contains_cons.mp hx
      exact hbeyond x hx y (Shape.contains_cons.mp hy).1
    obtain rfl : 4 = q := Except.ok.inj hq
    exact heq
  · rintro (_ | ⟨x, i⟩) ⟨hs, hd⟩
    · exact hs
    · exact absurd hs.1.2 (Nat.not_lt.mpr hd.1.1)

end Node

end TiledTensor
