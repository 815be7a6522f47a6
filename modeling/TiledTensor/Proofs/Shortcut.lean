import TiledTensor.Proofs.Substitutes
import TiledTensor.Proofs.WholeTiles

/-!
# Copies tile by tile

Where two tensors are cut alike, a copy between them goes tile by tile and looks at no box.  The
copy of what they share at the origin looks at all of them, and comes to the same: it has the same
calls for all ranks, except that the operations have another name, more scratch memory and another
codelet, and on tiles of one size both codelets do the same (`Op.run_copyAll`).  So there is no
telling afterwards which of the two was called, whatever else happens and in whatever order.
-/

namespace TiledTensor

open Tensor (Spec)

variable {α : Type} [Scalar α]

/-! ## Memory that was allocated -/

namespace Handle

variable {Q R : Handle α → Prop} {e : Handle α} {block : List α}

theorem Kept.and (hQ : Kept Q) (hR : Kept R) : Kept fun e => Q e ∧ R e where
  relabel he hm hc := ⟨hQ.relabel he.1 hm hc, hR.relabel he.2 hm hc⟩
  access he := ⟨hQ.access he.1, hR.access he.2⟩
  store block he := ⟨hQ.store block he.1, hR.store block he.2⟩
  poison he := ⟨hQ.poison he.1, hR.poison he.2⟩
  evict he freed := ⟨hQ.evict he.1 freed, hR.evict he.2 freed⟩

/-- There is a block only if one of this size can be allocated. -/
def Backed (e : Handle α) : Prop :=
  ∀ block, e.memory = .present block → allocatable (e.count * Scalar.size α) = true

theorem Backed.access (he : e.Backed) : e.access.1.Backed ∧
    ∀ block, e.access.2 = .ok block → allocatable (e.count * Scalar.size α) = true := by
  unfold Handle.access
  split
  · exact ⟨he, fun block h => by cases h⟩
  · rename_i old hold
    exact ⟨he, fun _ _ => he old hold⟩
  · split
    · rename_i hroom
      exact ⟨fun _ _ => hroom, fun _ _ => hroom⟩
    · exact ⟨fun block h => (by cases h), fun block h => by cases h⟩

theorem kept_backed : Kept (Backed : Handle α → Prop) where
  relabel he hm hc block hb := by
    rw [hc]
    exact he block (hm ▸ hb)
  access he := he.access.1
  store block he := by
    unfold Handle.store
    split
    · rename_i old hold
      exact fun _ _ => he old hold
    · exact he
  poison _ block hb := by cases hb
  evict {e e'} _ freed := by
    unfold Handle.evict at freed
    split at freed
    · cases freed
    · cases freed
      exact fun block hb => by cases hb

/-- The block of a buffer is what was allocated for it. -/
def Allotted (e : Handle α) : Prop := e.Even ∧ e.Backed

theorem kept_allotted : Kept (Allotted : Handle α → Prop) := kept_even.and kept_backed

theorem allotted_of_absent (he : e.memory = .absent) : e.Allotted :=
  ⟨even_of_absent he, fun block hb => by
    rw [he] at hb
    cases hb⟩

/-- A block that is opened is as long as the buffer, and its bytes can be counted. -/
theorem Allotted.bounds (he : e.Allotted) (hb : e.access.2 = .ok block) :
    block.length = e.count ∧ e.count * Scalar.size α < Word.limit := by
  have hroom : 2 * (e.count * Scalar.size α) < Word.limit :=
    of_decide_eq_true (he.2.access.2 block hb)
  exact ⟨he.1.access.2 block hb, by omega⟩

end Handle

/-! ## The two operations -/

omit [Scalar α] in
/-- The copy of all of a block leaves the block. -/
theorem SubBox.Copied.eq_of_whole {s d : Tile} {xs ys new : List α}
    (h : SubBox.Copied (Op.boxOf s d (.whole d.layout.shape)) s.layout d.layout xs ys new)
    (hlayout : s.layout = d.layout) (hxs : xs.length = d.layout.count)
    (hys : ys.length = d.layout.count) : new = xs := by
  refine List.ext_getElem? fun q => ?_
  by_cases hq : q < d.layout.count
  · have hprod : q < d.layout.shape.prod := d.layout.count_eq.1 ▸ hq
    have hplace := h.inside _ (Shape.contains_digitsOf hprod)
    have horigin : Index.plus (List.replicate d.layout.shape.length 0) (d.layout.shape.digitsOf q) =
        d.layout.shape.digitsOf q := Region.origin_plus (Shape.length_digitsOf q _)
    dsimp only [Op.boxOf, Overlap.whole] at hplace
    rwa [hlayout, horigin, Shape.position_digitsOf hprod] at hplace
  · have hnew := h.length
    rw [List.getElem?_eq_none (by omega), List.getElem?_eq_none (by omega)]

/-- Scratch memory that is asked for last is opened last. -/
theorem Node.openAll_scratch_last {bytes : Nat} (hroom : allocatable ((bytes + 7) / 8 * 8) = true)
    (n : Node α) (operands : List Operand) :
    n.openAll (operands ++ [.scratch bytes]) =
      ((n.openAll operands).1, (n.openAll operands).2.map (· ++ [.scratch bytes])) := by
  induction operands generalizing n with
  | nil =>
    rw [List.nil_append]
    unfold openAll
    rw [if_pos hroom]
    rfl
  | cons x operands ih =>
    cases x with
    | scratch b =>
      rw [List.cons_append, openAll, openAll]
      split
      · rw [ih]
        rcases n.openAll operands with ⟨m, _ | views⟩ <;> rfl
      · rfl
    | data h a =>
      rw [List.cons_append, openAll, openAll]
      split
      · rfl
      · rename_i m block hm
        rw [ih]
        rcases m.openAll operands with ⟨m', _ | views⟩ <;> rfl

namespace Op

variable {n : Node α} {s d : Tile} {op op' : Op α} {src dst : Tensor}

/-- On blocks of one size both codelets put the first in the place of the second. -/
theorem codelets_copy {xs ys : List α} (hlayout : s.layout = d.layout)
    (hxs : xs.length = d.layout.count) (hys : ys.length = d.layout.count)
    (hbytes : d.layout.count * Scalar.size α < Word.limit) :
    Codelet.copy [.shared xs, .exclusive ys] = .ok [.shared xs, .exclusive xs] ∧
    ∃ room, Codelet.subBox (boxOf s d (.whole d.layout.shape))
      [.shared xs, .exclusive ys, .scratch (2 * d.layout.shape.length * 8)] =
        .ok [.shared xs, .exclusive xs, room] := by
  constructor
  · show Except.ok [View.shared xs, .exclusive (overlay xs ys)] = _
    rw [overlay_of_length (hys.trans hxs.symm)]
  · have hsrc : Region.Inside (Overlap.whole d.layout.shape).srcStart d.layout.shape
        s.layout.shape := by
      rw [hlayout]
      exact Region.inside_origin _
    obtain ⟨new, words, hcopy, hcopied⟩ := copy_boxOf hsrc (Region.inside_origin _) (hlayout ▸ hbytes)
      hbytes (hlayout ▸ hxs) hys
    obtain rfl := hcopied.eq_of_whole hlayout hxs hys
    exact Codelet.subBox_eq hcopy

/-- On tiles of one size both operations do the same. -/
theorem run_copyAll (hlayout : s.layout = d.layout) (hs : (n.handle s.handle).Allotted)
    (hd : (n.handle d.handle).Allotted) (hsc : (n.handle s.handle).count = s.layout.count)
    (hdc : (n.handle d.handle).count = d.layout.count)
    (hroom : allocatable (2 * d.layout.shape.length * 8) = true) :
    n.run (copyAll s d) = n.run (copy s d) := by
  unfold copyAll
  split
  · rfl
  · have hbytes : (2 * d.layout.shape.length * 8 + 7) / 8 * 8 = 2 * d.layout.shape.length * 8 := by omega
    have hopen := n.openAll_scratch_last (hbytes ▸ hroom) (copy s d : Op α).operands
    unfold Node.run
    rw [show (copyOverlap s d (.whole d.layout.shape) .write : Op α).operands =
      (copy s d : Op α).operands ++ [.scratch (2 * d.layout.shape.length * 8)] from rfl, hopen]
    cases hviews : n.openAll (copy s d : Op α).operands with
    | mk m views =>
      cases views with
      | none => rfl
      | some views =>
        obtain ⟨xs, views, hxs, hrest, rfl⟩ := Node.openAll_data (congrArg Prod.snd hviews)
        obtain ⟨ys, views, hys, hnone, rfl⟩ := Node.openAll_data hrest
        cases hnone
        obtain ⟨hxlen, -⟩ := hs.bounds hxs
        obtain ⟨hylen, hdb⟩ := (Handle.kept_allotted.openHandle hd s.handle).bounds hys
        have hcount := (Node.count_of_setting (Node.onlyMemory_openHandle n s.handle).setting
          d.handle).trans hdc
        rw [hsc, hlayout] at hxlen
        rw [hcount] at hylen hdb
        obtain ⟨hcopy, room, hbox⟩ := codelets_copy hlayout hxlen hylen hdb
        have hread : ¬Access.read.writes = true := Bool.false_ne_true
        rw [if_neg hread, if_pos (show Access.write.writes = true from rfl)]
        dsimp only [Option.map_some, List.cons_append, List.nil_append]
        rw [show (copyOverlap s d (.whole d.layout.shape) .write : Op α).codelet =
          Codelet.subBox (boxOf s d (.whole d.layout.shape)) from rfl, hbox,
          show (copy s d : Op α).codelet = Codelet.copy from rfl, hcopy]
        rfl

theorem uses_copyAll (s d : Tile) :
    (copyAll s d : Op α).uses = [(s.handle, .read), (d.handle, .write)] := by
  unfold copyAll
  split <;> rfl

/-- The copies of a tile of one tensor onto the tile of another with its number, without boxes and
with them. -/
inductive Twin (src dst : Tensor) : Op α → Op α → Prop
  | tiles {s d : Tile} (pair : (s, d) ∈ src.tiles.zip dst.tiles) :
      Twin src dst (copy s d) (copyAll s d)

theorem Twin.registered (h : Twin src dst op op') {codelets : List String}
    (hc : ∀ name ∈ Node.defaultOps, name ∈ codelets) : Node.Registered codelets op op' := by
  have hcopy : "copy" ∈ codelets := hc _ List.mem_cons_self
  have hbox : "copy_intersection" ∈ codelets := hc _ (List.mem_cons_of_mem _ List.mem_cons_self)
  cases h with
  | @tiles s d pair =>
    unfold copyAll
    split
    · exact ⟨rfl, rfl, hcopy, hcopy⟩
    · refine ⟨rfl, ?_, hcopy, hbox⟩
      simp [copyOverlap, copy, Node.firstClash, Node.clash, List.findSome?_cons]

end Op

/-! ## Ranks that have both tensors -/

namespace Node

variable {n n' n₀ : Node α} {net net' : Cluster} {src dst : Tensor} {op op' : Op α} {first last : Tag}
  {made : List (Spec × Except Failure Tensor)}

/-- A rank that has what it takes to copy from one tensor onto another; what memory their buffers
have was allocated for them. -/
structure Equipped (n : Node α) (src dst : Tensor) : Prop extends n.Ready src dst where
  sources : ∀ tile ∈ src.tiles, (n.handle tile.handle).Allotted
  targets : ∀ tile ∈ dst.tiles, (n.handle tile.handle).Allotted

theorem Equipped.undergo {a : Happening α} (hn : n.Equipped src dst)
    (step : n.undergo net a = some (net', n')) : n'.Equipped src dst where
  toReady := hn.toReady.undergo step
  sources tile ht := Handle.kept_allotted.undergo step (hn.sources tile ht)
  targets tile ht := Handle.kept_allotted.undergo step (hn.targets tile ht)

/-- Whatever happens to a rank, the memory of its tensors is what was allocated for them. -/
theorem Era.allotted (era : n₀.Era first made n last) (rank : n₀.rank < n₀.size) :
    ∀ t ∈ tensorsOf made, ∀ tile ∈ t.tiles, (n.handle tile.handle).Allotted := by
  induction era using Era.stepwise with
  | nil => exact nofun
  | fails spec e era _ next ih =>
    rw [tensorsOf_concat_error]
    exact ih
  | makes spec tiles era _ next design ih =>
    rw [tensorsOf_concat_ok]
    intro t ht tile htile
    rcases List.mem_append.mp ht with ht | ht
    · rw [handle_append_left _ (((era.bears rank).1 t ht).lt htile)]
      exact ih t ht tile htile
    · obtain rfl := List.mem_singleton.mp ht
      obtain ⟨k, hk⟩ := List.mem_iff_getElem?.mp htile
      obtain ⟨b, hb, rfl⟩ := Tensor.getElem?_layTiles.mp hk
      rw [handle_append_right, List.getD_eq_getElem?_getD, List.getElem?_map, hb]
      exact Handle.allotted_of_absent rfl
  | other a era step ih =>
    exact fun t ht tile htile => Handle.kept_allotted.undergo step (ih t ht tile htile)

/-- A rank can copy between any two of the tensors that it has made, at any later time. -/
theorem Era.equipped (era : n₀.Era first made n last) (rank : n₀.rank < n₀.size)
    (hops : ∀ name ∈ defaultOps, name ∈ n.codelets) {i j : Nat} (hne : i ≠ j)
    (hi : (tensorsOf made)[i]? = some src) (hj : (tensorsOf made)[j]? = some dst) :
    n.Equipped src dst := by
  obtain ⟨hbears, hapart⟩ := era.bears rank
  have hsrc := List.mem_of_getElem? hi
  have hdst := List.mem_of_getElem? hj
  have hdiffer : src.Apart dst := by
    obtain ⟨hilt, rfl⟩ := List.getElem?_eq_some_iff.mp hi
    obtain ⟨hjlt, rfl⟩ := List.getElem?_eq_some_iff.mp hj
    rcases Nat.lt_or_gt_of_ne hne with hlt | hgt
    · exact List.pairwise_iff_getElem.mp hapart i j hilt hjlt hlt
    · exact (List.pairwise_iff_getElem.mp hapart j i hjlt hilt hgt).symm
  exact ⟨⟨hbears src hsrc, hbears dst hdst, hdiffer, hops⟩, era.allotted rank src hsrc,
    era.allotted rank dst hdst⟩

/-- Such a rank does the same by both operations. -/
theorem Equipped.run_eq {m : Node α} (hn : n.Equipped src dst) (hm : src.Matches dst)
    (hroom : allocatable (2 * dst.ndim * 8) = true) (h : op.Twin src dst op')
    (hh : m.handles = n.handles) : m.run op' = m.run op := by
  cases h with
  | @tiles s d pair =>
    obtain ⟨hs, hd⟩ := List.of_mem_zip pair
    refine Op.run_copyAll (hm.layout pair) ?_ ?_ ?_ ?_ ?_
    · rw [handle_of_handles hh]
      exact hn.sources s hs
    · rw [handle_of_handles hh]
      exact hn.targets d hd
    · rw [handle_of_handles hh]
      exact hn.source.count hs
    · rw [handle_of_handles hh]
      exact hn.target.count hd
    · rwa [hm.target.length_layout hd]

end Node

/-! ## Both scripts -/

namespace Tensor

variable {src dst : Tensor} {r : Rank}

/-- The calls for tiles that have the same number are the same, except for the operation. -/
theorem swaps_pairwise (r : Rank) (src dst : Tensor) : List.Forall₂ (Call.Swaps (Op.Twin src dst))
    (pairwise (α := α) r src dst Op.copy) (pairwise r src dst Op.copyAll) := by
  have hall : ∀ ps : List (Tile × Tile), ps ⊆ src.tiles.zip dst.tiles →
      List.Forall₂ (Call.Swaps (Op.Twin (α := α) src dst))
        (ps.flatMap fun p => .transfer p.1.handle p.2.owner :: onOwner r p.2 (Op.copy p.1 p.2) ++
          [.flush p.2.handle])
        (ps.flatMap fun p => .transfer p.1.handle p.2.owner :: onOwner r p.2 (Op.copyAll p.1 p.2) ++
          [.flush p.2.handle]) := by
    intro ps hps
    induction ps with
    | nil => exact .nil
    | cons p ps ih =>
      rw [List.cons_subset] at hps
      rw [List.flatMap_cons, List.flatMap_cons]
      refine List.rel_append ?_ (ih hps.2)
      refine .cons (.transfer _ _) (List.rel_append ?_ (.cons (.flush _) .nil))
      unfold onOwner
      split
      · exact .cons (.submit (.tiles hps.1)) .nil
      · exact .nil
  exact hall _ (List.Subset.refl _)

end Tensor

namespace World

variable {w : World α} {src dst : Rank → Tensor}

/-- Between tensors that are cut alike, the copy of whole tiles and the copy of what they share at
the origin are the same, whatever the buffers of a rank are like.

The scripts have the same calls in the same order on each rank, and no failure: a tile of the source
is fetched for the owner of the tile of the destination with its number, who reads the one and
writes the other, and all others forget the latter.  Carried out at once, both leave a rank the same
outline and have the same answer.  And whatever happens in a world while its ranks make their calls,
and afterwards, it comes to the same outline, and so to the same contents of all buffers. -/
theorem copyIntersection_eq_copyTo
    (equipped : ∀ r < w.size, (w.node r).Equipped (src r) (dst r))
    (shape : ∀ r < w.size, (src r).shape = (dst r).shape)
    (basetile : ∀ r < w.size, (src r).tiling.basetile = (dst r).tiling.basetile)
    (room : ∀ r < w.size, allocatable (2 * (dst r).ndim * 8) = true) :
    let direct : Rank → Script α := fun r => Tensor.copyTo r (src r) (dst r)
    let boxed : Rank → Script α := fun r => Tensor.copyIntersection r
      (src r) (List.replicate (src r).ndim 0) (dst r) (List.replicate (src r).ndim 0)
    (∀ r < w.size, direct r = ⟨Tensor.pairwise r (src r) (dst r) Op.copy, none⟩ ∧
      boxed r = ⟨Tensor.pairwise r (src r) (dst r) Op.copyAll, none⟩ ∧
      ∀ n : Node α, (∀ name ∈ Node.defaultOps, name ∈ n.codelets) →
        (n.perform (boxed r)).1.outline = (n.perform (direct r)).1.outline ∧
        (n.perform (boxed r)).2 = (n.perform (direct r)).2) ∧
    (∀ s d : Tile, (Op.copy s d : Op α).uses = [(s.handle, .read), (d.handle, .write)] ∧
      (Op.copyAll s d : Op α).uses = [(s.handle, .read), (d.handle, .write)]) ∧
    ∀ turns : List (Rank ⊕ Occurrence α), (∀ r, .inl r ∈ turns → r < w.size) →
      (w.after (interleave (fun r => (boxed r).calls) turns)).map outline =
        (w.after (interleave (fun r => (direct r).calls) turns)).map outline := by
  intro direct boxed
  have hmatches : ∀ r < w.size, (src r).Matches (dst r) := fun r hr =>
    ⟨(equipped r hr).source.formed, (equipped r hr).target.formed,
      Tiling.eq_of_shapes (shape r hr) (basetile r hr)⟩
  have hdirect : ∀ r < w.size, direct r = ⟨Tensor.pairwise r (src r) (dst r) Op.copy, none⟩ :=
    fun r hr => (hmatches r hr).copyTo_eq_pairwise
  have hboxed : ∀ r < w.size, boxed r = ⟨Tensor.pairwise r (src r) (dst r) Op.copyAll, none⟩ :=
    fun r hr => (hmatches r hr).copyIntersection_eq_pairwise
  have hswaps : ∀ r < w.size, List.Forall₂ (Call.Swaps (Op.Twin (src r) (dst r))) (direct r).calls
      (boxed r).calls := by
    intro r hr
    rw [hdirect r hr, hboxed r hr]
    exact Tensor.swaps_pairwise r (src r) (dst r)
  refine ⟨fun r hr => ⟨hdirect r hr, hboxed r hr, fun n hn => ?_⟩,
    fun s d => ⟨rfl, Op.uses_copyAll s d⟩, fun turns hturns => ?_⟩
  · refine Node.perform_swaps (fun op op' h => h.registered hn) (hswaps r hr) ?_
    rw [hdirect r hr, hboxed r hr]
  · refine outline_after (I := fun r n => r < w.size ∧ n.Equipped (src r) (dst r))
      (fun r n net a net' n' hn step => ⟨hn.1, hn.2.undergo step⟩) ?_ fun r hr => ⟨hr, equipped r hr⟩
    refine interleave_swaps fun r hr => (hswaps r (hturns r hr)).imp fun c c' h => ?_
    cases h with
    | transfer j t => exact .transfer j t
    | flush j => exact .flush j
    | submit twin =>
      refine .submit ⟨fun n hn => ?_, fun n hn m hm => ?_⟩
      · exact (twin.registered hn.2.codelets).similar
      · exact hn.2.run_eq (hmatches r hn.1) (room r hn.1) twin hm

/-- A rank of two with two tensors of two tiles, whose owners are the other way round. -/
def crossingRank (rank : Rank) : Node (ElementType.Value .i64) where
  rank
  size := 2
  codelets := Node.defaultOps
  handles := [.new 2 0 (some ⟨0⟩), .new 2 1 (some ⟨1⟩), .new 2 1 (some ⟨2⟩), .new 2 0 (some ⟨3⟩)]

def crossing : World (ElementType.Value .i64) := ⟨.ofSize 2, [crossingRank 0, crossingRank 1]⟩

/-- A tensor of two by two elements in a line.  The grid of its tiles is laid out like a tile. -/
def straight : Tensor := ⟨Node.halves, ⟨0⟩, [⟨Node.halves.grid, 0, 0⟩, ⟨Node.halves.grid, 1, 1⟩]⟩

def crossed : Tensor := ⟨Node.halves, ⟨2⟩, [⟨Node.halves.grid, 2, 1⟩, ⟨Node.halves.grid, 3, 0⟩]⟩

/-- Both ranks have made both tensors. -/
theorem equipped_crossing : ∀ r < crossing.size, (crossing.node r).Equipped straight crossed := by
  have hera : ∀ rank, Node.Era ({ rank, size := 2, codelets := Node.defaultOps } :
      Node (ElementType.Value .i64)) ⟨0⟩
      [(.shared Node.halves [0, 1], .ok straight), (.shared Node.halves [1, 0], .ok crossed)]
      (crossingRank rank) ⟨4⟩ := fun rank =>
    (Node.Era.nil.construct (.shared Node.halves [0, 1])).construct (.shared Node.halves [1, 0])
  have hrank : ∀ rank < 2, (crossingRank rank).Equipped straight crossed := fun rank hr =>
    (hera rank).equipped hr (fun _ h => h) Nat.zero_ne_one rfl rfl
  rintro (_ | _ | r) hr
  · exact hrank 0 Nat.two_pos
  · exact hrank 1 Nat.one_lt_two
  · exact absurd hr (by simp [crossing, size])

/-- The first rank writes its tile of the source.  The ranks make their calls in turns, the second
one while its scheduler goes on; it receives the tile and runs its copy. -/
def crossingTurns : List (Rank ⊕ Occurrence (ElementType.Value .i64)) :=
  [.inr (.inl (0, .acquire 0 .write)), .inr (.inl (0, .take)), .inr (.inl (0, .put 0 [5, 6])),
    .inr (.inl (0, .release 0)), .inr (.inl (0, .take)), .inl 1, .inl 0, .inl 1, .inr (.inl (1, .take)),
    .inl 0, .inl 0, .inl 1, .inl 1, .inl 1, .inl 0, .inl 0, .inr (.inl (0, .take)),
    .inr (.inl (0, .take)), .inr (.inl (1, .take)), .inr (.inl (1, .arrive 0)), .inr (.inl (1, .take)),
    .inr (.inl (1, .take)), .inr (.inl (1, .work 0))]

/-- Through boxes the second rank has what the first one wrote, since it has so tile by tile. -/
theorem copyIntersection_eq_copyTo_of_crossing :
    (∀ r < crossing.size, (crossing.node r).Equipped straight crossed) ∧
    straight.shape = crossed.shape ∧ straight.tiling.basetile = crossed.tiling.basetile ∧
    allocatable (2 * crossed.ndim * 8) = true ∧
    (∀ r, .inl r ∈ crossingTurns → r < crossing.size) ∧
    ∃ w, crossing.after (interleave
        (fun r => (Tensor.copyIntersection r straight [0] crossed [0]).calls) crossingTurns) = some w ∧
      ((w.node 1).handle 2).memory = .present [5, 6] := by
  have hturns : ∀ r, .inl r ∈ crossingTurns → r < crossing.size := by
    have hall : ∀ r ∈ crossingTurns.filterMap Sum.getLeft?, r < 2 := by decide
    exact fun r hr => hall r (List.mem_filterMap.mpr ⟨_, hr, rfl⟩)
  have hdirect : (crossing.after (interleave (fun r => (Tensor.copyTo r straight crossed).calls)
      crossingTurns)).map (fun w => ((w.node 1).handle 2).memory) = some (.present [5, 6]) := by
    decide +kernel
  obtain ⟨-, -, houtline⟩ := copyIntersection_eq_copyTo equipped_crossing (fun _ _ => rfl)
    (fun _ _ => rfl) fun _ _ => rfl
  obtain ⟨v, hv, hmemory⟩ := Option.map_eq_some_iff.mp hdirect
  have hboxed := houtline crossingTurns hturns
  rw [hv] at hboxed
  obtain ⟨w, hw, heq⟩ := Option.map_eq_some_iff.mp hboxed
  refine ⟨equipped_crossing, rfl, rfl, rfl, hturns, w, hw, ?_⟩
  have hnode : (w.node 1).outline = (v.node 1).outline := by
    rw [← node_outline, heq, node_outline]
  have hhandle : (w.node 1).outline.handle 2 = (v.node 1).outline.handle 2 := by rw [hnode]
  exact (congrArg Handle.memory hhandle).trans hmemory

end World

end TiledTensor
