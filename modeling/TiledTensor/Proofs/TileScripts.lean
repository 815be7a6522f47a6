import TiledTensor.Proofs.Dense
import TiledTensor.Proofs.Making
import TiledTensor.Proofs.Planning
import TiledTensor.Proofs.Replicas
import TiledTensor.Proofs.TileOps

/-!
# What the scripts of the ranks do to the tiles

The ranks carry out the scripts of a collective call, each its own.  They have one list of moves in
common, and the moves are made tile by tile: the tiles that a destination tile is copied from are
transferred to its owner one after the other, the owner copies, and then all other copies of the
tile are dropped.
-/

namespace TiledTensor

open Region (Holds)

variable {α : Type}

instance : Inhabited Tile := ⟨⟨.scalar, 0, 0⟩⟩

/-! ## Scripts and moves -/

/-- Every rank makes its calls for the same moves, to the end, and the moves are about the tiles of
a table. -/
structure Follows (tiles : List Tensor.Blueprint) (script : Rank → Script α)
    (moves : List (Move α)) : Prop where
  script : ∀ r, script r = ⟨moves.filterMap (Move.callOn r), none⟩
  known : ∀ l ∈ moves.filterMap Move.line?, l.tile < tiles.length

namespace Follows

variable {tiles : List Tensor.Blueprint} {script script' : Rank → Script α}
  {moves moves' : List (Move α)}

theorem nil : Follows tiles (fun _ => {}) ([] : List (Move α)) := ⟨fun _ => rfl, by simp⟩

theorem append (h : Follows tiles script moves) (h' : Follows tiles script' moves') :
    Follows tiles (fun r => script r ++ script' r) (moves ++ moves') := by
  refine ⟨fun r => ?_, fun l hl => ?_⟩
  · rw [List.filterMap_append]
    show (script r).append (script' r) = _
    rw [h.script r, h'.script r]
    rfl
  · rw [List.filterMap_append, List.mem_append] at hl
    exact hl.elim (h.known l) (h'.known l)

theorem flatMap {β : Type} {items : List β} {script : Rank → β → Script α}
    {moves : β → List (Move α)} (h : ∀ x ∈ items, Follows tiles (fun r => script r x) (moves x))
    {last : Rank → Script α} {more : List (Move α)} (hlast : Follows tiles last more) :
    Follows tiles (fun r => items.foldr (fun x rest => script r x ++ rest) (last r))
      (items.flatMap moves ++ more) := by
  induction items with
  | nil => exact hlast
  | cons x items ih =>
    rw [List.flatMap_cons, List.append_assoc]
    exact (h x List.mem_cons_self).append (ih fun y hy => h y (List.mem_cons_of_mem _ hy))

end Follows

theorem filterMap_callOn_op (r : Rank) (tile : Tile) (f : Op α) :
    [Move.op tile.owner f].filterMap (Move.callOn r) = Tensor.onOwner r tile f := by
  unfold Tensor.onOwner
  by_cases h : tile.owner = r
  · subst h
    rw [if_pos rfl, List.filterMap_cons_some Move.callOn_op_self]
    rfl
  · rw [if_neg (Ne.symm h), List.filterMap_cons_none (Move.callOn_op_of_ne h)]
    rfl

/-! ## Tensors of a world -/

namespace Tensor

/-- The bytes of each tile can be counted, and there is memory for two of its indices. -/
structure Sized (α : Type) [Scalar α] (t : Tensor) : Prop where
  bytes : ∀ tile ∈ t.tiles, tile.layout.count * Scalar.size α < Word.limit
  room : ∀ tile ∈ t.tiles, allocatable (2 * tile.layout.shape.length * 8) = true

/-- The tile with a linear number, for numbers that have one. -/
def tileAt (t : Tensor) (n : Nat) : Tile := t.tiles.getD n default

theorem tileAt_eq {t : Tensor} {n : Nat} {tile : Tile} (h : t.tiles[n]? = some tile) :
    t.tileAt n = tile := by
  rw [tileAt, List.getD_eq_getElem?_getD, h]
  rfl

theorem getElem?_tileAt {t : Tensor} {n : Nat} (h : n < t.tiles.length) :
    t.tiles[n]? = some (t.tileAt n) := by
  rw [tileAt_eq (List.getElem?_eq_getElem h), List.getElem?_eq_getElem h]

end Tensor

/-! ## Whole tiles -/

variable [Scalar α]

namespace Tensor

/-- The moves of a copy of a whole tile. -/
def copyTileMoves (s d : Tile) : List (Move α) :=
  [.line (.transfer s.handle d.owner), .op d.owner (Op.copy s d), .line (.flush d.handle)]

variable {tiles : List Blueprint}

theorem follows_copyTiles {src dst : List Tile} (hs : ∀ s ∈ src, s.Known tiles)
    (hd : ∀ d ∈ dst, d.Known tiles) (h : src.length = dst.length) :
    Follows (α := α) tiles (fun r => copyTilesScript r src dst)
      ((src.zip dst).flatMap fun p => copyTileMoves p.1 p.2) := by
  induction src generalizing dst with
  | nil =>
    obtain rfl : dst = [] := List.length_eq_zero_iff.mp h.symm
    exact .nil
  | cons s src ih =>
    cases dst with
    | nil => cases h
    | cons d dst =>
      rw [List.forall_mem_cons] at hs hd
      refine Follows.append ⟨fun r => ?_, ?_⟩ (ih hs.2 hd.2 (by simpa using h))
      · show _ = (⟨_ :: List.filterMap (Move.callOn r) ([Move.op d.owner (Op.copy s d)] ++
          [.line (.flush d.handle)]), none⟩ : Script α)
        rw [List.filterMap_append, filterMap_callOn_op]
        rfl
      · simpa [copyTileMoves, Move.line?, Line.tile] using ⟨hs.1.lt, hd.1.lt⟩

/-- The moves of a clear of a tile. -/
def clearMoves (d : Tile) : List (Move α) := [.op d.owner (Op.clear d), .line (.flush d.handle)]

theorem follows_clear {t : Tensor} (h : ∀ d ∈ t.tiles, d.Known tiles) :
    Follows (α := α) tiles (fun r => clear r t) (t.tiles.flatMap clearMoves) := by
  refine ⟨fun r => ?_, ?_⟩
  · show clear r t = _
    rw [clear, List.filterMap_flatMap]
    congr 2
    funext d
    show _ = List.filterMap (Move.callOn r) ([Move.op d.owner (Op.clear d)] ++
      [.line (.flush d.handle)])
    rw [List.filterMap_append, filterMap_callOn_op]
    rfl
  · rw [List.filterMap_flatMap]
    intro l hl
    obtain ⟨d, hd, hl⟩ := List.mem_flatMap.mp hl
    obtain rfl : Line.flush d.handle = l := by simpa [clearMoves, Move.line?] using hl
    exact (h d hd).lt

end Tensor

namespace Stage.Agrees

variable {w₀ : World α} {tiles : List Tensor.Blueprint} {stage : Stage α}
  {writing : Option HandleId} {s d : Tile} {xs ys : List α}

/-- A tile is replaced by another one of the same size. -/
theorem copyTile (hw : w₀.Alike tiles) (hst : stage.Agrees w₀ tiles none)
    (hs : s.Known tiles) (hd : d.Known tiles) (hne : s.handle ≠ d.handle)
    (hxs : stage.value tiles s.handle = some xs) (hys : stage.value tiles d.handle = some ys)
    (hlen : xs.length = ys.length) :
    (stage.performAll (Tensor.copyTileMoves s d)).Agrees w₀ tiles none ∧
      (stage.performAll (Tensor.copyTileMoves s d)).value tiles =
        (stage.value tiles).set d.handle (some xs) := by
  obtain ⟨b, hb, -⟩ := hs
  obtain ⟨c, hc, howner⟩ := hd
  obtain ⟨hst', hvalue⟩ := hst.transfer_run hw (fun _ h => absurd h (by simp)) hb hc hne
    (f := Op.copy s d) (by simp [Op.uses, Op.copy, Operand.use?]) fun st h h' =>
      Store.run_copy (h.trans hxs) (h'.trans hys) hlen
  obtain ⟨hflush, hsame⟩ := hst'.flush hw (fun j h => (Option.some.inj h).symm) hc
  rw [hvalue] at hsame
  rw [howner] at hflush hsame
  exact ⟨hflush, hsame⟩

/-- A tile is replaced by zeros. -/
theorem clear (hw : w₀.Alike tiles) (hst : stage.Agrees w₀ tiles none)
    (hd : d.Known tiles) (hys : stage.value tiles d.handle = some ys) :
    (stage.performAll (Tensor.clearMoves d)).Agrees w₀ tiles none ∧
      (stage.performAll (Tensor.clearMoves d)).value tiles =
        (stage.value tiles).set d.handle (some (ys.map fun _ => Scalar.zero)) := by
  obtain ⟨c, hc, howner⟩ := hd
  obtain ⟨hst', hvalue⟩ := hst.run hw (f := Op.clear d) (fun _ h => absurd h (by simp)) hc (by
    intro u hu
    obtain rfl : u = (d.handle, .write) := by simpa [Op.uses, Op.clear, Operand.use?] using hu
    exact ⟨c, hc⟩) (Store.run_clear ((value_eq hc).symm.trans hys))
  obtain ⟨hflush, hsame⟩ := hst'.flush hw (fun j h => (Option.some.inj h).symm) hc
  rw [hvalue] at hsame
  rw [howner] at hflush hsame
  exact ⟨hflush, hsame⟩

end Stage.Agrees

/-! ## Overlaps -/

namespace Tensor

/-- The moves of a copy of an overlap. -/
def copyMoves (src : Tensor) (d : Tile) (c : TileCopy) : List (Move α) :=
  [.line (.transfer (src.tileAt c.source).handle d.owner),
    .op d.owner (Op.copyOverlap (src.tileAt c.source) d c.plan c.access)]

variable {tiles : List Blueprint} {src : Tensor} {d : Tile} {c : TileCopy} {srcAt dstAt : Index}

theorem follows_copyCalls (hsrc : src.LaidOut tiles) (h : c.source < src.tiles.length) :
    Follows (α := α) tiles (fun r => copyCalls r src d c) (copyMoves src d c) := by
  have hget := List.getElem?_eq_getElem h
  have htile : src.tile c.source = .ok src.tiles[c.source] := by
    rw [tile, hget]
  refine ⟨fun r => ?_, ?_⟩
  · show copyCalls r src d c = _
    rw [copyCalls, htile, copyMoves, tileAt_eq hget]
    show _ = (⟨_ :: List.filterMap (Move.callOn r) [Move.op d.owner _], none⟩ : Script α)
    rw [filterMap_callOn_op]
    rfl
  · rw [copyMoves, tileAt_eq hget]
    simpa [Move.line?, Line.tile] using (hsrc.known _ (List.getElem_mem h)).lt

/-- A copy of what a source tile, placed with its source, shares with a destination tile. -/
structure Provides (src : Tensor) (srcAt dstAt : Index) (d : Tile) (c : TileCopy) : Prop where
  lt : c.source < src.tiles.length
  exact : ∃ start, src.tiling.tileStartAt c.source = .ok start ∧
    c.plan.Exact (srcAt.plus start) (src.tileAt c.source).layout.shape dstAt d.layout.shape

/-- The copies onto a tile are of the tiles of the source. -/
theorem provides_of_plans (hsrc : src.Formed) {visited : List Index}
    {copies : List TileCopy}
    (h : src.tiling.Plans srcAt dstAt d.layout.shape visited copies) (hc : c ∈ copies) :
    src.Provides srcAt dstAt d c := by
  obtain ⟨i, hi, hlinear, start, extent, hstart, hextent, hexact⟩ := Tiling.exists_left h.each hc
  have hcontains := ((h.visits i).mp hi).1
  have hsource : c.source = src.tiling.grid.shape.position i :=
    Except.ok.inj (hlinear.symm.trans (Layout.toLinear_eq hcontains))
  have hindex : src.tiling.grid.toIndex c.source = .ok i := by
    rw [hsource, Layout.toIndex_position hcontains]
  have hlt : c.source < src.tiles.length := by
    rw [hsrc.count, hsource]
    exact Layout.position_lt_count hcontains
  have hget := List.getElem?_eq_getElem hlt
  have hlayout := hsrc.layout _ _ hget
  rw [Tiling.tileLayout, Except.bind_of_ok hindex, Except.bind_of_ok hextent] at hlayout
  refine ⟨hlt, start, ?_, ?_⟩
  · rw [Tiling.tileStartAt, Except.bind_of_ok hindex, hstart]
  · rw [tileAt_eq hget, Layout.shape_of_new hlayout]
    exact hexact

end Tensor

/-- A block holds an array at some places, and what another block holds at the others. -/
structure Layout.Patched (l : Layout) (p : Index → Prop) (x : Index → α) (old new : List α) :
    Prop where
  length : new.length = l.count
  inside : ∀ y, p y → new[l.shape.position y]? = some (x y)
  outside : ∀ y, l.shape.contains y = true → ¬p y →
    new[l.shape.position y]? = old[l.shape.position y]?

omit [Scalar α] in
/-- What is replaced at some places, and then at others, is replaced at all of them. -/
theorem Layout.Patched.trans {l : Layout} {p q : Index → Prop} {x : Index → α} {xs ys zs : List α}
    (h : l.Patched p x xs ys) (h' : l.Patched q x ys zs) (hp : ∀ y, p y → l.shape.contains y = true) :
    l.Patched (fun y => p y ∨ q y) x xs zs where
  length := h'.length
  inside y hy := by
    by_cases hq : q y
    · exact h'.inside y hq
    · have hfirst := hy.resolve_right hq
      rw [h'.outside y (hp y hfirst) hq, h.inside y hfirst]
  outside y hin hy := by
    rw [not_or] at hy
    rw [h'.outside y hin hy.2, h.outside y hin hy.1]

/-- What the copy of an overlap leaves: the source at the places that both boxes have, and what was
there at the others. -/
theorem Overlap.Exact.exists_copy {plan : Overlap} (access : Access) {s d : Tile} {a b : Index}
    {X : Index → α} {xs ys : List α} (h : plan.Exact a s.layout.shape b d.layout.shape)
    (hs : s.layout.count * Scalar.size α < Word.limit)
    (hd : d.layout.count * Scalar.size α < Word.limit)
    (hroom : allocatable (2 * d.layout.shape.length * 8) = true)
    (hxs : s.layout.Holds xs fun i => X (a.plus i)) (hys : ys.length = d.layout.count) :
    ∃ new : List α, d.layout.Patched (Holds plan.dstStart plan.shape) (fun y => X (b.plus y)) ys new ∧
      ∀ st : Store α, st s.handle = some xs → st d.handle = some ys →
        st.run (Op.copyOverlap s d plan access) = st.set d.handle (some new) := by
  obtain ⟨hlen, hheld⟩ := Layout.holds_iff.mp hxs
  obtain ⟨new, words, hcopy, hcopied⟩ := Op.copy_boxOf h.inside.1 h.inside.2 hs hd hlen hys
  refine ⟨new, ⟨hcopied.length.trans hys, fun y hy => ?_, hcopied.outside⟩, fun st hst hst' => ?_⟩
  · obtain ⟨o, ho, rfl, -⟩ := hy.exists_plus
    have hplace := hheld _ (h.inside.1.contains_plus ho)
    rw [← Region.plus_assoc, h.same, Region.plus_assoc] at hplace
    exact (hcopied.inside o ho).trans hplace
  · refine Store.run_copyOverlap hst hst' ?_ hcopy hcopied.length
    rwa [← h.inside.2.length.2]

namespace Stage.Agrees

variable {w₀ : World α} {tiles : List Tensor.Blueprint} {stage : Stage α}
  {writing : Option HandleId} {src : Tensor} {d : Tile} {xs ys : List α} {c : TileCopy}
  {copies : List TileCopy} {srcAt dstAt : Index} {X : Index → α} {v : Store α}

variable (hw : w₀.Alike tiles) (hsrc : src.LaidOut tiles) (hsize : src.Sized α)
  (hd : d.Known tiles) (hbytes : d.layout.count * Scalar.size α < Word.limit)
  (hroom : allocatable (2 * d.layout.shape.length * 8) = true)
  (hapart : ∀ s ∈ src.tiles, s.handle ≠ d.handle)
  (hX : src.Holds (fun _ => v) fun i => X (srcAt.plus i))

include hw hsrc hsize hd hbytes hroom hapart hX

/-- After one copy onto a tile it holds the source at the places that the copy fills. -/
theorem copyOverlap (hc : src.Provides srcAt dstAt d c) (hst : stage.Agrees w₀ tiles writing)
    (hwriting : ∀ j, writing = some j → j = d.handle)
    (hv : ∀ j ≠ d.handle, stage.value tiles j = v j)
    (hys : stage.value tiles d.handle = some ys) (hlen : ys.length = d.layout.count) :
    ∃ new, (stage.performAll (Tensor.copyMoves src d c)).Agrees w₀ tiles (some d.handle) ∧
      (stage.performAll (Tensor.copyMoves src d c)).value tiles =
        (stage.value tiles).set d.handle (some new) ∧
      d.layout.Patched (Holds c.plan.dstStart c.plan.shape) (fun y => X (dstAt.plus y)) ys new := by
  obtain ⟨hlt, start, hstart, hexact⟩ := hc
  have hget := Tensor.getElem?_tileAt hlt
  have hmem := List.mem_of_getElem? hget
  obtain ⟨b, hb, -⟩ := hsrc.known _ hmem
  obtain ⟨c', hc', howner⟩ := hd
  obtain ⟨start', block, hstart', hblock, hholds⟩ :=
    hX c.source (src.tileAt c.source) hget
  obtain rfl : start = start' := Except.ok.inj (hstart.symm.trans hstart')
  simp only [← Region.plus_assoc] at hholds
  obtain ⟨new, hpatched, hrun⟩ := hexact.exists_copy c.access (hsize.bytes _ hmem) hbytes hroom
    hholds hlen
  obtain ⟨hst', hvalue⟩ := hst.transfer_run hw hwriting hb hc' (hapart _ hmem)
    (f := Op.copyOverlap (src.tileAt c.source) d c.plan c.access)
    (by simp [Op.uses, Op.copyOverlap, Operand.use?]) fun st h h' =>
      hrun st (h.trans ((hv _ (hapart _ hmem)).trans hblock)) (h'.trans hys)
  rw [howner] at hst' hvalue
  exact ⟨new, hst', hvalue, hpatched⟩

/-- After some copies onto a tile it holds the source at the places that they fill, and what it held
before at the others. -/
theorem copyOverlaps (hcopies : ∀ c ∈ copies, src.Provides srcAt dstAt d c)
    (hst : stage.Agrees w₀ tiles writing) (hwriting : ∀ j, writing = some j → j = d.handle)
    (hv : ∀ j ≠ d.handle, stage.value tiles j = v j)
    (hys : stage.value tiles d.handle = some ys) (hlen : ys.length = d.layout.count) :
    ∃ new writing', (stage.performAll (copies.flatMap (Tensor.copyMoves src d))).Agrees w₀ tiles
        writing' ∧ (∀ j, writing' = some j → j = d.handle) ∧
      (stage.performAll (copies.flatMap (Tensor.copyMoves src d))).value tiles =
        (stage.value tiles).set d.handle (some new) ∧
      d.layout.Patched (fun y => ∃ c ∈ copies, Holds c.plan.dstStart c.plan.shape y)
        (fun y => X (dstAt.plus y)) ys new := by
  induction copies generalizing stage writing ys with
  | nil =>
    refine ⟨ys, writing, hst, hwriting, ?_, hlen, by simp, fun _ _ _ => rfl⟩
    funext j
    by_cases hj : j = d.handle
    · rw [hj, Store.set_self, ← hys]
      rfl
    · rw [Store.set_of_ne _ _ hj]
      rfl
  | cons c copies ih =>
    have hc := hcopies c List.mem_cons_self
    obtain ⟨ys', hst', hvalue, hpatched⟩ := hst.copyOverlap hw hsrc hsize hd hbytes hroom hapart hX hc
      hwriting hv hys hlen
    obtain ⟨new, writing', hagrees, hwriting', hnew, hrest⟩ := ih
      (fun c hc => hcopies c (List.mem_cons_of_mem _ hc)) hst'
      (fun j h => (Option.some.inj h).symm) (fun j hj => by
        rw [hvalue, Store.set_of_ne _ _ hj]
        exact hv j hj) (by rw [hvalue, Store.set_self]) hpatched.length
    rw [List.flatMap_cons, performAll_append]
    refine ⟨new, writing', hagrees, hwriting', ?_, ?_⟩
    · refine hnew.trans ?_
      funext j
      by_cases hj : j = d.handle
      · rw [hj, Store.set_self, Store.set_self]
      · rw [Store.set_of_ne _ _ hj, Store.set_of_ne _ _ hj]
        exact (congrFun hvalue j).trans (Store.set_of_ne _ _ hj)
    · obtain ⟨-, start, -, hexact⟩ := hc
      simp only [List.exists_mem_cons_iff]
      exact hpatched.trans hrest fun y hy => hexact.inside.2.contains_of_holds hy

end Stage.Agrees

end TiledTensor
