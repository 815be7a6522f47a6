import TiledTensor.Proofs.TileScripts

/-!
# What a collective call does to the tensors

Made on every rank, each by its own script, a collective call does to the tiles what it means on
dense arrays: if the tensors hold some arrays before, they hold afterwards what the call makes of
the arrays. The tiles of the destination are replaced one after the other; the tiles of all other
tensors stay as they are.
-/

namespace TiledTensor

theorem Script.bind_of_ok {α β : Type} {r : Except Fault β} {b : β} (h : r = .ok b)
    (k : β → Script α) : Script.bind r k = k b := by
  rw [h]
  rfl

/-- Blocks and offsets match if they have one number of dimensions. -/
theorem Tensor.mismatch_eq_none_iff {m k : Nat} {srcAt dstAt : Index} :
    mismatch m srcAt k dstAt = none ↔ m = k ∧ srcAt.length = k ∧ dstAt.length = k := by
  unfold mismatch
  split_ifs <;> simp_all

/-! ## What a block holds -/

theorem Layout.Holds.congr {α : Type} {l : Layout} {block : List α} {x x' : Index → α}
    (h : l.Holds block x) (hx : ∀ y, l.shape.contains y = true → x y = x' y) :
    l.Holds block x' := by
  refine ⟨h.1, fun y hy => ?_⟩
  obtain ⟨k, hk, hblock⟩ := h.2 y hy
  exact ⟨k, hk, hx y hy ▸ hblock⟩

namespace Tensor

variable {α : Type} {tiles : List Blueprint} {t : Tensor} {n : Nat} {tile : Tile}
  {held : Option (List α)} {x x' : Index → α} {shows : Rank → Store α}

/-- The elements of a tile are elements of its tensor. -/
theorem LaidOut.contains (ht : t.LaidOut tiles) (hn : t.tiles[n]? = some tile) {start y : Index}
    (hstart : t.tiling.tileStartAt n = .ok start) (hy : tile.layout.shape.contains y = true) :
    t.shape.contains (start.plus y) = true :=
  (Tiling.tile_eq_of_number hstart (ht.layout n tile hn)).1.contains_plus hy

theorem TileHolds.congr (h : t.TileHolds n tile held x) (ht : t.LaidOut tiles)
    (hn : t.tiles[n]? = some tile) (hx : ∀ y, t.shape.contains y = true → x y = x' y) :
    t.TileHolds n tile held x' := by
  obtain ⟨start, block, hstart, hheld, hblock⟩ := h
  exact ⟨start, block, hstart, hheld, hblock.congr fun y hy => hx _ (ht.contains hn hstart hy)⟩

theorem Holds.congr (h : t.Holds shows x) (ht : t.LaidOut tiles)
    (hx : ∀ y, t.shape.contains y = true → x y = x' y) : t.Holds shows x' :=
  fun n tile hn => (h n tile hn).congr ht hn hx

/-- What a tensor holds depends on what the owners of its tiles show of them. -/
theorem Holds.of_eq {shows' : Rank → Store α} (h : t.Holds shows x)
    (hs : ∀ tile ∈ t.tiles, shows' tile.owner tile.handle = shows tile.owner tile.handle) :
    t.Holds shows' x := by
  intro n tile hn
  rw [hs tile (List.mem_of_getElem? hn)]
  exact h n tile hn

/-- Whatever the tiles of a tensor hold, together it is an array. -/
theorem exists_holds [Scalar α] (ht : t.LaidOut tiles) (h : ∀ tile ∈ t.tiles, ∃ block,
    shows tile.owner tile.handle = some block ∧ block.length = tile.layout.count) :
    ∃ x, t.Holds shows x := by
  choose! block hblock hlen using h
  -- an element is found in the tile that is its home
  refine ⟨fun g =>
    let n := t.tiling.grid.shape.position (t.tiling.home g)
    let start := (t.tiling.tileStartAt n).toOption.getD []
    ((block (t.tileAt n))[(t.tileAt n).layout.shape.position (g.minus start)]?).getD Scalar.zero,
    fun n tile hn => ?_⟩
  have hmem := List.mem_of_getElem? hn
  obtain ⟨start, hstart⟩ := Tiling.exists_tileStartAt (ht.count ▸ lt_of_getElem?_eq_some hn)
  refine ⟨start, block tile, hstart, hblock tile hmem, ?_⟩
  refine Layout.holds_iff.mpr ⟨hlen tile hmem, fun y hy => ?_⟩
  obtain ⟨hin, hholds⟩ := Tiling.tile_eq_of_number hstart (ht.layout n tile hn)
  have hy' : y.length = start.length := (Shape.length_of_contains hy).trans hin.length.1.symm
  have hhome := ((hholds _).mp ((Region.holds_plus_iff_contains hy').mpr hy)).2
  have hlt : tile.layout.shape.position y < (block tile).length := by
    rw [hlen tile hmem]
    exact Layout.position_lt_count hy
  simp only [hhome, tileAt_eq hn, hstart, Except.toOption, Option.getD_some,
    Index.plus_minus hy', List.getElem?_eq_getElem hlt]

end Tensor

/-! ## Tensors that are replaced -/

variable {α : Type} [Scalar α] {w₀ : World α} {tiles : List Tensor.Blueprint} {stage : Stage α}
  {src dst t : Tensor} {srcAt dstAt : Index} {x y z : Index → α}

/-- One tensor holds an array afterwards, and nothing else has changed. -/
structure Stage.Replaces (w₀ : World α) (tiles : List Tensor.Blueprint) (s s' : Stage α)
    (t : Tensor) (z : Index → α) : Prop where
  agrees : s'.Agrees w₀ tiles none
  kept : ∀ j ∉ t.tiles.map (·.handle), s'.value tiles j = s.value tiles j
  holds : t.Holds (fun _ => s'.value tiles) z

/-- Moves that replace one tile of a tensor after the other replace the tensor. -/
theorem Stage.replaces_of_tiles (ht : t.LaidOut tiles) (moves : Tile × Nat → List (Move α))
    (hstep : ∀ (n : Nat) d, t.tiles[n]? = some d → ∀ s : Stage α, s.Agrees w₀ tiles none →
      (∀ j, j ∉ t.tiles.map (·.handle) ∨ j = d.handle → s.value tiles j = stage.value tiles j) →
      (s.performAll (moves (d, n))).Agrees w₀ tiles none ∧
        (∀ j ≠ d.handle, (s.performAll (moves (d, n))).value tiles j = s.value tiles j) ∧
        t.TileHolds n d ((s.performAll (moves (d, n))).value tiles d.handle) z)
    (hst : stage.Agrees w₀ tiles none) :
    Stage.Replaces w₀ tiles stage (stage.performAll (t.tiles.zipIdx.flatMap moves)) t z := by
  have htarget : t.tiles.zipIdx.map (fun p => p.1.handle) = t.tiles.map (·.handle) := by
    rw [show (fun p : Tile × Nat => p.1.handle) = Tile.handle ∘ Prod.fst from rfl, ← List.map_map,
      List.zipIdx_map_fst]
  obtain ⟨hagrees, hkept, hpost⟩ := performAll_flatMap (v := stage.value tiles) t.tiles.zipIdx moves
    (fun p => p.1.handle) (fun p u => t.TileHolds p.2 p.1 u z)
    (fun p hp => htarget ▸ List.mem_map_of_mem hp) (htarget ▸ ht.nodup)
    (fun p hp => hstep p.2 p.1 (List.mem_zipIdx_iff_getElem?.mp hp)) hst fun _ _ => rfl
  rw [htarget] at hkept
  exact ⟨hagrees, hkept, fun n d hd => hpost (d, n) (List.mem_zipIdx_iff_getElem?.mpr hd)⟩

/-! ## Whole tiles -/

theorem Layout.eq_of_shape {l l' : Layout} (h : l.shape = l'.shape) : l = l' := by
  obtain ⟨shape, stride, count, hl⟩ := l
  obtain ⟨shape', stride', count', hl'⟩ := l'
  obtain rfl : shape = shape' := h
  obtain ⟨rfl, rfl⟩ := Prod.mk.inj (Except.ok.inj (hl.symm.trans hl'))
  rfl

/-- A tiling is known by the two shapes that it is made from. -/
theorem Tiling.eq_of_shapes {t t' : Tiling} (h : t.whole.shape = t'.whole.shape)
    (hb : t.basetile = t'.basetile) : t = t' := by
  have hgrid : t.grid = t'.grid := by
    refine Layout.eq_of_shape ?_
    rw [t.cut, t'.cut, h, hb]
  have hwhole := Layout.eq_of_shape h
  cases t
  cases t'
  dsimp only at hgrid hwhole hb
  subst hgrid hwhole hb
  rfl

namespace Tensor

/-- Tensors with the same tiling have a tile for each tile of the other. -/
theorem zip_tiles (h : src.tiles.length = dst.tiles.length) :
    src.tiles.zip dst.tiles = dst.tiles.zipIdx.map fun p => (src.tileAt p.2, p.1) := by
  refine List.ext_getElem (by simp [h]) fun n hn hn' => ?_
  have hs : n < src.tiles.length := by
    rw [List.length_zip] at hn
    exact Nat.lt_of_lt_of_le hn (Nat.min_le_left _ _)
  simp [tileAt_eq (List.getElem?_eq_getElem hs)]

/-- A copy between tensors with one tiling, tile by tile. -/
theorem replaces_of_copyTiles (hw : w₀.Alike tiles) (hsrc : src.LaidOut tiles)
    (hdst : dst.LaidOut tiles) (hapart : src.Apart dst) (htiling : src.tiling = dst.tiling)
    (hst : stage.Agrees w₀ tiles none) (hx : src.Holds (fun _ => stage.value tiles) x)
    (hy : dst.Holds (fun _ => stage.value tiles) y) :
    Stage.Replaces w₀ tiles stage (stage.performAll
      ((src.tiles.zip dst.tiles).flatMap fun p => copyTileMoves p.1 p.2)) dst x := by
  have hcount : src.tiles.length = dst.tiles.length := by rw [hsrc.count, hdst.count, htiling]
  rw [zip_tiles hcount, List.flatMap_map]
  refine Stage.replaces_of_tiles hdst _ (fun n d hd s hs hv => ?_) hst
  have hget : src.tiles[n]? = some (src.tileAt n) :=
    getElem?_tileAt (hcount ▸ lt_of_getElem?_eq_some hd)
  have hmem := List.mem_of_getElem? hget
  have hmem' := List.mem_of_getElem? hd
  obtain ⟨start, xs, hstart, hxs, hholds⟩ := hx n _ hget
  obtain ⟨start', ys, -, hys, hholds'⟩ := hy n d hd
  have hlayout : (src.tileAt n).layout = d.layout := by
    have h := hsrc.layout n _ hget
    rw [htiling, hdst.layout n d hd] at h
    exact (Except.ok.inj h).symm
  obtain ⟨hagrees, hvalue⟩ := hs.copyTile hw (hsrc.known _ hmem) (hdst.known d hmem')
    (hapart _ hmem d hmem') ((hv _ (Or.inl (hapart.notMem hmem))).trans hxs)
    ((hv _ (Or.inr rfl)).trans hys) (by rw [hholds.1, hholds'.1, hlayout])
  refine ⟨hagrees, fun j hj => ?_, start, xs, htiling ▸ hstart, ?_, hlayout ▸ hholds⟩
  · rw [hvalue, Store.set_of_ne _ _ hj]
  · rw [hvalue, Store.set_self]

/-- A clear, tile by tile. -/
theorem replaces_of_clear (hw : w₀.Alike tiles) (ht : t.LaidOut tiles)
    (hst : stage.Agrees w₀ tiles none) (hy : t.Holds (fun _ => stage.value tiles) y) :
    Stage.Replaces w₀ tiles stage (stage.performAll (t.tiles.flatMap clearMoves)) t
      fun _ => Scalar.zero := by
  have htiles : t.tiles.flatMap (clearMoves (α := α)) =
      t.tiles.zipIdx.flatMap fun p => clearMoves p.1 := by
    rw [← List.flatMap_map Prod.fst, List.zipIdx_map_fst]
  rw [htiles]
  refine Stage.replaces_of_tiles ht _ (fun n d hd s hs hv => ?_) hst
  obtain ⟨start, ys, hstart, hys, hholds⟩ := hy n d hd
  obtain ⟨hagrees, hvalue⟩ := hs.clear hw (ht.known d (List.mem_of_getElem? hd))
    ((hv _ (Or.inr rfl)).trans hys)
  refine ⟨hagrees, fun j hj => ?_, start, ys.map fun _ => Scalar.zero, hstart, ?_, ?_⟩
  · rw [hvalue, Store.set_of_ne _ _ hj]
  · rw [hvalue, Store.set_self]
  · refine ⟨by rw [List.length_map, hholds.1], fun i hi => ?_⟩
    obtain ⟨k, hk, hblock⟩ := hholds.2 i hi
    exact ⟨k, hk, by rw [List.getElem?_map, hblock]; rfl⟩

end Tensor

/-! ## Overlaps -/

namespace Tensor

variable {o : Overlap} {n : Nat} {d : Tile} {start : Index} {visited : List Index}
  {copies : List TileCopy}

/-- What the copies onto a destination tile and its flush leave in it. -/
theorem tileHolds_of_plans (hw : w₀.Alike tiles) (hsrc : src.LaidOut tiles) (hsize : src.Sized α)
    (hdst : dst.LaidOut tiles) (hsize' : dst.Sized α) (hapart : src.Apart dst)
    (hd : dst.tiles[n]? = some d) (hstart : dst.tiling.tileStartAt n = .ok start)
    (hplans : src.tiling.Plans srcAt (dstAt.plus start) d.layout.shape visited copies)
    (hlen : srcAt.length = src.shape.length) (hst : stage.Agrees w₀ tiles none)
    (hx : src.Holds (fun _ => stage.value tiles) x)
    (hy : dst.TileHolds n d (stage.value tiles d.handle) y) :
    let stage' := stage.performAll
      (copies.flatMap (copyMoves src d) ++ [.line (.flush d.handle)])
    stage'.Agrees w₀ tiles none ∧
      (∀ j ≠ d.handle, stage'.value tiles j = stage.value tiles j) ∧
      dst.TileHolds n d (stage'.value tiles d.handle) (copyBox src.shape srcAt x dstAt y) := by
  have hmem := List.mem_of_getElem? hd
  obtain ⟨c, hc, -⟩ := hdst.known d hmem
  obtain ⟨start', ys, hstart', hys, hholds⟩ := hy
  obtain rfl := Except.ok.inj (hstart.symm.trans hstart')
  rw [Layout.holds_iff] at hholds
  -- the source, seen in the coordinates that both tensors are placed in
  have hX : src.Holds (fun _ => stage.value tiles) fun i => x ((srcAt.plus i).minus srcAt) :=
    hx.congr hsrc fun i hi => by
      rw [Index.plus_minus ((Shape.length_of_contains hi).trans hlen.symm)]
  obtain ⟨new, writing, hagrees, hwriting, hvalue, hnew⟩ :=
    hst.copyOverlaps (X := fun g => x (g.minus srcAt)) hw hsrc hsize (hdst.known d hmem)
      (hsize'.bytes d hmem) (hsize'.room d hmem) (fun s hs => hapart s hs d hmem) hX
      (fun c hc => provides_of_plans hsrc.toFormed hplans hc) (fun j h => absurd h (by simp))
      (fun _ _ => rfl) hys hholds.1
  obtain ⟨hflush, hsame⟩ := hagrees.flush hw hwriting hc
  dsimp only
  rw [Stage.performAll_append]
  refine ⟨hflush, fun j hj => ?_, start, new, hstart, ?_, ?_⟩
  · refine (congrFun hsame j).trans ?_
    rw [hvalue, Store.set_of_ne _ _ hj]
  · refine (congrFun hsame d.handle).trans ?_
    rw [hvalue, Store.set_self]
  · refine Layout.holds_iff.mpr ⟨hnew.length, fun i hi => ?_⟩
    have hunion : (∃ c ∈ copies, Region.Holds c.plan.dstStart c.plan.shape i) ↔
        d.layout.shape.contains i = true ∧
          dstAt.plus (start.plus i) ∈ (⟨srcAt, src.shape⟩ : Region) := by
      rw [← Region.plus_assoc]
      exact hplans.union i
    unfold copyBox
    by_cases hcopied : ∃ c ∈ copies, Region.Holds c.plan.dstStart c.plan.shape i
    · rw [hnew.inside i hcopied, if_pos (hunion.mp hcopied).2, Region.plus_assoc]
    · rw [hnew.outside i hi hcopied, hholds.2 i hi, if_neg fun hin => hcopied (hunion.mpr ⟨hi, hin⟩)]

/-- The moves of the copies onto one destination tile. -/
theorem exists_tileMoves (hw : w₀.Alike tiles) (hsrc : src.LaidOut tiles) (hsize : src.Sized α)
    (hdst : dst.LaidOut tiles) (hsize' : dst.Sized α) (hapart : src.Apart dst)
    (ho : Overlap.between srcAt src.shape dstAt dst.shape = .ok (some o))
    (hd : dst.tiles[n]? = some d) : ∃ moves : List (Move α),
      Follows tiles (fun r => tileScript r src srcAt dst.tiling dstAt n d) moves ∧
      ∀ (s : Stage α) x y, s.Agrees w₀ tiles none → src.Holds (fun _ => s.value tiles) x →
        dst.TileHolds n d (s.value tiles d.handle) y →
        (s.performAll moves).Agrees w₀ tiles none ∧
          (∀ j ≠ d.handle, (s.performAll moves).value tiles j = s.value tiles j) ∧
          dst.TileHolds n d ((s.performAll moves).value tiles d.handle)
            (copyBox src.shape srcAt x dstAt y) := by
  have hn : n < dst.tiling.grid.count := hdst.count ▸ lt_of_getElem?_eq_some hd
  obtain ⟨start, layout, hstart, hadd, hlayout, h0, hsrcAt, hplace, hlen⟩ :=
    Tiling.exists_tile_of_between ho hn
  obtain rfl : layout = d.layout := Except.ok.inj (hlayout.symm.trans (hdst.layout n d hd))
  rcases Tiling.copiesOnto_eq h0 hsrcAt hplace hlen with
    ⟨hnone, hempty⟩ | ⟨-, -, -, visited, copies, -, -, -, hcopies, hplans⟩
  · refine ⟨[], ⟨fun r => ?_, by simp⟩, fun s x y hs hx hy => ⟨hs, fun _ _ => rfl, ?_⟩⟩
    · rw [tileScript, Script.bind_of_ok hstart, Script.bind_of_ok hadd, Script.bind_of_ok hnone]
      rfl
    · obtain ⟨start', block, hstart', hblock, hholds⟩ := hy
      obtain rfl := Except.ok.inj (hstart.symm.trans hstart')
      refine ⟨start, block, hstart, hblock, hholds.congr fun i hi => (if_neg fun hin => ?_).symm⟩
      refine hempty (dstAt.plus (start.plus i)) ⟨hin, ?_⟩
      rw [← Region.plus_assoc]
      exact (Region.holds_plus_iff_contains
        ((Shape.length_of_contains hi).trans hplace.length.symm)).mpr hi
  · have hflush : Follows (α := α) tiles (fun _ => ⟨[.flush d.handle], none⟩)
        [.line (.flush d.handle)] :=
      ⟨fun _ => rfl, by simpa [Move.line?, Line.tile] using
        (hdst.known d (List.mem_of_getElem? hd)).lt⟩
    have hfollows := Follows.flatMap (fun c hc =>
      follows_copyCalls (d := d) hsrc (provides_of_plans hsrc.toFormed hplans hc).lt) hflush
    refine ⟨_, ⟨fun r => ?_, hfollows.known⟩, fun s x y hs hx hy =>
      tileHolds_of_plans hw hsrc hsize hdst hsize' hapart hd hstart hplans hsrcAt.length hs hx hy⟩
    rw [tileScript, Script.bind_of_ok hstart, Script.bind_of_ok hadd, Script.bind_of_ok hcopies]
    exact hfollows.script r

/-- A copy between overlapping tensors, one destination tile after the other. -/
theorem exists_tilesMoves (hw : w₀.Alike tiles) (hsrc : src.LaidOut tiles) (hsize : src.Sized α)
    (hdst : dst.LaidOut tiles) (hsize' : dst.Sized α) (hapart : src.Apart dst)
    (ho : Overlap.between srcAt src.shape dstAt dst.shape = .ok (some o)) :
    ∃ moves : List (Move α), Follows tiles (fun r => tilesScript r src srcAt dst dstAt) moves ∧
      ∀ (s : Stage α) x y, s.Agrees w₀ tiles none → src.Holds (fun _ => s.value tiles) x →
        dst.Holds (fun _ => s.value tiles) y →
        Stage.Replaces w₀ tiles s (s.performAll moves) dst (copyBox src.shape srcAt x dstAt y) := by
  have htile : ∀ p ∈ dst.tiles.zipIdx, ∃ moves : List (Move α), _ := fun p hp =>
    exists_tileMoves hw hsrc hsize hdst hsize' hapart ho (List.mem_zipIdx_iff_getElem?.mp hp)
  choose! moves hfollows heffect using htile
  have hall := Follows.flatMap hfollows .nil
  rw [List.append_nil] at hall
  refine ⟨_, hall, fun stage x y hst hx hy => ?_⟩
  refine Stage.replaces_of_tiles hdst moves (fun n d hd s hs hv => ?_) hst
  refine heffect (d, n) (List.mem_zipIdx_iff_getElem?.mpr hd) s x y hs ?_ ?_
  · exact hx.of_eq fun tile htile => hv _ (Or.inl (hapart.notMem htile))
  · dsimp only
    rw [hv _ (Or.inr rfl)]
    exact hy n d hd

end Tensor

end TiledTensor
