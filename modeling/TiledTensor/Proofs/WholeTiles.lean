import TiledTensor.Proofs.TileCopies

/-!
# What overlaps make of whole tiles

Two tensors with one tiling, both placed at the origin, overlap tile by tile: a tile of the one
shares all of itself with the tile of the other that has its number, and nothing with any other
tile.  So the copy of what the tensors share has the calls of the copy of their tiles, pair by pair,
and only the operation is another one (`Tensor.copyIntersection_eq_pairwise`).
-/

namespace TiledTensor

open Region (Holds Bounded Inside)

variable {α : Type} [Scalar α]

/-! ## Boxes at the origin -/

namespace Region

variable {a b i : Index} {s t : Shape} {k : Nat}

theorem plus_origin (h : a.length = k) : a.plus (List.replicate k 0) = a := by
  subst h
  induction a with
  | nil => rfl
  | cons x a ih =>
    rw [List.length_cons, List.replicate_succ, plus_cons, ih]
    rfl

theorem origin_plus (h : i.length = k) : Index.plus (List.replicate k 0) i = i := by
  subst h
  induction i with
  | nil => rfl
  | cons x i ih =>
    rw [List.length_cons, List.replicate_succ, plus_cons, ih, Nat.zero_add]

theorem inside_origin (s : Shape) : Inside (List.replicate s.length 0) s s := by
  induction s with
  | nil => trivial
  | cons d s ih => exact ⟨Nat.le_of_eq (Nat.zero_add d), ih⟩

/-- The extents of a tensor with elements are words. -/
theorem bounded_origin (l : Layout) (h0 : 0 ∉ l.shape) :
    Bounded (List.replicate l.shape.length 0) l.shape :=
  (inside_origin l.shape).bounded (l.extent_lt h0)

/-- A box without an extent of zero is known by its coordinates. -/
theorem eq_of_holds (ha : a.length = s.length) (hb : b.length = t.length) (hs : 0 ∉ s) (ht : 0 ∉ t)
    (h : ∀ i, Holds a s i ↔ Holds b t i) : a = b ∧ s = t := by
  induction a generalizing s b t with
  | nil =>
    obtain rfl : s = [] := List.length_eq_zero_iff.mp ha.symm
    obtain ⟨hlen, hlen'⟩ := ((h []).mp trivial).length
    obtain rfl : t = [] := List.length_eq_zero_iff.mp hlen'.symm
    exact ⟨(List.length_eq_zero_iff.mp hlen).symm, rfl⟩
  | cons x a ih =>
    cases s with
    | nil => cases ha
    | cons d s =>
      cases b with
      | nil =>
        have hstart := (h (x :: a)).mp (holds_start ha hs)
        cases t <;> exact absurd hstart id
      | cons y b =>
        cases t with
        | nil => cases hb
        | cons e t =>
          rw [List.mem_cons, not_or] at hs ht
          have ha' : a.length = s.length := by simpa using ha
          have hb' : b.length = t.length := by simpa using hb
          have hfirst := (h (x :: a)).mp ⟨by omega, holds_start ha' hs.2⟩
          have hlast := (h ((x + d - 1) :: a)).mp ⟨by omega, holds_start ha' hs.2⟩
          have hfirst' := (h (y :: b)).mpr ⟨by omega, holds_start hb' ht.2⟩
          have hlast' := (h ((y + e - 1) :: b)).mpr ⟨by omega, holds_start hb' ht.2⟩
          obtain ⟨rfl, rfl⟩ : x = y ∧ d = e := by
            have := hfirst.1
            have := hlast.1
            have := hfirst'.1
            have := hlast'.1
            omega
          obtain ⟨rfl, rfl⟩ := ih ha' hb' hs.2 ht.2 fun i =>
            ⟨fun hi => ((h (x :: i)).mp ⟨by omega, hi⟩).2, fun hi => ((h (x :: i)).mpr ⟨by omega, hi⟩).2⟩
          exact ⟨rfl, rfl⟩

end Region

namespace Overlap

variable {a b : Index} {s t : Shape} {o o' : Overlap}

/-- There is one overlap of two boxes. -/
theorem Exact.unique (h : o.Exact a s b t) (h' : o'.Exact a s b t) (ha : a.length = s.length)
    (hb : b.length = t.length) : o' = o := by
  have hstart : ∀ {p : Overlap}, p.Exact a s b t → p.dstStart.length = b.length ∧
      p.srcStart.length = a.length ∧ (b.plus p.dstStart).length = p.shape.length := by
    intro p hp
    obtain ⟨hsrc, hs⟩ := hp.inside.1.length
    obtain ⟨hdst, hd⟩ := hp.inside.2.length
    refine ⟨by omega, by omega, ?_⟩
    rw [Region.length_plus]
    omega
  obtain ⟨hd, hs, hbox⟩ := hstart h
  obtain ⟨hd', hs', hbox'⟩ := hstart h'
  obtain ⟨hplace, hshape⟩ := Region.eq_of_holds hbox' hbox h'.positive h.positive fun i =>
    (h'.common i).trans (h.common i).symm
  have hdst : o'.dstStart = o.dstStart := Region.plus_left_cancel hd' hd hplace
  have hsrc : o'.srcStart = o.srcStart := by
    refine Region.plus_left_cancel hs' hs ?_
    rw [h'.same, h.same, hdst]
  have hcovers : o'.covers = o.covers := by
    rw [Bool.eq_iff_iff]
    exact h'.covers.trans h.covers.symm
  cases o
  cases o'
  dsimp only at hsrc hdst hshape hcovers
  subst hsrc hdst hshape hcovers
  rfl

/-- All of a box. -/
def whole (s : Shape) : Overlap := ⟨List.replicate s.length 0, List.replicate s.length 0, s, true⟩

/-- A box overlaps itself in all that it is. -/
theorem exact_whole (h0 : 0 ∉ s) (ha : a.length = s.length) : (whole s).Exact a s a s where
  inside := ⟨Region.inside_origin s, Region.inside_origin s⟩
  same := rfl
  common i := by
    rw [whole, Region.plus_origin ha]
    exact and_self_iff.symm
  positive := h0
  covers := iff_of_true rfl fun _ hi => hi

/-- Boxes that lie at the origin and have no elements do not overlap, whatever their other
extents. -/
theorem axes_of_zero {acc : Nat} {r : List Nat × Nat} (hacc : 0 < acc)
    (hs : s.stridesFrom acc = .ok r) (h0 : 0 ∈ s) :
    axes (List.replicate s.length 0) s (List.replicate s.length 0) s = .ok none := by
  induction s generalizing acc r with
  | nil => cases h0
  | cons d s ih =>
    obtain ⟨rest, -, hlt, hrest⟩ := Shape.stridesFrom_cons_eq_ok hs
    have hd : 0 + d < Word.limit := by
      have := Nat.le_mul_of_pos_left d hacc
      omega
    rw [List.length_cons, List.replicate_succ, axes]
    rcases axis_eq hd hd with ⟨haxis, -⟩ | ⟨p, q, n, haxis, -, hn, -, hq, -⟩
    · rw [Except.bind_of_ok haxis]
      rfl
    · have hpos : 0 < d := by omega
      have hmem : 0 ∈ s := (List.mem_cons.mp h0).resolve_left (Nat.ne_of_lt hpos)
      rw [Except.bind_of_ok haxis]
      dsimp only
      rw [Except.bind_of_ok (ih (Nat.mul_pos hacc hpos) hrest hmem)]
      rfl

/-- A layout without elements shares nothing with itself. -/
theorem between_of_zero (l : Layout) (h0 : 0 ∈ l.shape) :
    between (List.replicate l.shape.length 0) l.shape (List.replicate l.shape.length 0) l.shape =
      .ok none := by
  have hlen : (List.replicate l.shape.length 0).length = l.shape.length := List.length_replicate
  rw [between, if_pos ⟨hlen, rfl, hlen⟩, Except.bind_of_ok (axes_of_zero Nat.one_pos l.built h0)]
  rfl

theorem exists_between (l : Layout) (h0 : 0 ∉ l.shape) :
    ∃ o, between (List.replicate l.shape.length 0) l.shape (List.replicate l.shape.length 0) l.shape =
      .ok (some o) := by
  have hbounded := Region.bounded_origin l h0
  rcases between_eq hbounded hbounded rfl with ⟨-, hempty⟩ | ⟨o, hsome, -⟩
  · have hstart := Region.holds_start hbounded.length h0
    exact absurd ⟨hstart, hstart⟩ (hempty _)
  · exact ⟨o, hsome⟩

end Overlap

/-! ## The plan of a tile -/

namespace Tiling

variable {t : Tiling} {n : Nat} {start : Index} {l : Layout}

section

variable (hstart : t.tileStartAt n = .ok start) (hl : t.tileLayout n = .ok l)
include hstart hl

theorem positive_of_number : 0 ∉ l.shape := by
  obtain ⟨-, he, hn⟩ := tile_of_number hstart hl
  obtain ⟨-, extent, -, he', -, hpositive, -⟩ :=
    t.tile_eq (zero_notMem hn) (Shape.contains_digitsOf (t.grid.count_eq.1 ▸ hn))
  obtain rfl := Except.ok.inj (he.symm.trans he')
  exact hpositive

theorem origin_plus_start : Index.plus (List.replicate t.whole.shape.length 0) start = start := by
  obtain ⟨hstarts, hshapes⟩ := (tile_eq_of_number hstart hl).1.length
  exact Region.origin_plus (hstarts.trans hshapes.symm)

/-- A coordinate of a tile is one of its tensor, at the origin. -/
theorem holds_origin {y : Index} (hy : Holds start l.shape y) :
    Holds (List.replicate t.whole.shape.length 0) t.whole.shape y := by
  obtain ⟨hcontains, -⟩ := ((tile_eq_of_number hstart hl).2 y).mp hy
  have hlen := Shape.length_of_contains hcontains
  rw [← Region.origin_plus hlen]
  exact (Region.holds_plus_iff_contains (hlen.trans List.length_replicate.symm)).mpr hcontains

/-- A tile shares coordinates with no other one. -/
theorem visited_eq {visited : List Index} {copies : List TileCopy}
    (hplans : t.Plans (List.replicate t.whole.shape.length 0) start l.shape visited copies) :
    visited = [t.grid.shape.digitsOf n] := by
  obtain ⟨hs, he, hn⟩ := tile_of_number hstart hl
  obtain ⟨hin, hholds⟩ := tile_eq_of_number hstart hl
  have h0 := zero_notMem hn
  refine List.perm_singleton.mp ((List.perm_ext_iff_of_nodup hplans.nodup
    (List.nodup_singleton _)).mpr fun i => ?_)
  rw [hplans.visits, List.mem_singleton]
  constructor
  · rintro ⟨hi, start', extent, hstart', hextent, x, hx, hxn⟩
    -- a common coordinate has its home in both tiles
    obtain ⟨s', e', hs', he', hin', -, hholds'⟩ := t.tile_eq h0 hi
    obtain rfl := Except.ok.inj (hstart'.symm.trans hs')
    obtain rfl := Except.ok.inj (hextent.symm.trans he')
    rw [Region.mem_mk, Region.origin_plus (hin'.length.1.trans hin'.length.2.symm)] at hx
    obtain ⟨-, hhome⟩ := (hholds' x).mp hx
    obtain ⟨hcontains, hnumber⟩ := (hholds x).mp hxn
    rw [← hnumber, Shape.digitsOf_position (t.contains_home_of_contains h0 hcontains), hhome]
  · rintro rfl
    have hfirst : Holds start l.shape start :=
      Region.holds_start hin.length.1 (positive_of_number hstart hl)
    refine ⟨Shape.contains_digitsOf (t.grid.count_eq.1 ▸ hn), start, l.shape, hs, he, start, ?_, hfirst⟩
    rwa [origin_plus_start hstart hl]

/-- What is shared with the tile that has the same number and place is all of it. -/
theorem copies_eq {copies : List TileCopy}
    (hplans : t.Plans (List.replicate t.whole.shape.length 0) start l.shape
      [t.grid.shape.digitsOf n] copies) : copies = [⟨n, .whole l.shape, .write⟩] := by
  obtain ⟨hs, he, hn⟩ := tile_of_number hstart hl
  obtain ⟨hlen, -⟩ := (tile_eq_of_number hstart hl).1.length
  have hprod : n < t.grid.shape.prod := t.grid.count_eq.1 ▸ hn
  cases hplans.each with
  | @cons _ c _ rest hc hrest =>
    cases hrest
    obtain ⟨hlinear, start', extent, hstart', hextent, hexact⟩ := hc
    obtain rfl := Except.ok.inj (hs.symm.trans hstart')
    obtain rfl := Except.ok.inj (he.symm.trans hextent)
    rw [origin_plus_start hstart hl] at hexact
    have hsource : n = c.source := by
      rw [Layout.toLinear_eq (Shape.contains_digitsOf hprod), Shape.position_digitsOf hprod] at hlinear
      exact Except.ok.inj hlinear
    have hplan : c.plan = .whole l.shape :=
      (Overlap.exact_whole (positive_of_number hstart hl) hlen).unique hexact hlen hlen
    have hfill : ∀ y, l.shape.contains y = true → ∃ c' ∈ [c],
        y ∈ (⟨c'.plan.dstStart, c'.plan.shape⟩ : Region) := by
      intro y hy
      have hin : Holds start l.shape (start.plus y) :=
        (Region.holds_plus_iff_contains ((Shape.length_of_contains hy).trans hlen.symm)).mpr hy
      exact (hplans.union y).mpr ⟨hy, holds_origin hstart hl hin⟩
    have haccess : c.access = .write := by
      rcases hplans.access 0 c rfl with ⟨hwrite, -⟩ | ⟨-, hnot⟩
      · exact hwrite
      · exact absurd ⟨rfl, hfill⟩ hnot
    rw [hsource, ← hplan, ← haccess]

/-- Onto a tile of a tensor that has the same tiling, and is at the same place, goes all of the tile
with its number. -/
theorem copiesOnto_whole : t.copiesOnto (List.replicate t.whole.shape.length 0) start l.shape =
    .ok (some ⟨[⟨n, .whole l.shape, .write⟩], none⟩) := by
  obtain ⟨hin, -⟩ := tile_eq_of_number hstart hl
  obtain ⟨-, -, hn⟩ := tile_of_number hstart hl
  have h0 := zero_notMem hn
  have hbounded := Region.bounded_origin t.whole h0
  have hplace := origin_plus_start hstart hl
  obtain ⟨-, hbox⟩ := hin.addEach hbounded
  rw [hplace] at hbox
  have hfirst : Holds start l.shape start :=
    Region.holds_start hin.length.1 (positive_of_number hstart hl)
  rcases copiesOnto_eq h0 hbounded hbox hin.length.2 with
    ⟨-, hempty⟩ | ⟨-, -, -, visited, copies, -, -, -, hcopies, hplans⟩
  · exact absurd ⟨holds_origin hstart hl hfirst, hfirst⟩ (hempty start)
  · obtain rfl := visited_eq hstart hl hplans
    rw [hcopies, copies_eq hstart hl hplans]

end

end Tiling

/-! ## Scripts -/

omit [Scalar α] in
/-- Scripts that come to their end make one script that does. -/
theorem Script.foldr_eq {β : Type} {items : List β} {script : β → Script α} {calls : β → List (Call α)}
    (h : ∀ x ∈ items, script x = ⟨calls x, none⟩) :
    items.foldr (fun x rest => script x ++ rest) {} = ⟨items.flatMap calls, none⟩ := by
  induction items with
  | nil => rfl
  | cons x items ih =>
    rw [List.forall_mem_cons] at h
    rw [List.foldr_cons, ih h.2, h.1, List.flatMap_cons]
    rfl

/-- The copy of all of a tile through boxes.  Tiles without dimensions are not looked at as
boxes. -/
def Op.copyAll (s d : Tile) : Op α :=
  if d.layout.shape = [] then copy s d else copyOverlap s d (.whole d.layout.shape) .write

namespace Tensor

/-- Each tile of a tensor is fetched for the owner of the tile with its number in another one, who
submits an operation; then all forget what they had of the latter. -/
def pairwise (r : Rank) (src dst : Tensor) (op : Tile → Tile → Op α) : List (Call α) :=
  (src.tiles.zip dst.tiles).flatMap fun p =>
    .transfer p.1.handle p.2.owner :: onOwner r p.2 (op p.1 p.2) ++ [.flush p.2.handle]

variable {src dst : Tensor} {r : Rank} {n : Nat} {s d : Tile}

omit [Scalar α] in
theorem pairwise_congr {op op' : Tile → Tile → Op α}
    (hop : ∀ s d, (s, d) ∈ src.tiles.zip dst.tiles → op s d = op' s d) :
    pairwise r src dst op = pairwise r src dst op' := by
  refine List.flatMap_congr fun p hp => ?_
  rw [hop p.1 p.2 hp]

theorem copyTilesScript_eq {ss ds : List Tile} (h : ss.length = ds.length) :
    copyTilesScript (α := α) r ss ds = ⟨(ss.zip ds).flatMap fun p =>
      .transfer p.1.handle p.2.owner :: onOwner r p.2 (Op.copy p.1 p.2) ++ [.flush p.2.handle],
      none⟩ := by
  induction ss generalizing ds with
  | nil =>
    obtain rfl : ds = [] := List.length_eq_zero_iff.mp h.symm
    rfl
  | cons s ss ih =>
    cases ds with
    | nil => cases h
    | cons d ds =>
      rw [copyTilesScript, ih (by simpa using h), List.zip_cons_cons, List.flatMap_cons]
      rfl

/-- A tile has as many dimensions as its tensor. -/
theorem Formed.length_layout {t : Tensor} {tile : Tile} (h : t.Formed) (ht : tile ∈ t.tiles) :
    tile.layout.shape.length = t.ndim := by
  obtain ⟨n, hn⟩ := List.mem_iff_getElem?.mp ht
  obtain ⟨start, hstart⟩ := Tiling.exists_tileStartAt (h.count ▸ lt_of_getElem?_eq_some hn)
  exact (Tiling.tile_eq_of_number hstart (h.layout n tile hn)).1.length.2.symm

/-- Two tensors that are cut alike. -/
structure Matches (src dst : Tensor) : Prop where
  source : src.Formed
  target : dst.Formed
  tiling : src.tiling = dst.tiling

namespace Matches

variable (h : src.Matches dst)
include h

theorem length : src.tiles.length = dst.tiles.length := by
  rw [h.source.count, h.target.count, h.tiling]

theorem layout (hp : (s, d) ∈ src.tiles.zip dst.tiles) : s.layout = d.layout := by
  obtain ⟨n, hn⟩ := List.mem_iff_getElem?.mp hp
  obtain ⟨hs, hd⟩ := List.getElem?_zip_eq_some.mp hn
  have hl := h.source.layout n s hs
  rw [h.tiling, h.target.layout n d hd] at hl
  exact (Except.ok.inj hl).symm

/-- The calls for one tile. -/
theorem tileScript_eq (hs : src.tiles[n]? = some s) (hd : dst.tiles[n]? = some d) :
    tileScript (α := α) r src (List.replicate src.ndim 0) dst.tiling (List.replicate src.ndim 0) n d =
      ⟨.transfer s.handle d.owner :: onOwner r d (Op.copyOverlap s d (.whole d.layout.shape) .write) ++
        [.flush d.handle], none⟩ := by
  have hl := h.target.layout n d hd
  have hn : n < dst.tiling.grid.count := h.target.count ▸ lt_of_getElem?_eq_some hd
  obtain ⟨start, hstart⟩ := Tiling.exists_tileStartAt hn
  have hcopies := Tiling.copiesOnto_whole hstart hl
  obtain ⟨hin, -⟩ := Tiling.tile_eq_of_number hstart hl
  have hbounded := Region.bounded_origin dst.tiling.whole (Tiling.zero_notMem hn)
  have hplace : Word.addEach (List.replicate dst.tiling.whole.shape.length 0) start = .ok start := by
    rw [(hin.addEach hbounded).1, Region.origin_plus (hin.length.1.trans hin.length.2.symm)]
  have hndim : src.ndim = dst.tiling.whole.shape.length := by rw [ndim, shape, h.tiling]
  have htile : src.tile n = .ok s := by rw [tile, hs]
  rw [tileScript, hndim, h.tiling, Script.bind_of_ok hstart, Script.bind_of_ok hplace,
    Script.bind_of_ok hcopies]
  dsimp only [List.foldr_cons, List.foldr_nil]
  rw [copyCalls, Script.bind_of_ok htile]
  rfl

theorem copyTo_eq_pairwise : copyTo (α := α) r src dst = ⟨pairwise r src dst Op.copy, none⟩ := by
  have hshape : src.shape = dst.shape := by rw [shape, shape, h.tiling]
  have hndim : src.ndim = dst.ndim := by rw [ndim, ndim, hshape]
  rw [copyTo, if_neg (not_not_intro hndim), if_neg (not_not_intro hshape),
    if_pos (by rw [h.tiling]), copyTilesScript_eq h.length, pairwise]

/-- The copy of what the tensors share at the origin is the copy of their tiles, pair by pair. -/
theorem copyIntersection_eq_pairwise :
    copyIntersection (α := α) r src (List.replicate src.ndim 0) dst (List.replicate src.ndim 0) =
      ⟨pairwise r src dst Op.copyAll, none⟩ := by
  have hndim : src.ndim = dst.ndim := by rw [ndim, ndim, shape, shape, h.tiling]
  have hdims : ∀ {s d}, (s, d) ∈ src.tiles.zip dst.tiles → d.layout.shape.length = dst.ndim :=
    fun hp => h.target.length_layout (List.of_mem_zip hp).2
  have hmatch : mismatch src.ndim (List.replicate src.ndim 0) dst.ndim (List.replicate src.ndim 0) =
      none :=
    mismatch_eq_none_iff.mpr
      ⟨hndim, List.length_replicate.trans hndim, List.length_replicate.trans hndim⟩
  rw [copyIntersection, hmatch]
  dsimp only
  by_cases h0 : dst.ndim = 0
  · rw [if_pos h0, copyTilesScript_eq h.length]
    congr 1
    refine pairwise_congr fun s d hp => ?_
    exact (if_pos (List.length_eq_zero_iff.mp ((hdims hp).trans h0))).symm
  · rw [if_neg h0]
    have hboxes : pairwise r src dst (Op.copyAll (α := α)) =
        pairwise r src dst fun s d => Op.copyOverlap s d (.whole d.layout.shape) .write := by
      refine pairwise_congr fun s d hp => if_neg fun hnil => h0 ?_
      rw [← hdims hp, hnil, List.length_nil]
    have hshape : src.shape = dst.shape := by rw [shape, shape, h.tiling]
    rw [hboxes]
    by_cases hzero : 0 ∈ dst.tiling.whole.shape
    · have hnone : Overlap.between (List.replicate src.ndim 0) src.shape (List.replicate src.ndim 0)
          dst.shape = .ok none := by
        rw [ndim, hshape]
        exact Overlap.between_of_zero _ hzero
      rw [Script.bind_of_ok hnone, pairwise, h.target.tiles_of_zero hzero, List.zip_nil_right]
      rfl
    · obtain ⟨o, ho⟩ := Overlap.exists_between _ hzero
      have hsome : Overlap.between (List.replicate src.ndim 0) src.shape
          (List.replicate src.ndim 0) dst.shape = .ok (some o) := by
        rw [ndim, hshape]
        exact ho
      rw [Script.bind_of_ok hsome, tilesScript, pairwise, zip_tiles h.length, List.flatMap_map]
      refine Script.foldr_eq fun p hp => ?_
      have hd := List.mem_zipIdx_iff_getElem?.mp hp
      have hlt : p.2 < src.tiles.length := h.length ▸ lt_of_getElem?_eq_some hd
      exact h.tileScript_eq (getElem?_tileAt hlt) hd

end Matches

end Tensor

end TiledTensor
