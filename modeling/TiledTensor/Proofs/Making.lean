import TiledTensor.Proofs.Coherence
import TiledTensor.Proofs.Positions

/-!
# Making the same tensors

Ranks that make the same tensors in the same order, starting from the same tag, have the same tiles
with the same owners, and no two tiles share a tag.  So they begin alike (`World.alike_of_makes`),
and each tensor is laid out over tiles of its own (`World.Makes.laidOut`).
-/

namespace TiledTensor

variable {α : Type}

namespace Tensor

/-- The tiles of tensors that are made one after the other, and the first tag after them. -/
def designs (first : Tag) : List (Tiling × List Rank) → Except Fault (List Blueprint × Tag)
  | [] => .ok ([], first)
  | (tiling, owners) :: specs => do
    let (tiles, next) ← design tiling owners first
    let (rest, stop) ← designs next specs
    return (tiles ++ rest, stop)

/-- The tag some places later. -/
theorem val_of_offset {t u : Tag} {n : Nat} (h : t.offset n = .ok u) : u.val = t.val + n := by
  obtain ⟨m, hm, hu⟩ := bind_eq_ok h
  cases hu
  unfold Word.add at hm
  split at hm
  · cases hm
    rfl
  · cases hm

/-- The tiles of a tensor carry one tag after the other, and belong to its owners. -/
theorem tags_of_blueprintsFrom {tiling : Tiling} {first : Tag} {n : Nat} {owners : List Rank}
    {tiles : List Blueprint} (h : blueprintsFrom tiling first n owners = .ok tiles) :
    tiles.map (·.tag.val) = List.range' (first.val + n) owners.length ∧
      tiles.map (·.owner) = owners := by
  induction owners generalizing n tiles with
  | nil =>
    cases h
    exact ⟨rfl, rfl⟩
  | cons owner owners ih =>
    obtain ⟨layout, -, h⟩ := bind_eq_ok h
    obtain ⟨tag, htag, h⟩ := bind_eq_ok h
    obtain ⟨rest, hrest, h⟩ := bind_eq_ok h
    cases h
    obtain ⟨htags, howners⟩ := ih hrest
    rw [List.map_cons, List.map_cons, htags, howners, val_of_offset htag]
    exact ⟨rfl, rfl⟩

/-- Each tile has the layout that its number has in the tiling. -/
theorem layout_of_blueprintsFrom {tiling : Tiling} {first : Tag} {n : Nat} {owners : List Rank}
    {tiles : List Blueprint} (h : blueprintsFrom tiling first n owners = .ok tiles) {k : Nat}
    {b : Blueprint} (hb : tiles[k]? = some b) : tiling.tileLayout (n + k) = .ok b.layout := by
  induction owners generalizing n tiles k with
  | nil =>
    cases h
    cases hb
  | cons owner owners ih =>
    obtain ⟨layout, hlayout, h⟩ := bind_eq_ok h
    obtain ⟨tag, -, h⟩ := bind_eq_ok h
    obtain ⟨rest, hrest, h⟩ := bind_eq_ok h
    cases h
    cases k with
    | zero =>
      cases hb
      exact hlayout
    | succ k =>
      rw [← Nat.succ_add_eq_add_succ]
      exact ih hrest hb

/-- A design has a tile for each owner, laid out by its number. -/
theorem tiles_of_design {tiling : Tiling} {first next : Tag} {owners : List Rank}
    {tiles : List Blueprint} (h : design tiling owners first = .ok (tiles, next)) :
    tiles.length = owners.length ∧ tiles.map (·.owner) = owners ∧
      ∀ (k : Nat) b, tiles[k]? = some b → tiling.tileLayout k = .ok b.layout := by
  obtain ⟨tiles', htiles, h⟩ := bind_eq_ok h
  obtain ⟨next', -, h⟩ := bind_eq_ok h
  cases h
  have howners := (tags_of_blueprintsFrom htiles).2
  refine ⟨by rw [← List.length_map (·.owner), howners], howners, fun k b hb => ?_⟩
  rw [← Nat.zero_add k]
  exact layout_of_blueprintsFrom htiles hb

/-- The tiles of tensors that are made one after the other carry one tag after the other. -/
theorem tags_of_designs {first stop : Tag} {specs : List (Tiling × List Rank)}
    {tiles : List Blueprint} (h : designs first specs = .ok (tiles, stop)) :
    tiles.map (·.tag.val) = List.range' first.val tiles.length ∧
      stop.val = first.val + tiles.length := by
  induction specs generalizing first tiles with
  | nil =>
    cases h
    exact ⟨rfl, rfl⟩
  | cons spec specs ih =>
    obtain ⟨⟨tiles₁, next⟩, hdesign, h⟩ := bind_eq_ok h
    obtain ⟨⟨rest, stop'⟩, hrest, h⟩ := bind_eq_ok h
    cases h
    obtain ⟨tiles', htiles, hdesign⟩ := bind_eq_ok hdesign
    obtain ⟨next', hnext, hdesign⟩ := bind_eq_ok hdesign
    cases hdesign
    obtain ⟨htags, howners⟩ := tags_of_blueprintsFrom htiles
    have hlen : tiles₁.length = spec.2.length := by
      rw [← List.length_map (·.owner), howners]
    obtain ⟨htags', hstop⟩ := ih hrest
    rw [val_of_offset hnext, ← hlen] at htags' hstop
    rw [Nat.add_zero, ← hlen] at htags
    refine ⟨?_, ?_⟩
    · rw [List.map_append, htags, htags', List.length_append, List.range'_append_1]
    · rw [hstop, List.length_append, Nat.add_assoc]

/-! ## Tensors and their tiles -/

/-- The tiles that are made from some designs, with their buffers numbered from `h` on. -/
def layTiles (h : HandleId) (tiles : List Blueprint) : List Tile :=
  (tiles.zipIdx h).map fun p => ⟨p.1.layout, p.2, p.1.owner⟩

theorem map_handle_layTiles (h : HandleId) (tiles : List Blueprint) :
    (layTiles h tiles).map (·.handle) = List.range' h tiles.length := by
  rw [layTiles, List.map_map, ← List.zipIdx_map_snd]
  rfl

theorem getElem?_layTiles {h : HandleId} {tiles : List Blueprint} {k : Nat} {tile : Tile} :
    (layTiles h tiles)[k]? = some tile ↔
      ∃ b, tiles[k]? = some b ∧ tile = ⟨b.layout, h + k, b.owner⟩ := by
  rw [layTiles, List.getElem?_map, List.getElem?_zipIdx, Option.map_map, Option.map_eq_some_iff]
  exact exists_congr fun b => and_congr_right fun _ => eq_comm

end Tensor

/-- A tile is in a table of tiles. -/
def Tile.Known (tiles : List Tensor.Blueprint) (tile : Tile) : Prop :=
  ∃ b, tiles[tile.handle]? = some b ∧ b.owner = tile.owner

theorem Tile.Known.lt {tiles : List Tensor.Blueprint} {tile : Tile} (h : tile.Known tiles) :
    tile.handle < tiles.length := by
  obtain ⟨b, hb, -⟩ := h
  exact lt_of_getElem?_eq_some hb

namespace Tensor

/-- The tiles of a tensor are those of its tiling. -/
structure Formed (t : Tensor) : Prop where
  count : t.tiles.length = t.tiling.grid.count
  layout : ∀ (n : Nat) tile, t.tiles[n]? = some tile → t.tiling.tileLayout n = .ok tile.layout

/-- The tiles of a tensor are those of its tiling, and they are in the table of tiles. -/
structure LaidOut (tiles : List Blueprint) (t : Tensor) : Prop extends t.Formed where
  known : ∀ tile ∈ t.tiles, tile.Known tiles
  nodup : (t.tiles.map (·.handle)).Nodup

/-- Two tensors have no tile in common. -/
def Apart (t t' : Tensor) : Prop := ∀ tile ∈ t.tiles, ∀ tile' ∈ t'.tiles, tile.handle ≠ tile'.handle

theorem Apart.symm {t t' : Tensor} (h : t.Apart t') : t'.Apart t :=
  fun tile ht tile' ht' => (h tile' ht' tile ht).symm

theorem Apart.notMem {t t' : Tensor} (h : t.Apart t') {tile : Tile} (ht : tile ∈ t.tiles) :
    tile.handle ∉ t'.tiles.map (·.handle) := by
  intro hmem
  obtain ⟨tile', ht', heq⟩ := List.mem_map.mp hmem
  exact h tile ht tile' ht' heq.symm

/-- A design is a tensor of its tiling. -/
theorem formed_of_design {tiling : Tiling} {owners : List Rank} {first next : Tag}
    {tiles : List Blueprint} (h : design tiling owners first = .ok (tiles, next))
    (hcount : owners.length = tiling.grid.count) (b : HandleId) :
    Formed ⟨tiling, first, layTiles b tiles⟩ := by
  obtain ⟨hlen, -, hlayout⟩ := tiles_of_design h
  refine ⟨?_, fun n tile htile => ?_⟩
  · rw [← hcount, ← hlen, layTiles, List.length_map, List.length_zipIdx]
  · obtain ⟨b, hb, rfl⟩ := getElem?_layTiles.mp htile
    exact hlayout n b hb

/-- A tensor is laid out over the tiles that have been made for it. -/
theorem laidOut_of_design {tiling : Tiling} {owners : List Rank} {first next : Tag}
    {before tiles after : List Blueprint} (h : design tiling owners first = .ok (tiles, next))
    (hcount : owners.length = tiling.grid.count) :
    LaidOut (before ++ tiles ++ after) ⟨tiling, first, layTiles before.length tiles⟩ := by
  refine ⟨formed_of_design h hcount _, fun tile htile => ?_, ?_⟩
  · obtain ⟨k, hk⟩ := List.mem_iff_getElem?.mp htile
    obtain ⟨b, hb, rfl⟩ := getElem?_layTiles.mp hk
    refine ⟨b, ?_, rfl⟩
    rw [List.append_assoc, List.getElem?_append_right (Nat.le_add_right _ _),
      Nat.add_sub_cancel_left, List.getElem?_append_left (lt_of_getElem?_eq_some hb), hb]
  · dsimp only
    rw [map_handle_layTiles]
    exact List.nodup_range'

end Tensor

namespace Node

/-- Makes tensors one after the other. -/
def makeTensors (n : Node α) (first : Tag) :
    List (Tiling × List Rank) → Except Failure (Node α × List Tensor × Tag)
  | [] => .ok (n, [], first)
  | (tiling, owners) :: specs => do
    let (n, t, next) ← n.makeTensor tiling owners first
    let (n, tensors, stop) ← n.makeTensors next specs
    return (n, t :: tensors, stop)

theorem addTiles_eq (n : Node α) (tiles : List Tensor.Blueprint) : n.addTiles tiles =
    ({ n with handles := n.handles ++ tiles.map Tensor.Blueprint.handle },
      Tensor.layTiles n.handles.length tiles) := by
  induction tiles generalizing n with
  | nil =>
    rw [addTiles, List.map_nil, List.append_nil]
    rfl
  | cons b tiles ih =>
    unfold addTiles
    dsimp only
    rw [ih, addHandle, List.map_cons]
    dsimp only
    rw [List.append_assoc, List.singleton_append, List.length_append, List.length_singleton]
    rfl

/-- No owner is outside the world, and there is one for each tile. -/
theorem owners_of_misplaced {tiling : Tiling} {owners : List Rank} {size : Nat}
    (h : Tensor.misplaced tiling owners size = none) :
    owners.length = tiling.grid.count ∧ ∀ o ∈ owners, o < size := by
  unfold Tensor.misplaced at h
  split at h
  · cases h
  · rename_i hcount
    refine ⟨not_not.mp hcount, fun o ho => ?_⟩
    rw [Option.map_eq_none_iff, List.find?_eq_none] at h
    obtain ⟨i, hi⟩ := List.getElem?_of_mem ho
    have := h (o, i) (List.mem_zipIdx_iff_getElem?.mpr hi)
    exact Nat.lt_of_not_le fun hle => this (decide_eq_true hle)

/-- A tensor that is made adds its tiles to the buffers of the rank, and nothing else. -/
theorem makeTensor_eq_ok {n n' : Node α} {tiling : Tiling} {owners : List Rank} {first next : Tag}
    {t : Tensor} (h : n.makeTensor tiling owners first = .ok (n', t, next)) : ∃ tiles,
      Tensor.design tiling owners first = .ok (tiles, next) ∧
      owners.length = tiling.grid.count ∧ (∀ b ∈ tiles, b.owner < n.size) ∧
      t = ⟨tiling, first, Tensor.layTiles n.handles.length tiles⟩ ∧
      n' = { n with handles := n.handles ++ tiles.map Tensor.Blueprint.handle } := by
  unfold makeTensor at h
  split at h
  · cases h
  · rename_i hplaced
    obtain ⟨hcount, howners⟩ := owners_of_misplaced hplaced
    split at h
    · cases h
    · rename_i tiles next' hdesign
      rw [addTiles_eq] at h
      cases h
      refine ⟨tiles, hdesign, hcount, fun b hb => howners _ ?_, rfl, rfl⟩
      rw [← (Tensor.tiles_of_design hdesign).2.1]
      exact List.mem_map_of_mem hb

/-- Tensors that are made add their tiles to the buffers of the rank, and nothing else. -/
theorem makeTensors_eq_ok {n n' : Node α} {first next : Tag} {specs : List (Tiling × List Rank)}
    {tensors : List Tensor} (h : n.makeTensors first specs = .ok (n', tensors, next)) : ∃ tiles,
      Tensor.designs first specs = .ok (tiles, next) ∧ (∀ b ∈ tiles, b.owner < n.size) ∧
      n' = { n with handles := n.handles ++ tiles.map Tensor.Blueprint.handle } := by
  induction specs generalizing n first tensors with
  | nil =>
    cases h
    exact ⟨[], rfl, (by simp), by rw [List.map_nil, List.append_nil]⟩
  | cons spec specs ih =>
    obtain ⟨⟨m, t, mid⟩, hmake, h⟩ := bind_eq_ok h
    obtain ⟨⟨m', ts, stop⟩, hrest, h⟩ := bind_eq_ok h
    cases h
    obtain ⟨tiles, hdesign, -, howners, -, rfl⟩ := makeTensor_eq_ok hmake
    obtain ⟨rest, hdesigns, howners', rfl⟩ := ih hrest
    refine ⟨tiles ++ rest, ?_, fun b hb => ?_, ?_⟩
    · unfold Tensor.designs
      rw [hdesign]
      show (Tensor.designs mid specs >>= _) = _
      rw [hdesigns]
      rfl
    · exact (List.mem_append.mp hb).elim (howners b) (howners' b)
    · rw [List.map_append, ← List.append_assoc]

/-- Tensors that are made are laid out over different tiles. -/
theorem laidOut_of_makeTensors {n n' : Node α} {first next stop : Tag}
    {specs : List (Tiling × List Rank)} {tensors : List Tensor} {tiles : List Tensor.Blueprint}
    (before : List Tensor.Blueprint) (h : n.makeTensors first specs = .ok (n', tensors, next))
    (hd : Tensor.designs first specs = .ok (tiles, stop)) (hb : before.length = n.handles.length) :
    (∀ t ∈ tensors, t.LaidOut (before ++ tiles)) ∧ tensors.Pairwise Tensor.Apart ∧
      ∀ t ∈ tensors, ∀ tile ∈ t.tiles, before.length ≤ tile.handle := by
  induction specs generalizing n first tensors before tiles with
  | nil =>
    cases h
    simp
  | cons spec specs ih =>
    obtain ⟨⟨m, t, mid⟩, hmake, h⟩ := bind_eq_ok h
    obtain ⟨⟨m', ts, stop'⟩, hrest, h⟩ := bind_eq_ok h
    cases h
    obtain ⟨tiles₁, hdesign, hcount, -, rfl, rfl⟩ := makeTensor_eq_ok hmake
    obtain ⟨⟨tiles₁', mid'⟩, hdesign', hd⟩ := bind_eq_ok hd
    obtain ⟨rfl, rfl⟩ := Prod.mk.inj (Except.ok.inj (hdesign.symm.trans hdesign'))
    obtain ⟨⟨rest, last⟩, hdesigns, hd⟩ := bind_eq_ok hd
    cases hd
    obtain ⟨hlaid, hapart, hle⟩ := ih (before ++ tiles₁) hrest hdesigns (by simp [hb])
    rw [← List.append_assoc, ← hb]
    -- the buffers of the first tensor come before those of the others
    have hlt : ∀ tile ∈ Tensor.layTiles before.length tiles₁,
        before.length ≤ tile.handle ∧ tile.handle < (before ++ tiles₁).length := by
      intro tile htile
      have hmem : tile.handle ∈ List.range' before.length tiles₁.length := by
        rw [← Tensor.map_handle_layTiles]
        exact List.mem_map_of_mem htile
      rw [List.length_append]
      exact List.mem_range'_1.mp hmem
    refine ⟨?_, .cons ?_ hapart, ?_⟩
    · exact List.forall_mem_cons.mpr ⟨Tensor.laidOut_of_design hdesign hcount, hlaid⟩
    · exact fun u hu tile htile tile' htile' =>
        Nat.ne_of_lt (Nat.lt_of_lt_of_le (hlt tile htile).2 (hle u hu tile' htile'))
    · refine List.forall_mem_cons.mpr ⟨fun tile htile => (hlt tile htile).1, fun u hu tile htile => ?_⟩
      refine Nat.le_trans ?_ (hle u hu tile htile)
      rw [List.length_append]
      exact Nat.le_add_right _ _

end Node

namespace World

/-- A rank `r` of a world whose ranks have made the same tensors, and may have buffers of their
own. -/
def Makes (w : World α) (first : Tag) (specs : List (Tiling × List Rank)) (tensors : List Tensor)
    (r : Rank) : Prop :=
  ∃ codelets n next own,
    ({ rank := r, size := w.size, codelets } : Node α).makeTensors first specs =
      .ok (n, tensors, next) ∧
      w.node r = { n with handles := n.handles ++ own } ∧
      ∀ e ∈ own, e.sent = [] ∧ e.state ≠ .remoteCached

/-- Ranks that have been set up with the same tiles begin alike. -/
theorem alike_of_nodes {w : World α} {tiles : List Tensor.Blueprint}
    (hc : w.cluster = Cluster.ofSize w.size) (ho : ∀ b ∈ tiles, b.owner < w.size)
    (ht : (tiles.map (·.tag)).Nodup) (hn : ∀ r < w.size, ∃ codelets own,
      w.node r = { rank := r, size := w.size, codelets := codelets,
                   handles := tiles.map Tensor.Blueprint.handle ++ own } ∧
      ∀ e ∈ own, e.sent = [] ∧ e.state ≠ .remoteCached) : w.Alike tiles := by
  refine ⟨hc, ho, ht, ?_, ?_, ?_, ?_⟩
  · intro r hr
    obtain ⟨codelets, own, hnode, hown⟩ := hn r hr
    rw [hnode]
    refine Node.fresh_of_handles r w.size codelets ?_
    intro e he
    rcases List.mem_append.mp he with he | he
    · obtain ⟨b, -, rfl⟩ := List.mem_map.mp he
      exact ⟨rfl, Coherence.noConfusion⟩
    · exact hown e he
  · intro r hr
    obtain ⟨codelets, own, hnode, -⟩ := hn r hr
    rw [hnode]
  · intro r hr
    obtain ⟨codelets, own, hnode, -⟩ := hn r hr
    rw [hnode]
  · intro r hr
    obtain ⟨codelets, own, hnode, -⟩ := hn r hr
    rw [hnode]
    exact List.prefix_append _ _

/-- What a rank begins with that has made the tensors. -/
theorem Makes.exists_designs {w : World α} {first : Tag} {specs : List (Tiling × List Rank)}
    {tensors : List Tensor} {r : Rank} (h : w.Makes first specs tensors r) :
    ∃ tiles stop, Tensor.designs first specs = .ok (tiles, stop) ∧
      (∀ b ∈ tiles, b.owner < w.size) ∧ ∃ codelets own,
      w.node r = { rank := r, size := w.size, codelets := codelets,
                   handles := tiles.map Tensor.Blueprint.handle ++ own } ∧
      ∀ e ∈ own, e.sent = [] ∧ e.state ≠ .remoteCached := by
  obtain ⟨codelets, n, next, own, hmake, hnode, hown⟩ := h
  obtain ⟨tiles, hd, howners, rfl⟩ := Node.makeTensors_eq_ok hmake
  exact ⟨tiles, next, hd, howners, codelets, own, hnode, hown⟩

/-- Tensors that a rank has made are laid out over different tiles. -/
theorem Makes.laidOut {w : World α} {first stop : Tag} {specs : List (Tiling × List Rank)}
    {tensors : List Tensor} {tiles : List Tensor.Blueprint} {r : Rank}
    (h : w.Makes first specs tensors r) (hd : Tensor.designs first specs = .ok (tiles, stop)) :
    (∀ t ∈ tensors, t.LaidOut tiles) ∧ tensors.Pairwise Tensor.Apart := by
  obtain ⟨codelets, n, next, own, hmake, -, -⟩ := h
  obtain ⟨hlaid, hapart, -⟩ := Node.laidOut_of_makeTensors [] hmake hd rfl
  exact ⟨hlaid, hapart⟩

/-- Ranks that have made the same tensors begin alike. -/
theorem alike_of_makes {w : World α} {first stop : Tag} {specs : List (Tiling × List Rank)}
    {tensors : List Tensor} {tiles : List Tensor.Blueprint}
    (hd : Tensor.designs first specs = .ok (tiles, stop)) (hs : 0 < w.size)
    (hc : w.cluster = Cluster.ofSize w.size)
    (hm : ∀ r < w.size, w.Makes first specs tensors r) : w.Alike tiles := by
  have htiles : ∀ r < w.size, (∀ b ∈ tiles, b.owner < w.size) ∧ ∃ codelets own,
      w.node r = { rank := r, size := w.size, codelets := codelets,
                   handles := tiles.map Tensor.Blueprint.handle ++ own } ∧
      ∀ e ∈ own, e.sent = [] ∧ e.state ≠ .remoteCached := by
    intro r hr
    obtain ⟨tiles', stop', hd', hrest⟩ := (hm r hr).exists_designs
    obtain ⟨rfl, -⟩ := Prod.mk.inj (Except.ok.inj (hd.symm.trans hd'))
    exact hrest
  refine alike_of_nodes hc (htiles 0 hs).1 ?_ fun r hr => (htiles r hr).2
  refine List.Nodup.of_map Tag.val ?_
  rw [List.map_map]
  exact (Tensor.tags_of_designs hd).1 ▸ List.nodup_range'

end World

end TiledTensor
