import TiledTensor.Proofs.TensorScripts

/-!
# What a collective call comes to

A collective call is refused before its first effect or not at all.  The ranks of the tensors, their
shapes and the ends of the two boxes are looked at once.  What is computed after that for each tile,
its place, the tiles that the box reaches, and the box that two tiles share, stays within what has
been looked at; so a script with calls has no failure.

The calls of such a script have a simple form (`Tensor.Orderly`): a rank copies from a tile right
after it has fetched the tile, and what it copies is all of the tile or a box inside both tiles.
-/

namespace TiledTensor

variable {α : Type} [Scalar α]

/-- The operations that copy from one tile onto another. -/
inductive Op.Copies (s d : Tile) : Op α → Prop
  | whole : Copies s d (Op.copy s d)
  | shared (plan : Overlap) (access : Access) (a b : Index)
      (exact : plan.Exact a s.layout.shape b d.layout.shape) :
      Copies s d (Op.copyOverlap s d plan access)

namespace Tensor

/-- Calls of a rank that copy from one tensor onto another. -/
inductive Orderly (src dst : Tensor) (r : Rank) : List (Call α) → Prop
  | nil : Orderly src dst r []
  | flush {d : Tile} {calls : List (Call α)} (target : d ∈ dst.tiles)
      (rest : Orderly src dst r calls) : Orderly src dst r (.flush d.handle :: calls)
  | clear {d : Tile} {calls : List (Call α)} (target : d ∈ dst.tiles) (own : d.owner = r)
      (rest : Orderly src dst r calls) : Orderly src dst r (.submit (Op.clear d) :: calls)
  | transfer {s d : Tile} {calls : List (Call α)} (source : s ∈ src.tiles) (target : d ∈ dst.tiles)
      (rest : Orderly src dst r calls) : Orderly src dst r (.transfer s.handle d.owner :: calls)
  | copy {s d : Tile} {op : Op α} {calls : List (Call α)} (source : s ∈ src.tiles)
      (target : d ∈ dst.tiles) (own : d.owner = r) (copies : op.Copies s d)
      (rest : Orderly src dst r calls) :
      Orderly src dst r (.transfer s.handle d.owner :: .submit op :: calls)

variable {src dst : Tensor} {r : Rank} {srcAt dstAt tileAt : Index} {s d : Tile} {op : Op α} {n : Nat}

theorem Orderly.append {calls calls' : List (Call α)} (h : Orderly src dst r calls)
    (h' : Orderly src dst r calls') : Orderly src dst r (calls ++ calls') := by
  induction h with
  | nil => exact h'
  | flush target rest ih => exact .flush target ih
  | clear target own rest ih => exact .clear target own ih
  | transfer source target rest ih => exact .transfer source target ih
  | copy source target own copies rest ih => exact .copy source target own copies ih

/-- What is submitted clears a tile of the destination, or copies a tile of the source onto one. -/
theorem Orderly.submits {calls : List (Call α)} (h : Orderly src dst r calls)
    (hop : .submit op ∈ calls) : ∃ d ∈ dst.tiles, d.owner = r ∧
      (op = Op.clear d ∨ ∃ s ∈ src.tiles, op.Copies s d) := by
  induction h with
  | nil => exact absurd hop List.not_mem_nil
  | flush target rest ih =>
    rcases List.mem_cons.mp hop with heq | hop
    · cases heq
    · exact ih hop
  | clear target own rest ih =>
    rcases List.mem_cons.mp hop with heq | hop
    · cases heq
      exact ⟨_, target, own, Or.inl rfl⟩
    · exact ih hop
  | transfer source target rest ih =>
    rcases List.mem_cons.mp hop with heq | hop
    · cases heq
    · exact ih hop
  | copy source target own copies rest ih =>
    rcases List.mem_cons.mp hop with heq | hop
    · cases heq
    · rcases List.mem_cons.mp hop with heq | hop
      · cases heq
        exact ⟨_, target, own, Or.inr ⟨_, source, copies⟩⟩
      · exact ih hop

/-- A source is fetched for the owner of the destination, who copies it. -/
theorem orderly_fetch (hs : s ∈ src.tiles) (hd : d ∈ dst.tiles) (hop : op.Copies s d) :
    Orderly src dst r (.transfer s.handle d.owner :: onOwner r d op) := by
  unfold onOwner
  split
  · rename_i hr
    exact .copy hs hd hr.symm hop .nil
  · exact .transfer hs hd .nil

end Tensor

/-! ## Scripts -/

namespace Script

/-- A script that copies from one tensor onto another and comes to its end. -/
structure Orderly (src dst : Tensor) (r : Rank) (s : Script α) : Prop where
  failure : s.failure = none
  calls : Tensor.Orderly src dst r s.calls

/-- A script that does nothing, or copies and comes to its end. -/
def Sound (src dst : Tensor) (r : Rank) (s : Script α) : Prop := s.calls = [] ∨ s.Orderly src dst r

variable {src dst : Tensor} {r : Rank}

theorem Sound.orderly {s : Script α} (h : s.Sound src dst r) : Tensor.Orderly src dst r s.calls := by
  rcases h with h | h
  · rw [h]
    exact .nil
  · exact h.calls

theorem Orderly.append {s t : Script α} (hs : s.Orderly src dst r) (ht : t.Orderly src dst r) :
    (s ++ t).Orderly src dst r := by
  have happend : s ++ t = ⟨s.calls ++ t.calls, t.failure⟩ := by
    show Script.append s t = _
    rw [Script.append, hs.failure]
  rw [happend]
  exact ⟨ht.failure, hs.calls.append ht.calls⟩

theorem Orderly.foldr {β : Type} {items : List β} {script : β → Script α} {last : Script α}
    (h : ∀ x ∈ items, (script x).Orderly src dst r) (hlast : last.Orderly src dst r) :
    (items.foldr (fun x rest => script x ++ rest) last).Orderly src dst r := by
  induction items with
  | nil => exact hlast
  | cons x items ih =>
    exact (h x List.mem_cons_self).append (ih fun y hy => h y (List.mem_cons_of_mem _ hy))

end Script

namespace Tensor

variable {src dst : Tensor} {r : Rank} {srcAt dstAt tileAt : Index} {s d : Tile} {n : Nat}

theorem orderly_copyTiles {ss ds : List Tile} (hs : ∀ s ∈ ss, s ∈ src.tiles)
    (hd : ∀ d ∈ ds, d ∈ dst.tiles) (h : ss.length = ds.length) :
    (copyTilesScript (α := α) r ss ds).Orderly src dst r := by
  induction ss generalizing ds with
  | nil =>
    obtain rfl : ds = [] := List.length_eq_zero_iff.mp h.symm
    exact ⟨rfl, .nil⟩
  | cons s ss ih =>
    cases ds with
    | nil => cases h
    | cons d ds =>
      rw [List.forall_mem_cons] at hs hd
      have hfetch := orderly_fetch (α := α) (r := r) hs.1 hd.1 .whole
      exact Script.Orderly.append ⟨rfl, hfetch.append (.flush hd.1 .nil)⟩
        (ih hs.2 hd.2 (by simpa using h))

theorem orderly_copyCalls {c : TileCopy} (hc : src.Provides srcAt tileAt d c) (hd : d ∈ dst.tiles) :
    (copyCalls (α := α) r src d c).Orderly src dst r := by
  obtain ⟨hlt, start, -, hexact⟩ := hc
  have hget := List.getElem?_eq_getElem hlt
  have htile : src.tile c.source = .ok src.tiles[c.source] := by rw [tile, hget]
  rw [tileAt_eq hget] at hexact
  rw [copyCalls, Script.bind_of_ok htile]
  exact ⟨rfl, orderly_fetch (List.getElem_mem hlt) hd (.shared _ _ _ _ hexact)⟩

/-- The copies onto one destination tile of tensors that overlap. -/
theorem orderly_tileScript {o : Overlap} (hsrc : src.Formed) (hdst : dst.Formed)
    (ho : Overlap.between srcAt src.shape dstAt dst.shape = .ok (some o))
    (hd : dst.tiles[n]? = some d) :
    (tileScript (α := α) r src srcAt dst.tiling dstAt n d).Orderly src dst r := by
  have hmem := List.mem_of_getElem? hd
  have hn : n < dst.tiling.grid.count := hdst.count ▸ lt_of_getElem?_eq_some hd
  obtain ⟨start, layout, hstart, hadd, hlayout, h0, hsrcAt, hplace, hlen⟩ :=
    Tiling.exists_tile_of_between ho hn
  obtain rfl : layout = d.layout := Except.ok.inj (hlayout.symm.trans (hdst.layout n d hd))
  rw [tileScript, Script.bind_of_ok hstart, Script.bind_of_ok hadd]
  rcases Tiling.copiesOnto_eq h0 hsrcAt hplace hlen with
    ⟨hnone, -⟩ | ⟨-, -, -, visited, copies, -, -, -, hcopies, hplans⟩
  · rw [Script.bind_of_ok hnone]
    exact ⟨rfl, .nil⟩
  · rw [Script.bind_of_ok hcopies]
    exact .foldr (fun c hc => orderly_copyCalls (provides_of_plans hsrc hplans hc) hmem)
      ⟨rfl, .flush hmem .nil⟩

theorem orderly_tilesScript {o : Overlap} (hsrc : src.Formed) (hdst : dst.Formed)
    (ho : Overlap.between srcAt src.shape dstAt dst.shape = .ok (some o)) :
    (tilesScript (α := α) r src srcAt dst dstAt).Orderly src dst r := by
  unfold tilesScript
  exact .foldr (fun p hp => orderly_tileScript hsrc hdst ho (List.mem_zipIdx_iff_getElem?.mp hp))
    ⟨rfl, .nil⟩

/-- A tensor without dimensions has one tile. -/
theorem Formed.length_of_scalar {t : Tensor} (h : t.Formed) (hn : t.ndim = 0) : t.tiles.length = 1 := by
  have hshape : t.tiling.whole.shape = [] := List.length_eq_zero_iff.mp hn
  rw [h.count, t.tiling.grid.count_eq.1, t.tiling.cut, hshape]
  rfl

theorem sound_copyIntersection (hsrc : src.Formed) (hdst : dst.Formed) :
    (copyIntersection (α := α) r src srcAt dst dstAt).Sound src dst r := by
  unfold copyIntersection
  split
  · exact Or.inl rfl
  · rename_i hmatch
    obtain ⟨hndim, -, -⟩ := mismatch_eq_none_iff.mp hmatch
    split
    · rename_i h0
      refine Or.inr (orderly_copyTiles (fun s hs => hs) (fun d hd => hd) ?_)
      rw [hsrc.length_of_scalar (hndim.trans h0), hdst.length_of_scalar h0]
    · cases ho : Overlap.between srcAt src.shape dstAt dst.shape with
      | error f => exact Or.inl rfl
      | ok o =>
        cases o with
        | none => exact Or.inl rfl
        | some o => exact Or.inr (orderly_tilesScript hsrc hdst ho)

theorem sound_copyTo (hsrc : src.Formed) (hdst : dst.Formed) :
    (copyTo (α := α) r src dst).Sound src dst r := by
  unfold copyTo
  split
  · exact Or.inl rfl
  · split
    · exact Or.inl rfl
    · rename_i hshape
      split
      · rename_i hbase
        refine Or.inr (orderly_copyTiles (fun s hs => hs) (fun d hd => hd) ?_)
        rw [hsrc.count, hdst.count, Tiling.eq_of_shapes (not_not.mp hshape) hbase]
      · exact sound_copyIntersection hsrc hdst

theorem orderly_clear : (clear (α := α) r dst).Orderly src dst r := by
  refine ⟨rfl, ?_⟩
  show Orderly src dst r (dst.tiles.flatMap _)
  have hall : ∀ ds : List Tile, (∀ d ∈ ds, d ∈ dst.tiles) → Orderly (α := α) src dst r
      (ds.flatMap fun tile => onOwner r tile (Op.clear tile) ++ [.flush tile.handle]) := by
    intro ds hds
    induction ds with
    | nil => exact .nil
    | cons d ds ih =>
      rw [List.forall_mem_cons] at hds
      rw [List.flatMap_cons]
      refine Orderly.append ?_ (ih hds.2)
      unfold onOwner
      split
      · rename_i hr
        exact .clear hds.1 hr.symm (.flush hds.1 .nil)
      · exact .flush hds.1 .nil
  exact hall dst.tiles fun d hd => hd

end Tensor

/-! ## Collective calls -/

namespace Collective

variable {ι : Type} {t : ι → Tensor} {c : Collective ι} {r : Rank}

/-- A collective call does nothing, or comes to its end. -/
theorem sound_script (hsrc : (t c.source).Formed) (hdst : (t c.target).Formed) :
    (c.script (α := α) r t).Sound (t c.source) (t c.target) r := by
  cases c with
  | copyTo s d => exact Tensor.sound_copyTo hsrc hdst
  | copyIntersection s srcAt d dstAt => exact Tensor.sound_copyIntersection hsrc hdst
  | gather s d =>
    unfold script Tensor.gather
    dsimp only
    split
    · exact Or.inl rfl
    · exact Tensor.sound_copyTo hsrc hdst
  | scatter s d =>
    unfold script Tensor.scatter
    dsimp only
    split
    · exact Or.inl rfl
    · exact Tensor.sound_copyTo hsrc hdst
  | clear d => exact Or.inr Tensor.orderly_clear

/-- There is nothing for a call to do: the boxes have no place in common, or there are no
elements. -/
def Misses (t : ι → Tensor) : Collective ι → Prop
  | copyIntersection s srcAt d dstAt =>
    ∀ i, ¬(i ∈ (⟨srcAt, (t s).shape⟩ : Region) ∧ i ∈ (⟨dstAt, (t d).shape⟩ : Region))
  | copyTo s _ | gather s _ | scatter s _ => 0 ∈ (t s).shape
  | clear d => 0 ∈ (t d).shape

end Collective

/-- A box without an extent has no places. -/
theorem Region.Holds.zero_notMem {s i : Index} {d : Shape} (h : Region.Holds s d i) : 0 ∉ d := by
  obtain ⟨o, ho, -, -⟩ := h.exists_plus
  exact Shape.zero_notMem_of_contains ho

/-- Boxes that overlap have a place in common. -/
theorem Overlap.exists_common {a b : Index} {s t : Shape} {o : Overlap}
    (h : between a s b t = .ok (some o)) : ∃ i, Region.Holds a s i ∧ Region.Holds b t i := by
  obtain ⟨ha, hb, hlen⟩ := bounded_of_between h
  rcases between_eq ha hb hlen with ⟨hnone, -⟩ | ⟨o', -, hexact⟩
  · rw [hnone] at h
    cases h
  · refine ⟨b.plus o'.dstStart, (hexact.common _).mp (Region.holds_start ?_ hexact.positive)⟩
    obtain ⟨hstart, hshape⟩ := hexact.inside.2.length
    rw [Region.length_plus, hstart, hb.length, hshape, Nat.min_self]

namespace Tensor

variable {src dst t : Tensor} {r : Rank} {srcAt dstAt : Index}

/-- A tensor without elements has no tiles. -/
theorem Formed.tiles_of_zero (h : t.Formed) (h0 : 0 ∈ t.shape) : t.tiles = [] := by
  refine List.length_eq_zero_iff.mp (h.count.trans (Nat.eq_zero_of_not_pos fun hpos => ?_))
  exact Tiling.zero_notMem hpos h0

theorem calls_copyIntersection
    (h : ∀ i, ¬(Region.Holds srcAt src.shape i ∧ Region.Holds dstAt dst.shape i)) :
    (copyIntersection (α := α) r src srcAt dst dstAt).calls = [] := by
  unfold copyIntersection
  split
  · rfl
  · rename_i hmatch
    obtain ⟨hsrc, hs, hd⟩ := mismatch_eq_none_iff.mp hmatch
    split
    · rename_i h0
      -- two scalars have a place in common
      have hnil : ∀ {l : List Nat}, l.length = dst.ndim → l = [] := fun hl =>
        List.length_eq_zero_iff.mp (hl.trans h0)
      refine absurd ?_ (h [])
      rw [hnil hs, hnil hd, hnil (l := dst.shape) rfl, hnil (l := src.shape) hsrc]
      exact ⟨trivial, trivial⟩
    · cases ho : Overlap.between srcAt src.shape dstAt dst.shape with
      | error f => rfl
      | ok o =>
        cases o with
        | none => rfl
        | some o =>
          obtain ⟨i, hi⟩ := Overlap.exists_common ho
          exact absurd hi (h i)

theorem calls_copyTo (hsrc : src.Formed) (hdst : dst.Formed) (h : 0 ∈ src.shape) :
    (copyTo (α := α) r src dst).calls = [] := by
  unfold copyTo
  split
  · rfl
  · split
    · rfl
    · rename_i hshape
      split
      · rw [hsrc.tiles_of_zero h, hdst.tiles_of_zero (not_not.mp hshape ▸ h)]
        rfl
      · exact calls_copyIntersection fun i hi => hi.1.zero_notMem h

end Tensor

namespace Collective

variable {ι : Type} {t : ι → Tensor} {c : Collective ι} {r : Rank}

theorem calls_of_misses (hsrc : (t c.source).Formed) (hdst : (t c.target).Formed)
    (h : c.Misses t) : (c.script (α := α) r t).calls = [] := by
  cases c with
  | copyTo s d => exact Tensor.calls_copyTo hsrc hdst h
  | copyIntersection s srcAt d dstAt => exact Tensor.calls_copyIntersection h
  | gather s d =>
    unfold script Tensor.gather
    dsimp only
    split
    · rfl
    · exact Tensor.calls_copyTo hsrc hdst h
  | scatter s d =>
    unfold script Tensor.scatter
    dsimp only
    split
    · rfl
    · exact Tensor.calls_copyTo hsrc hdst h
  | clear d =>
    have hnone : (t d).tiles = [] := hdst.tiles_of_zero h
    unfold script Tensor.clear
    dsimp only
    rw [hnone]
    rfl

end Collective

end TiledTensor
