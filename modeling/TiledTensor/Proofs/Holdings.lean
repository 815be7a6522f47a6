import TiledTensor.Proofs.Tenures

/-!
# What a rank knows of its tensors

Over a tenure the tensors of a rank lie apart, each with the tags that its buffers carry, and after
a tensor was given up nothing is asked for on its tiles (`Node.Stocked`).
-/

namespace TiledTensor

variable {α : Type}

/-! ## What a rank holds -/

theorem lines_record_eq (a : Act α) (n : Node α) (hist : List (Entry α)) :
    lines (a.record n hist) = lines hist ++ a.happening.line?.toList := by
  cases a with
  | call c => cases c <;> exact lines_append_singleton _ _
  | acquire h b => exact lines_append_singleton _ _
  | put k block => exact (lines_map_put k block hist).trans (List.append_nil _).symm
  | release k => exact (List.append_nil _).symm
  | look k => exact (List.append_nil _).symm
  | take => exact (List.append_nil _).symm
  | work i => exact (List.append_nil _).symm
  | arrive i => exact (List.append_nil _).symm

theorem Happening.tile_mem_names {x : Happening α} {l : Line} (h : x.line? = some l) :
    l.tile ∈ x.names := by
  cases x with
  | transfer b t =>
    cases h
    exact List.mem_cons_self
  | flush b =>
    cases h
    exact List.mem_cons_self
  | _ => cases h

namespace Tensor

/-- A tensor that is made has the next buffers, and the next tags. -/
theorem placed_of_design {first next stop : Tag} {tiling : Tiling} {owners : List Rank}
    {tiles : List Blueprint} {m : Nat} (h : design tiling owners next = .ok (tiles, stop))
    (hnext : next.val = first.val + m) :
    (⟨tiling, next, layTiles m tiles⟩ : Tensor).Placed first (m + tiles.length) := by
  obtain ⟨tiles', htiles, hrest⟩ := bind_eq_ok h
  obtain ⟨next', hoffset, hrest⟩ := bind_eq_ok hrest
  obtain ⟨rfl, rfl⟩ := Prod.mk.inj (Except.ok.inj hrest)
  have hcount : tiles'.length = owners.length := by
    rw [← (tags_of_blueprintsFrom htiles).2, List.length_map]
  have hlen : (layTiles m tiles').length = tiles'.length := by
    rw [layTiles, List.length_map, List.length_zipIdx]
  refine ⟨⟨m, hnext, ?_, Nat.le_of_eq (congrArg (m + ·) hlen)⟩, ?_⟩
  · show (layTiles m tiles').map (·.handle) = List.range' m (layTiles m tiles').length
    rw [hlen, map_handle_layTiles]
  · rw [Tag.offset_eq] at hoffset
    split at hoffset
    · rename_i hfits
      rw [← hcount, ← hlen] at hfits
      exact hfits
    · cases hoffset

/-- A tensor that is made lies apart from those with earlier buffers. -/
theorem Placed.apart {first next : Tag} {t : Tensor} {m : Nat} (hp : t.Placed first m) (tiling : Tiling)
    (tiles : List Blueprint) : t.Apart ⟨tiling, next, layTiles m tiles⟩ := by
  intro tile htile tile' htile' heq
  have hlt := hp.lt (List.mem_map_of_mem (f := Tile.handle) htile)
  have hmem := List.mem_map_of_mem (f := Tile.handle) htile'
  rw [map_handle_layTiles, List.mem_range'_1] at hmem
  rw [heq] at hlt
  exact Nat.not_le_of_lt hlt hmem.1

end Tensor

/-- What holds of a rank that makes tensors and gives them up, whether or not its scheduler runs. -/
structure Node.Stocked (first : Tag) (d : Diary α) (n : Node α) : Prop where
  licit : n.Licit
  designed : ∃ tiles, Tensor.designs first d.made = .ok (tiles, d.next) ∧
    tiles.length = n.handles.length
  tagged : ∀ h < n.handles.length, (n.handle h).tag = some ⟨first.val + h⟩
  placed : ∀ t ∈ d.held ++ d.drops.map (·.2), t.Placed first n.handles.length
  apart : (d.held ++ d.drops.map (·.2)).Pairwise Tensor.Apart
  lines : TiledTensor.lines d.hist = d.milestones.filterMap Milestone.line?
  dropped : ∀ t, .drop t ∈ d.milestones ↔ t ∈ d.drops.map (·.2)
  /-- A tensor that was given up is not asked for again. -/
  order : ∀ t l, Before d.milestones (.drop t) (.line l) → l.tile ∉ t.handles

namespace Node.Stocked

variable {first : Tag} {d d' : Diary α} {n n' : Node α} {t : Tensor} {h : HandleId} {i : Nat}

theorem placed_of_held (hs : n.Stocked first d) (ht : t ∈ d.held) : t.Placed first n.handles.length :=
  hs.placed t (List.mem_append_left _ ht)

theorem placed_of_drop (hs : n.Stocked first d) (ht : t ∈ d.drops.map (·.2)) :
    t.Placed first n.handles.length :=
  hs.placed t (List.mem_append_right _ ht)

/-- What a rank holds lies apart from what it has given up. -/
theorem notMem_drop (hs : n.Stocked first d) {t' : Tensor} (ht : t ∈ d.held) (hh : h ∈ t.handles)
    (ht' : t' ∈ d.drops.map (·.2)) : h ∉ t'.handles :=
  ((List.pairwise_append.mp hs.apart).2.2 t ht t' ht').disjoint hh

/-- What concerns no tensor and makes no buffer. -/
theorem of_setting (hs : n.Stocked first d) (hl : n'.Licit) (hset : n'.setting = n.setting) :
    n'.Stocked first d := by
  have hlen := Node.length_of_setting hset
  refine ⟨hl, ?_, fun h hh => ?_, fun t ht => hlen ▸ hs.placed t ht, hs.apart, hs.lines, hs.dropped,
    hs.order⟩
  · rw [hlen]
    exact hs.designed
  · rw [Node.tag_of_setting hset]
    exact hs.tagged h (hlen ▸ hh)

theorem act [Scalar α] (hs : n.Stocked first d) {net : Cluster} {a : Act α}
    (hknown : ∀ h ∈ a.happening.names, ∃ t ∈ d.held, h ∈ t.handles) (hl : n'.Licit)
    (hset : n'.setting = n.setting) : n'.Stocked first (d.act net n a n') := by
  have hs' := hs.of_setting hl hset
  refine ⟨hl, hs'.designed, hs'.tagged, hs'.placed, hs'.apart, ?_, fun t => ?_, fun t l hb => ?_⟩
  · show TiledTensor.lines (a.record n d.hist) = (d.milestones ++ a.milestones).filterMap _
    rw [lines_record_eq, hs.lines, List.filterMap_append, Act.milestones]
    cases a.happening.line? <;> rfl
  · refine Iff.trans (List.mem_append.trans (or_iff_left fun hin => ?_)) (hs.dropped t)
    unfold Act.milestones at hin
    cases hline : a.happening.line? with
    | none =>
      rw [hline] at hin
      cases hin
    | some l =>
      rw [hline] at hin
      cases List.mem_singleton.mp hin
  · have hb : Before (d.milestones ++ a.milestones) (Milestone.drop t) (Milestone.line l) := hb
    unfold Act.milestones at hb
    cases hline : a.happening.line? with
    | none =>
      rw [hline] at hb
      exact hs.order t l (List.append_nil d.milestones ▸ hb)
    | some l' =>
      rw [hline] at hb
      rcases Before.append_singleton_iff.mp hb with hb | ⟨hin, heq⟩
      · exact hs.order t l hb
      · obtain rfl := Milestone.line.inj heq
        obtain ⟨t', ht', hh⟩ := hknown l.tile (Happening.tile_mem_names hline)
        exact hs.notMem_drop ht' hh ((hs.dropped t).mp hin)

theorem perm_drop {held dropped : List Tensor} (ht : held[i]? = some t) :
    (held.eraseIdx i ++ (dropped ++ [t])).Perm (held ++ dropped) := by
  obtain ⟨hi, rfl⟩ := List.getElem?_eq_some_iff.mp ht
  rw [← List.append_assoc]
  have hlast : (held.eraseIdx i ++ dropped ++ [held[i]]).Perm
      (held[i] :: (held.eraseIdx i ++ dropped)) := List.perm_append_singleton ..
  exact hlast.trans ((List.getElem_cons_eraseIdx_perm hi).append_right dropped)

/-- A tensor is given up. -/
theorem drop (hs : n.Stocked first d) (ht : d.held[i]? = some t) (hl : n'.Licit)
    (hset : n'.setting = n.setting) (m : Node α) : n'.Stocked first (d.drop m i t) := by
  have hs' := hs.of_setting hl hset
  have hperm : ((d.drop m i t).held ++ (d.drop m i t).drops.map (·.2)).Perm
      (d.held ++ d.drops.map (·.2)) := by
    show (d.held.eraseIdx i ++ (d.drops ++ [(m.nextTask, t)]).map (·.2)).Perm _
    rw [List.map_append]
    exact perm_drop ht
  refine ⟨hl, hs'.designed, hs'.tagged, fun u hu => hs'.placed u (hperm.mem_iff.mp hu),
    (hperm.pairwise_iff fun h => h.symm).mpr hs.apart, ?_, fun u => ?_, fun u l hb => ?_⟩
  · show TiledTensor.lines (d.hist ++ [_]) = (d.milestones ++ [Milestone.drop t]).filterMap _
    rw [lines_append_singleton, List.filterMap_append, hs.lines]
    rfl
  · show .drop u ∈ d.milestones ++ [.drop t] ↔ u ∈ (d.drops ++ [(m.nextTask, t)]).map (·.2)
    rw [List.map_append, List.mem_append, List.mem_append, hs.dropped, List.mem_singleton,
      Milestone.drop.injEq]
    exact or_congr_right List.mem_singleton.symm
  · refine hs.order u l ((Before.append_singleton_iff.mp hb).resolve_right fun h => ?_)
    cases h.2

/-- With a tensor its tiles are added to those that have been made. -/
theorem exists_designs (hs : n.Stocked first d) {tiling : Tiling} {owners : List Rank} {next : Tag}
    {tiles : List Tensor.Blueprint} (h : Tensor.design tiling owners d.next = .ok (tiles, next)) :
    ∃ before, before.length = n.handles.length ∧ Tensor.designs first d.made = .ok (before, d.next) ∧
      Tensor.designs first (d.made ++ [(tiling, owners)]) = .ok (before ++ tiles, next) := by
  obtain ⟨before, hbefore, hlen⟩ := hs.designed
  refine ⟨before, hlen, hbefore, ?_⟩
  rw [Tensor.designs_append, hbefore]
  show (Tensor.designs d.next [(tiling, owners)] >>= _) = _
  rw [Tensor.designs, h]
  show Except.ok (before ++ (tiles ++ []), next) = _
  rw [List.append_nil]

/-- A tensor is made. -/
theorem make [Scalar α] (hs : n.Stocked first d) {tiling : Tiling} {owners : List Rank} {next : Tag}
    (hok : n.makeTensor tiling owners d.next = .ok (n', t, next)) :
    n'.Stocked first { d with made := d.made ++ [(tiling, owners)], next, held := d.held ++ [t] } := by
  obtain ⟨tiles, hdesign, -, -, rfl, rfl⟩ := Node.makeTensor_eq_ok hok
  obtain ⟨before, hlen, hbefore, hdesigns⟩ := hs.exists_designs hdesign
  have hnext : d.next.val = first.val + n.handles.length := by
    rw [(Tensor.tags_of_designs hbefore).2, hlen]
  have hlong : (n.handles ++ tiles.map Tensor.Blueprint.handle).length =
      n.handles.length + tiles.length := by
    rw [List.length_append, List.length_map]
  have hplaced := Tensor.placed_of_design hdesign hnext
  refine ⟨hs.licit.append _, ⟨_, hdesigns, ?_⟩, fun h hh => ?_, fun u hu => ?_, ?_, hs.lines, hs.dropped,
    hs.order⟩
  · rw [List.length_append, hlen]
    exact hlong.symm
  · have hh : h < (n.handles ++ tiles.map Tensor.Blueprint.handle).length := hh
    rcases Nat.lt_or_ge h n.handles.length with hlt | hge
    · rw [Node.handle_append_left _ hlt]
      exact hs.tagged h hlt
    · obtain ⟨k, rfl⟩ := Nat.exists_eq_add_of_le hge
      have hk : k < tiles.length := by
        rw [hlong] at hh
        exact Nat.lt_of_add_lt_add_left hh
      have htags := congrArg (·[n.handles.length + k]?) (Tensor.tags_of_designs hdesigns).1
      rw [List.getElem?_map, List.getElem?_append_right (hlen ▸ Nat.le_add_right _ _), hlen,
        Nat.add_sub_cancel_left, List.getElem?_eq_getElem hk, List.getElem?_range'
          (by rw [List.length_append, hlen]; exact Nat.add_lt_add_left hk _), Nat.one_mul] at htags
      rw [Node.handle_append_right, List.getD_eq_getElem?_getD, List.getElem?_map,
        List.getElem?_eq_getElem hk]
      show some (tiles[k]).tag = _
      rw [← Option.some.inj htags]
  · have hu : u ∈ d.held ++ [⟨tiling, d.next, Tensor.layTiles n.handles.length tiles⟩] ++
        d.drops.map Prod.snd := hu
    show u.Placed first (n.handles ++ tiles.map Tensor.Blueprint.handle).length
    rw [hlong]
    rw [List.append_assoc] at hu
    rcases List.mem_append.mp hu with hu | hu
    · exact (hs.placed_of_held hu).mono (Nat.le_add_right _ _)
    · rcases List.mem_append.mp hu with hu | hu
      · exact List.mem_singleton.mp hu ▸ hplaced
      · exact (hs.placed_of_drop hu).mono (Nat.le_add_right _ _)
  · have hperm : ∀ t : Tensor, (d.held ++ [t] ++ d.drops.map (·.2)).Perm
        (d.held ++ d.drops.map (·.2) ++ [t]) := by
      intro t
      rw [List.append_assoc, List.append_assoc]
      exact List.perm_append_comm.append_left d.held
    refine ((hperm _).pairwise_iff fun h => h.symm).mpr ?_
    refine List.pairwise_append.mpr ⟨hs.apart, List.pairwise_singleton _ _, fun u hu u' hu' => ?_⟩
    obtain rfl := List.mem_singleton.mp hu'
    exact (hs.placed u hu).apart tiling tiles

section

variable [Scalar α] {net net' : Cluster} {p : Tending α}

theorem undergo_of_drop (hs : n.Stocked first d) (ht : d.held[i]? = some t) (net : Cluster) :
    n.undergo net (.retire t.handles t.tags) = some (net, n.dropTensor t) := by
  rw [(hs.placed_of_held (List.mem_of_getElem? ht)).dropTensor]
  rfl

theorem tend (hs : n.Stocked first d) (h : n.Tends net d p net' n' d') : n'.Stocked first d' := by
  have hl : ∀ {x net' n'}, (∀ h ∈ x.names, h < n.handles.length) →
      n.undergo net x = some (net', n') → n'.Licit ∧ n'.setting = n.setting := fun hx hstep =>
    ⟨hs.licit.undergo hx hstep, Node.setting_of_undergo hstep⟩
  cases h with
  | act a known step =>
    obtain ⟨hl, hset⟩ := hl (fun h hh => by
      obtain ⟨t, ht, hin⟩ := known h hh
      exact (hs.placed_of_held ht).lt hin) (Node.undergo_of_act step)
    exact hs.act known hl hset
  | make tiling owners ok => exact hs.make ok
  | @drop t i held runs =>
    obtain ⟨hl, hset⟩ := hl (x := .retire t.handles t.tags)
      (fun h hh => (hs.placed_of_held (List.mem_of_getElem? held)).lt hh) (hs.undergo_of_drop held net)
    exact hs.drop held hl hset n
  | wait =>
    obtain ⟨hl, hset⟩ := hl (x := .wait) (fun h hh => by cases hh) rfl
    exact hs.of_setting hl hset
  | leave b =>
    obtain ⟨hl, hset⟩ := hl (x := .leave b) (fun h hh => by cases hh) rfl
    exact hs.of_setting hl hset

end

end Node.Stocked

end TiledTensor
