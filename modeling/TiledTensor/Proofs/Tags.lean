import TiledTensor.Proofs.Matching
import TiledTensor.Proofs.OwnSteps
import TiledTensor.Proofs.TensorScripts

/-!
# One counter of tags

A rank takes the tags of its tensors from a counter.  `Tensor.Spec.next` says what a construction
makes of the counter, from the tensor that is asked for and the size of the world alone; so ranks
that ask for the same tensors keep the same counter, whatever else happens to them (`Node.Era`).

What is handed out grows: the tags of a tensor lie after those of every earlier one, and below the
limit of words.  A tensor that is given up therefore empties channels that no other tensor uses.
-/

namespace TiledTensor

variable {α : Type}

/-! ## What a construction makes of the counter -/

theorem Tag.offset_eq (t : Tag) (n : Nat) : t.offset n =
    if t.val + n < Word.limit then .ok ⟨t.val + n⟩ else .error .overflow := by
  unfold offset Word.add
  split <;> rfl

theorem TagRange.contains_iff {r : TagRange} {t : Tag} :
    r.contains t = true ↔ r.first.val ≤ t.val ∧ t.val < r.stop.val := by
  rw [contains, Bool.and_eq_true, decide_eq_true_iff, decide_eq_true_iff]

namespace Tensor

/-- The tags of a tensor. -/
def tags (t : Tensor) : TagRange := ⟨t.tag, ⟨t.tag.val + t.tiles.length⟩⟩

/-- What a tensor is made from: the owners of its tiles are given, or the rank that makes it owns
them all. -/
inductive Spec
  | shared (tiling : Tiling) (owners : List Rank)
  | own (tiling : Tiling)

namespace Spec

def tiling : Spec → Tiling
  | shared tiling _ | own tiling => tiling

/-- The owners of the tiles of a tensor that rank `r` makes. -/
def owners (r : Rank) : Spec → List Rank
  | shared _ owners => owners
  | own tiling => List.replicate tiling.grid.count r

/-- What is wrong with the owners in a world of some size. -/
def misplaced (size : Nat) : Spec → Option TensorError
  | shared tiling owners => Tensor.misplaced tiling owners size
  | own _ => none

/-- The first tag after those of a tensor, or why it cannot be made. -/
def next (size : Nat) (last : Tag) (spec : Spec) : Except Failure Tag :=
  match spec.misplaced size with
  | some e => .error (.tensor e)
  | none =>
    if last.val + spec.tiling.grid.count < Word.limit then
      .ok ⟨last.val + spec.tiling.grid.count⟩
    else .error (.fault .overflow)

/-- The tags of tensors that are asked for one after the other, and the counter after them.  A
construction that fails leaves the counter alone. -/
def allot (size : Nat) (last : Tag) : List Spec → List (Except Failure TagRange) × Tag
  | [] => ([], last)
  | spec :: specs =>
    match spec.next size last with
    | .ok next =>
      let (rest, stop) := allot size next specs
      (.ok ⟨last, next⟩ :: rest, stop)
    | .error e =>
      let (rest, stop) := allot size last specs
      (.error e :: rest, stop)

theorem allot_of_ok {size : Nat} {last next : Tag} {spec : Spec} (h : spec.next size last = .ok next)
    (specs : List Spec) : allot size last (spec :: specs) =
      (.ok ⟨last, next⟩ :: (allot size next specs).1, (allot size next specs).2) := by
  rw [allot, h]

theorem allot_of_error {size : Nat} {last : Tag} {spec : Spec} {e : Failure}
    (h : spec.next size last = .error e) (specs : List Spec) : allot size last (spec :: specs) =
      (.error e :: (allot size last specs).1, (allot size last specs).2) := by
  rw [allot, h]

theorem allot_append (size : Nat) (last : Tag) (specs more : List Spec) :
    allot size last (specs ++ more) =
      ((allot size last specs).1 ++ (allot size (allot size last specs).2 more).1,
        (allot size (allot size last specs).2 more).2) := by
  induction specs generalizing last with
  | nil => rfl
  | cons spec specs ih =>
    rw [List.cons_append]
    cases h : spec.next size last with
    | ok next => rw [allot_of_ok h, allot_of_ok h, ih, List.cons_append]
    | error e => rw [allot_of_error h, allot_of_error h, ih, List.cons_append]

theorem length_owners {spec : Spec} {size : Nat} (r : Rank) (h : spec.misplaced size = none) :
    (spec.owners r).length = spec.tiling.grid.count := by
  cases spec with
  | shared tiling owners => exact (Node.owners_of_misplaced h).1
  | own tiling => exact List.length_replicate

end Spec

/-- The tiles of a tensor can be made if there are tags for them. -/
theorem exists_blueprintsFrom {tiling : Tiling} {first : Tag} {n : Nat} {owners : List Rank}
    (hn : n + owners.length ≤ tiling.grid.count) (hfit : first.val + (n + owners.length) < Word.limit) :
    ∃ tiles, blueprintsFrom tiling first n owners = .ok tiles := by
  induction owners generalizing n with
  | nil => exact ⟨[], rfl⟩
  | cons owner owners ih =>
    rw [List.length_cons] at hn hfit
    obtain ⟨layout, hlayout⟩ := Tiling.exists_tileLayout (t := tiling) (n := n) (by omega)
    obtain ⟨rest, hrest⟩ := ih (n := n + 1) (by omega) (by omega)
    have htag : first.offset n = .ok ⟨first.val + n⟩ := by
      rw [Tag.offset_eq, if_pos (by omega)]
    refine ⟨⟨layout, owner, ⟨first.val + n⟩⟩ :: rest, ?_⟩
    rw [blueprintsFrom, Except.bind_of_ok hlayout, Except.bind_of_ok htag, Except.bind_of_ok hrest]
    rfl

/-- The tiles of a tensor fail to be made for no reason but the tags. -/
theorem eq_overflow_of_blueprintsFrom {tiling : Tiling} {first : Tag} {n : Nat} {owners : List Rank}
    {f : Fault} (hn : n + owners.length ≤ tiling.grid.count)
    (h : blueprintsFrom tiling first n owners = .error f) : f = .overflow := by
  induction owners generalizing n with
  | nil => cases h
  | cons owner owners ih =>
    rw [List.length_cons] at hn
    obtain ⟨layout, hlayout⟩ := Tiling.exists_tileLayout (t := tiling) (n := n) (by omega)
    rw [blueprintsFrom, Except.bind_of_ok hlayout, Tag.offset_eq] at h
    split at h
    · rw [Except.bind_of_ok rfl] at h
      cases hrest : blueprintsFrom tiling first (n + 1) owners with
      | ok rest =>
        rw [Except.bind_of_ok hrest] at h
        cases h
      | error f' =>
        rw [hrest] at h
        cases h
        exact ih (by omega) hrest
    · cases h
      rfl

/-- A tensor is designed exactly if there are tags for its tiles and one more after them. -/
theorem design_eq {tiling : Tiling} {owners : List Rank} (first : Tag)
    (hcount : owners.length = tiling.grid.count) :
    (first.val + tiling.grid.count < Word.limit ∧
      ∃ tiles, design tiling owners first = .ok (tiles, ⟨first.val + tiling.grid.count⟩)) ∨
    (¬first.val + tiling.grid.count < Word.limit ∧
      design tiling owners first = .error .overflow) := by
  rw [← hcount]
  by_cases hfit : first.val + owners.length < Word.limit
  · obtain ⟨tiles, htiles⟩ : ∃ tiles, blueprintsFrom tiling first 0 owners = .ok tiles :=
      exists_blueprintsFrom (by omega) (by omega)
    refine Or.inl ⟨hfit, tiles, ?_⟩
    rw [design, Except.bind_of_ok htiles, Tag.offset_eq, if_pos hfit]
    rfl
  · refine Or.inr ⟨hfit, ?_⟩
    rw [design]
    cases htiles : blueprintsFrom tiling first 0 owners with
    | ok tiles =>
      rw [Except.bind_of_ok rfl, Tag.offset_eq, if_neg hfit]
      rfl
    | error f =>
      rw [eq_overflow_of_blueprintsFrom (by omega) htiles]
      rfl

end Tensor

/-! ## Constructions on a rank -/

namespace Node

open Tensor (Spec)

/-- Makes a tensor with the tags that follow `last`, and moves the counter past them. -/
def construct (n : Node α) (last : Tag) (spec : Spec) : (Node α × Tag) × Except Failure Tensor :=
  let made := match spec with
    | .shared tiling owners => n.makeTensor tiling owners last
    | .own tiling => n.makeLocalTensor tiling last
  match made with
  | .ok (n, t, next) => ((n, next), .ok t)
  | .error e => ((n, last), .error e)

/-- What a construction comes to. -/
inductive Constructs (n : Node α) (last : Tag) (spec : Spec) :
    (Node α × Tag) × Except Failure Tensor → Prop
  | fails (e : Failure) (next : spec.next n.size last = .error e) :
      Constructs n last spec ((n, last), .error e)
  | makes (tiles : List Tensor.Blueprint)
      (next : spec.next n.size last = .ok ⟨last.val + tiles.length⟩)
      (design : Tensor.design spec.tiling (spec.owners n.rank) last =
        .ok (tiles, ⟨last.val + tiles.length⟩)) :
      Constructs n last spec
        (({ n with handles := n.handles ++ tiles.map Tensor.Blueprint.handle },
          ⟨last.val + tiles.length⟩),
          .ok ⟨spec.tiling, last, Tensor.layTiles n.handles.length tiles⟩)

/-- Both kinds of construction go on alike once the owners are known. -/
theorem construct_eq (n : Node α) (last : Tag) (spec : Spec) : n.construct last spec =
    match spec.misplaced n.size with
    | some e => ((n, last), .error (.tensor e))
    | none =>
      match Tensor.design spec.tiling (spec.owners n.rank) last with
      | .error f => ((n, last), .error (.fault f))
      | .ok (tiles, next) =>
        (({ n with handles := n.handles ++ tiles.map Tensor.Blueprint.handle }, next),
          .ok ⟨spec.tiling, last, Tensor.layTiles n.handles.length tiles⟩) := by
  cases spec with
  | shared tiling owners =>
    unfold construct makeTensor Spec.misplaced Spec.tiling Spec.owners
    dsimp only
    cases Tensor.misplaced tiling owners n.size with
    | some e => rfl
    | none =>
      dsimp only
      cases Tensor.design tiling owners last with
      | error f => rfl
      | ok p => dsimp only; rw [addTiles_eq]
  | own tiling =>
    unfold construct makeLocalTensor Spec.misplaced Spec.tiling Spec.owners
    dsimp only
    cases Tensor.design tiling (List.replicate tiling.grid.count n.rank) last with
    | error f => rfl
    | ok p => dsimp only; rw [addTiles_eq]

theorem constructs (n : Node α) (last : Tag) (spec : Spec) :
    n.Constructs last spec (n.construct last spec) := by
  rw [construct_eq]
  cases hm : spec.misplaced n.size with
  | some e => exact .fails _ (by rw [Spec.next, hm])
  | none =>
    have hnext : spec.next n.size last =
        if last.val + spec.tiling.grid.count < Word.limit then
          .ok ⟨last.val + spec.tiling.grid.count⟩
        else .error (.fault .overflow) := by
      rw [Spec.next, hm]
    have hcount := Spec.length_owners n.rank hm
    rcases Tensor.design_eq last hcount with ⟨hfit, tiles, hdesign⟩ | ⟨hfit, hdesign⟩
    · have hlen : tiles.length = spec.tiling.grid.count :=
        (Tensor.tiles_of_design hdesign).1.trans hcount
      rw [if_pos hfit, ← hlen] at hnext
      rw [hdesign, ← hlen]
      exact .makes tiles hnext (hlen ▸ hdesign)
    · rw [if_neg hfit] at hnext
      rw [hdesign]
      exact .fails _ hnext

/-- The tags that the buffers of a tensor carry on a rank. -/
def carried (n : Node α) (t : Tensor) : List (Option Tag) :=
  t.tiles.map fun tile => (n.handle tile.handle).tag

/-- A course of a rank on which tensors are made: what was asked for, and what came of it. -/
inductive Era [Scalar α] (n₀ : Node α) (first : Tag) :
    List (Spec × Except Failure Tensor) → Node α → Tag → Prop
  | nil : Era n₀ first [] n₀ first
  | construct {made n last} (spec : Spec) (era : Era n₀ first made n last) :
      Era n₀ first (made ++ [(spec, (n.construct last spec).2)]) (n.construct last spec).1.1
        (n.construct last spec).1.2
  | other {made n last net net' n'} (a : Happening α) (era : Era n₀ first made n last)
      (step : n.undergo net a = some (net', n')) : Era n₀ first made n' last

/-- The tensors that were made. -/
def tensorsOf (made : List (Spec × Except Failure Tensor)) : List Tensor :=
  made.filterMap fun m => m.2.toOption

theorem tensorsOf_concat_error (made : List (Spec × Except Failure Tensor)) (spec : Spec) (e : Failure) :
    tensorsOf (made ++ [(spec, .error e)]) = tensorsOf made := by
  rw [tensorsOf, List.filterMap_append]
  exact List.append_nil _

theorem tensorsOf_concat_ok (made : List (Spec × Except Failure Tensor)) (spec : Spec) (t : Tensor) :
    tensorsOf (made ++ [(spec, .ok t)]) = tensorsOf made ++ [t] :=
  List.filterMap_append

/-- What holds of the tensors that have been made from a counter. -/
structure Issued (first last : Tag) (n : Node α) (tensors : List Tensor) : Prop where
  le : first.val ≤ last.val
  lt : last.val < Word.limit
  within : ∀ t ∈ tensors, first.val ≤ t.tags.first.val ∧ t.tags.stop.val ≤ last.val
  ordered : tensors.Pairwise fun t t' => t.tags.stop.val ≤ t'.tags.first.val
  bound : ∀ t ∈ tensors, ∀ tile ∈ t.tiles, tile.handle < n.handles.length
  carried : ∀ t ∈ tensors,
    n.carried t = (List.range t.tiles.length).map fun i => some ⟨t.tag.val + i⟩

variable {n n' n₀ : Node α} {first last : Tag} {tensors : List Tensor}

theorem carried_of_setting (hs : n'.setting = n.setting) (t : Tensor) :
    n'.carried t = n.carried t :=
  List.map_congr_left fun tile _ => tag_of_setting hs tile.handle

/-- Buffers that are made later change nothing about the earlier ones. -/
theorem carried_append (own : List (Handle α)) {t : Tensor}
    (ht : ∀ tile ∈ t.tiles, tile.handle < n.handles.length) :
    carried { n with handles := n.handles ++ own } t = n.carried t := by
  refine List.map_congr_left fun tile htile => ?_
  rw [handle_append_left own (ht tile htile)]

/-- The buffers of a tensor carry the tags of its design. -/
theorem carried_layTiles (n : Node α) (tiling : Tiling) (first : Tag)
    {tiles : List Tensor.Blueprint}
    (htags : tiles.map (·.tag.val) = List.range' first.val tiles.length) :
    carried { n with handles := n.handles ++ tiles.map Tensor.Blueprint.handle }
        ⟨tiling, first, Tensor.layTiles n.handles.length tiles⟩ =
      (List.range tiles.length).map fun i => some ⟨first.val + i⟩ := by
  refine List.ext_getElem? fun k => ?_
  rw [carried, List.getElem?_map, List.getElem?_map]
  by_cases hk : k < tiles.length
  · have htile := Tensor.getElem?_layTiles (h := n.handles.length).mpr
      ⟨tiles[k], List.getElem?_eq_getElem hk, rfl⟩
    have htag : (tiles[k]).tag.val = first.val + k := by
      have hget := congrArg (·[k]?) htags
      rw [List.getElem?_map, List.getElem?_eq_getElem hk, List.getElem?_range' hk, Nat.one_mul] at hget
      exact Option.some.inj hget
    rw [htile, List.getElem?_range hk, Option.map_some, Option.map_some, handle_append_right,
      List.getD_eq_getElem?_getD, List.getElem?_map, List.getElem?_eq_getElem hk]
    show some (some (tiles[k]).tag) = _
    rw [← htag]
  · have hlen : (Tensor.layTiles n.handles.length tiles).length = tiles.length := by
      rw [Tensor.layTiles, List.length_map, List.length_zipIdx]
    have hle : tiles.length ≤ k := Nat.le_of_not_lt hk
    rw [List.getElem?_eq_none (hlen ▸ hle), List.getElem?_eq_none (List.length_range.symm ▸ hle)]
    rfl

namespace Issued

/-- What happens to a rank changes no tags. -/
theorem of_setting (hi : Issued first last n tensors) (hs : n'.setting = n.setting) :
    Issued first last n' tensors := by
  refine ⟨hi.le, hi.lt, hi.within, hi.ordered, fun t ht tile htile => ?_, fun t ht => ?_⟩
  · exact length_of_setting hs ▸ hi.bound t ht tile htile
  · exact (carried_of_setting hs t).trans (hi.carried t ht)

/-- A tensor that is made comes after all others. -/
theorem make (hi : Issued first last n tensors) {tiling : Tiling} {tiles : List Tensor.Blueprint}
    (hfit : last.val + tiles.length < Word.limit)
    (htags : tiles.map (·.tag.val) = List.range' last.val tiles.length) :
    Issued first ⟨last.val + tiles.length⟩
      { n with handles := n.handles ++ tiles.map Tensor.Blueprint.handle }
      (tensors ++ [⟨tiling, last, Tensor.layTiles n.handles.length tiles⟩]) := by
  have hlen : (Tensor.layTiles n.handles.length tiles).length = tiles.length := by
    rw [Tensor.layTiles, List.length_map, List.length_zipIdx]
  refine ⟨Nat.le_trans hi.le (Nat.le_add_right _ _), hfit, fun t ht => ?_, ?_, fun t ht tile htile => ?_,
    fun t ht => ?_⟩
  · rcases List.mem_append.mp ht with ht | ht
    · obtain ⟨hle, hstop⟩ := hi.within t ht
      exact ⟨hle, Nat.le_trans hstop (Nat.le_add_right _ _)⟩
    · obtain rfl := List.mem_singleton.mp ht
      exact ⟨hi.le, Nat.le_of_eq (congrArg (last.val + ·) hlen)⟩
  · refine List.pairwise_append.mpr ⟨hi.ordered, List.pairwise_singleton _ _, fun t ht t' ht' => ?_⟩
    obtain rfl := List.mem_singleton.mp ht'
    exact (hi.within t ht).2
  · show tile.handle < (n.handles ++ _).length
    rw [List.length_append, List.length_map]
    rcases List.mem_append.mp ht with ht | ht
    · exact Nat.lt_of_lt_of_le (hi.bound t ht tile htile) (Nat.le_add_right _ _)
    · obtain rfl := List.mem_singleton.mp ht
      have hmem := List.mem_map_of_mem (f := Tile.handle) htile
      rw [Tensor.map_handle_layTiles, List.mem_range'_1] at hmem
      exact hmem.2
  · rcases List.mem_append.mp ht with ht | ht
    · rw [carried_append _ (hi.bound t ht)]
      exact hi.carried t ht
    · obtain rfl := List.mem_singleton.mp ht
      rw [carried_layTiles n tiling last htags, hlen]

end Issued

section

variable [Scalar α] {made : List (Spec × Except Failure Tensor)}

/-- An era goes on in one of three ways: a construction fails, a tensor is made, or something else
happens to the rank. -/
theorem Era.stepwise {motive : ∀ made n last, n₀.Era first made n last → Prop}
    (nil : motive [] n₀ first .nil)
    (fails : ∀ {made n last} (spec : Spec) (e : Failure) (era : n₀.Era first made n last)
      (era' : n₀.Era first (made ++ [(spec, .error e)]) n last),
      spec.next n.size last = .error e → motive made n last era → motive _ n last era')
    (makes : ∀ {made n last} (spec : Spec) (tiles : List Tensor.Blueprint)
      (era : n₀.Era first made n last)
      (era' : n₀.Era first
        (made ++ [(spec, .ok ⟨spec.tiling, last, Tensor.layTiles n.handles.length tiles⟩)])
        { n with handles := n.handles ++ tiles.map Tensor.Blueprint.handle }
        ⟨last.val + tiles.length⟩),
      spec.next n.size last = .ok ⟨last.val + tiles.length⟩ →
      Tensor.design spec.tiling (spec.owners n.rank) last = .ok (tiles, ⟨last.val + tiles.length⟩) →
      motive made n last era → motive _ _ _ era')
    (other : ∀ {made n last net net' n'} (a : Happening α) (era : n₀.Era first made n last)
      (step : n.undergo net a = some (net', n')),
      motive made n last era → motive made n' last (.other a era step))
    {made n last} (era : n₀.Era first made n last) : motive made n last era := by
  induction era with
  | nil => exact nil
  | @construct made n last spec era ih =>
    have hc := n.constructs last spec
    have era' := era.construct spec
    show motive _ _ _ era'
    generalize n.construct last spec = p at hc era'
    cases hc with
    | fails e next => exact fails spec e era era' next ih
    | makes tiles next design => exact makes spec tiles era era' next design ih
  | other a era step ih => exact other a era step ih

theorem Era.size (era : n₀.Era first made n last) : n.size = n₀.size := by
  induction era using Era.stepwise with
  | nil => rfl
  | fails spec e era _ next ih => exact ih
  | makes spec tiles era _ next design ih => exact ih
  | other a era step ih => exact (size_of_setting (setting_of_undergo step)).trans ih

/-- What was made is what the counter allots, on every rank alike. -/
theorem Era.allot (era : n₀.Era first made n last) :
    (made.map fun m => m.2.map Tensor.tags, last) =
      Spec.allot n₀.size first (made.map (·.1)) := by
  induction era using Era.stepwise with
  | nil => rfl
  | fails spec e era _ next ih =>
    rw [List.map_append, List.map_append, List.map_singleton, List.map_singleton, Spec.allot_append,
      ← ih, ← era.size, Spec.allot_of_error next]
    rfl
  | @makes made n last spec tiles era _ next design ih =>
    have hlen : (Tensor.layTiles n.handles.length tiles).length = tiles.length := by
      rw [Tensor.layTiles, List.length_map, List.length_zipIdx]
    rw [List.map_append, List.map_append, List.map_singleton, List.map_singleton, Spec.allot_append,
      ← ih, ← era.size, Spec.allot_of_ok next, Except.map, Tensor.tags, hlen]
    rfl
  | other a era step ih => exact ih

theorem Era.issued (era : n₀.Era first made n last) (hfirst : first.val < Word.limit) :
    Issued first last n (tensorsOf made) := by
  induction era using Era.stepwise with
  | nil => exact ⟨Nat.le_refl _, hfirst, nofun, .nil, nofun, nofun⟩
  | fails spec e era _ next ih =>
    rw [tensorsOf_concat_error]
    exact ih
  | makes spec tiles era _ next design ih =>
    obtain ⟨tiles', htiles, hdesign⟩ := bind_eq_ok design
    obtain ⟨next', hnext, hdesign⟩ := bind_eq_ok hdesign
    obtain ⟨rfl, rfl⟩ := Prod.mk.inj (Except.ok.inj hdesign)
    have htags := (Tensor.tags_of_blueprintsFrom htiles).1
    have hlen := congrArg List.length htags
    rw [List.length_map, List.length_range'] at hlen
    rw [Nat.add_zero, ← hlen] at htags
    rw [tensorsOf_concat_ok]
    refine ih.make ?_ htags
    unfold Spec.next at next
    split at next
    · cases next
    · split at next
      · rename_i hfit
        rwa [Tag.mk.inj (Except.ok.inj next)] at hfit
      · cases next
  | other a era step ih => exact ih.of_setting (setting_of_undergo step)

end

end Node

/-! ## Giving tensors up -/

namespace Cluster

/-- Under a tag the mailboxes hold the same messages and the same receives, of which the same has
become. -/
structure SameUnder (c c' : Cluster) (tag : Tag) : Prop where
  messages : ∀ r src, c'.messages r ⟨src, tag⟩ = c.messages r ⟨src, tag⟩
  waiters : ∀ r src, c'.waiters r ⟨src, tag⟩ = c.waiters r ⟨src, tag⟩
  receipts : ∀ r src, ∀ t ∈ c.waiters r ⟨src, tag⟩, c'.receipts.find? t = c.receipts.find? t

/-- Retiring other tags changes nothing under a tag. -/
theorem Follows.sameUnder_retire {c : Cluster} {e : Exchange} (hf : c.Follows e) {rank : Rank}
    (hrank : rank < c.size) {range : TagRange} {tag : Tag} (hout : ¬range.contains tag = true) :
    c.SameUnder (c.retire rank range) tag := by
  have hqueues : ∀ r src,
      (c.retire rank range).messages r ⟨src, tag⟩ = c.messages r ⟨src, tag⟩ ∧
        (c.retire rank range).waiters r ⟨src, tag⟩ = c.waiters r ⟨src, tag⟩ := fun r src =>
    hf.queues_unmoved (a := .retire rank range) hrank fun h => hout h.2
  refine ⟨fun r src => (hqueues r src).1, fun r src => (hqueues r src).2, fun r src t ht => ?_⟩
  rw [(hf.retire range hrank).receipts, hf.receipts]
  refine Exchange.receipt_retire_of_not fun hwait r' ch' hheld hcover => hout ?_
  -- a receive that waits in the queue of a channel is known on that channel and no other
  have hmem : t ∈ (e.pipes r ⟨src, tag⟩).current.unserved :=
    hf.waiters r _ ▸ List.mem_filter.mpr ⟨ht, by rw [hheld]; rfl⟩
  have hown := hf.sound.held_of_mem_unserved (by rw [hheld]; rfl) hmem
  rw [hheld, Option.some.injEq, Prod.mk.injEq] at hown
  rw [hown.2] at hcover
  exact hcover.2

end Cluster

namespace Node

open Tensor (Spec)

variable [Scalar α] {n₀ n : Node α} {first last : Tag} {made : List (Spec × Except Failure Tensor)}
  {t : Tensor}

omit [Scalar α] in
/-- The tags of a tensor that is given up are those that it was made with. -/
theorem Issued.dropTensor {tensors : List Tensor} (hi : Issued first last n tensors)
    (ht : t ∈ tensors) : n.dropTensor t = n.retire (t.tiles.map (·.handle)) t.tags := by
  have hfit : t.tag.val + t.tiles.length < Word.limit :=
    Nat.lt_of_le_of_lt (hi.within t ht).2 hi.lt
  rw [Node.dropTensor, Tag.offset_eq, if_pos hfit]
  rfl

omit [Scalar α] in
/-- No tag belongs to two tensors. -/
theorem Issued.disjoint {tensors : List Tensor} (hi : Issued first last n tensors) :
    tensors.Pairwise fun t t' => ∀ tag, ¬(t.tags.contains tag = true ∧ t'.tags.contains tag = true) := by
  refine hi.ordered.imp fun hle tag h => ?_
  have hlt := (TagRange.contains_iff.mp h.1).2
  have hge := (TagRange.contains_iff.mp h.2).1
  omega

omit [Scalar α] in
/-- What a tensor carries can be told from its tags. -/
theorem Issued.map_carried (hi : Issued first last n (tensorsOf made)) :
    (made.map fun m => m.2.map n.carried) =
      (made.map fun m => m.2.map Tensor.tags).map fun r => r.map fun r =>
        (List.range (r.stop.val - r.first.val)).map fun i => some ⟨r.first.val + i⟩ := by
  rw [List.map_map]
  refine List.map_congr_left fun m hm => ?_
  obtain ⟨spec, outcome⟩ := m
  cases outcome with
  | error e => rfl
  | ok t =>
    have ht : t ∈ tensorsOf made := List.mem_filterMap.mpr ⟨_, hm, rfl⟩
    have hlen : t.tags.stop.val - t.tags.first.val = t.tiles.length :=
      Nat.add_sub_cancel_left _ _
    show Except.ok (n.carried t) = Except.ok ((List.range (t.tags.stop.val - t.tags.first.val)).map _)
    rw [hi.carried t ht, hlen]
    rfl

/-- Tags that a rank hands out over any course, with constructions that succeed, are rejected or
overflow: no tag belongs to two tensors, and tile `i` of a tensor carries the tag `i` places after
the first, which is a word.  A construction that fails leaves the counter and the rank alone.  A
tensor that is given up retires its own tags, and nothing changes under those of another.  Another
rank of a world of the same size that asks for the same tensors from the same counter has the same
tags on every tile and ends with the same counter. -/
theorem Era.tags_apart_and_agree (era : n₀.Era first made n last) (bound : first.val < Word.limit) :
    (tensorsOf made).Pairwise
      (fun t t' => ∀ tag, ¬(t.tags.contains tag = true ∧ t'.tags.contains tag = true)) ∧
    (∀ t ∈ tensorsOf made, t.tags.stop.val < Word.limit ∧
      n.carried t = (List.range t.tiles.length).map fun i => some ⟨t.tag.val + i⟩) ∧
    (∀ spec : Spec, match spec.next n₀.size last with
      | .error e => n.construct last spec = ((n, last), .error e)
      | .ok next => ∃ own t, t.tags = ⟨last, next⟩ ∧
        n.construct last spec = (({ n with handles := n.handles ++ own }, next), .ok t)) ∧
    (∀ t ∈ tensorsOf made, n.dropTensor t = n.retire (t.tiles.map (·.handle)) t.tags) ∧
    (tensorsOf made).Pairwise (fun t t' => ∀ (size : Nat) (as : List Cluster.Action) (rank : Rank),
      (∀ a ∈ as, a.AtHome size) → rank < size → ∀ tag,
        (t'.tags.contains tag = true → ((Cluster.ofSize size).after as).SameUnder
          (((Cluster.ofSize size).after as).retire rank t.tags) tag) ∧
        (t.tags.contains tag = true → ((Cluster.ofSize size).after as).SameUnder
          (((Cluster.ofSize size).after as).retire rank t'.tags) tag)) ∧
    ∀ (n₀' n' : Node α) (made' : List (Spec × Except Failure Tensor)) (last' : Tag),
      n₀'.Era first made' n' last' → n₀'.size = n₀.size → made'.map (·.1) = made.map (·.1) →
        last' = last ∧
        (made'.map fun m => m.2.map Tensor.tags) = made.map (fun m => m.2.map Tensor.tags) ∧
        (made'.map fun m => m.2.map n'.carried) = made.map fun m => m.2.map n.carried := by
  have hi := era.issued bound
  refine ⟨hi.disjoint, fun t ht => ⟨?_, hi.carried t ht⟩, fun spec => ?_,
    fun t ht => hi.dropTensor ht, ?_, ?_⟩
  · exact Nat.lt_of_le_of_lt (hi.within t ht).2 hi.lt
  · rw [← era.size]
    have hc := n.constructs last spec
    generalize n.construct last spec = p at hc
    cases hc with
    | fails e next => rw [next]
    | makes tiles next design =>
      rw [next]
      refine ⟨_, _, ?_, rfl⟩
      rw [Tensor.tags, Tensor.layTiles, List.length_map, List.length_zipIdx]
  · refine hi.disjoint.imp fun hapart size as rank has hrank tag => ?_
    have hsize : (Cluster.ofSize size).size = size := List.length_replicate
    have hf := ((Cluster.follows_ofSize size).after as fun a ha => hsize.symm ▸ has a ha).2
    have hrank' : rank < ((Cluster.ofSize size).after as).size := by
      rw [hf.size, Exchange.size_after]
      exact hrank
    exact ⟨fun ht' => hf.sameUnder_retire hrank' fun ht => hapart tag ⟨ht, ht'⟩,
      fun ht => hf.sameUnder_retire hrank' fun ht' => hapart tag ⟨ht, ht'⟩⟩
  · intro n₀' n' made' last' era' hsize hspecs
    have hallot := era'.allot
    rw [hsize, hspecs, ← era.allot, Prod.mk.injEq] at hallot
    refine ⟨hallot.2, hallot.1, ?_⟩
    rw [(era'.issued bound).map_carried, hallot.1, hi.map_carried]

/-- Tilings of a line into two tiles, and into one. -/
def halves : Tiling where
  whole := ⟨[4], [1], 4, rfl⟩
  basetile := [2]
  grid := ⟨[2], [1], 2, rfl⟩
  ranks := rfl
  positive := by decide
  cut := rfl

def undivided : Tiling where
  whole := ⟨[4], [1], 4, rfl⟩
  basetile := [4]
  grid := ⟨[1], [1], 1, rfl⟩
  ranks := rfl
  positive := by decide
  cut := rfl

/-- Where tags run out: the second tensor has an owner outside the world, and after it the first one
is given up; the third would take the last tag there is, and the fourth is the last that fits. -/
theorem Era.tags_apart_and_agree_of_overflow :
    ∃ (n : Node (ElementType.Value .i64)) (made : List (Spec × Except Failure Tensor)) (last : Tag),
      ({ rank := 0, size := 2, codelets := [] } : Node (ElementType.Value .i64)).Era
        ⟨Word.limit - 4⟩ made n last ∧ (Word.limit - 4) < Word.limit ∧
      made.map (fun m => (m.1, m.2.map n.carried)) =
        [(.shared halves [0, 1], .ok [some ⟨Word.limit - 4⟩, some ⟨Word.limit - 3⟩]),
          (.shared halves [0, 2], .error (.tensor (.ownerOutside 1 2 2))),
          (.own halves, .error (.fault .overflow)),
          (.shared undivided [1], .ok [some ⟨Word.limit - 2⟩])] ∧
      last = ⟨Word.limit - 1⟩ ∧
      (tensorsOf made).Pairwise
        (fun t t' => ∀ tag, ¬(t.tags.contains tag = true ∧ t'.tags.contains tag = true)) := by
  have era : Era ({ rank := 0, size := 2, codelets := [] } : Node (ElementType.Value .i64))
    ⟨Word.limit - 4⟩ [] _ _ := .nil
  have era := (era.construct (.shared halves [0, 1])).construct (.shared halves [0, 2])
  have era := @Era.other _ _ _ _ _ _ _ (.ofSize 2) _ _
    (.retire [0, 1] ⟨⟨Word.limit - 4⟩, ⟨Word.limit - 2⟩⟩) era rfl
  have era := (era.construct (.own halves)).construct (.shared undivided [1])
  exact ⟨_, _, _, era, by decide, rfl, rfl, (era.tags_apart_and_agree (by decide)).1⟩

end Node

end TiledTensor
