import TiledTensor.Proofs.Accepted
import TiledTensor.Proofs.Tags
import TiledTensor.Proofs.Upkeep

/-!
# The lengths of blocks

Memory is allocated with as many elements as the buffer has, and nothing changes the length of a
block (`Node.Even`).  So whenever the operations of a collective call come to run, early or late,
the tiles that they are given have the lengths that the boxes were planned for, and they run to
their end (`Op.Copies.runs`).
-/

namespace TiledTensor

variable {α : Type} [Scalar α]

namespace Handle

variable {e e' : Handle α} {block : List α}

/-- The block of a buffer has as many elements as the buffer. -/
def Even (e : Handle α) : Prop := ∀ block, e.memory = .present block → block.length = e.count

omit [Scalar α] in
theorem Even.of_memory (he : e.Even) (hm : e'.memory = e.memory) (hc : e'.count = e.count) :
    e'.Even := fun block hb => (he block (hm ▸ hb)).trans hc.symm

omit [Scalar α] in
theorem even_of_absent (he : e.memory = .absent) : e.Even := fun block hb => by
  rw [he] at hb
  cases hb

omit [Scalar α] in
theorem even_poison (e : Handle α) : e.poison.Even := fun block hb => by cases hb

/-- Opening a buffer shows as many elements as the buffer has. -/
theorem Even.access (he : e.Even) :
    e.access.1.Even ∧ ∀ block, e.access.2 = .ok block → block.length = e.count := by
  unfold Handle.access
  split
  · exact ⟨he, fun block h => by cases h⟩
  · rename_i block hb
    refine ⟨he, fun block' h => ?_⟩
    cases h
    exact he block hb
  · split
    · refine ⟨fun block hb => ?_, fun block h => ?_⟩
      · cases hb
        exact List.length_replicate
      · cases h
        exact List.length_replicate
    · exact ⟨fun block hb => (by cases hb), fun block h => by cases h⟩

omit [Scalar α] in
theorem Even.store (he : e.Even) (block : List α) : (e.store block).Even := by
  unfold Handle.store
  split
  · rename_i old hold
    intro new hnew
    cases hnew
    exact (length_overlay block old).trans (he old hold)
  · exact he

omit [Scalar α] in
theorem even_evict (h : e.evict = .ok e') : e'.Even := by
  unfold Handle.evict at h
  split at h
  · cases h
  · cases h
    exact even_of_absent rfl

theorem kept_even : Kept (Even : Handle α → Prop) where
  relabel he hm hc := he.of_memory hm hc
  access he := he.access.1
  store block he := he.store block
  poison _ := even_poison _
  evict _ freed := even_evict freed

end Handle

/-! ## The blocks of a rank -/

namespace Node

variable {n n' m : Node α} {net net' : Cluster} {t : Task α} {h : HandleId} {e : Handle α}

/-- The blocks of a rank have the lengths of their buffers. -/
def Even (n : Node α) : Prop := ∀ h, (n.handle h).Even

namespace Even

omit [Scalar α] in
theorem of_handles (hn : n.Even) (hh : n'.handles = n.handles) : n'.Even := fun h => by
  rw [handle_of_handles hh]
  exact hn h

theorem openHandle (hn : n.Even) (h : HandleId) : (n.openHandle h).1.Even := fun j =>
  Handle.kept_even.openHandle (hn j) h

omit [Scalar α] in
/-- Buffers that are made have no block yet. -/
theorem append (hn : n.Even) {own : List (Handle α)} (ho : ∀ e ∈ own, e.memory = .absent) :
    Even { n with handles := n.handles ++ own } := fun h => by
  by_cases hh : h < n.handles.length
  · rw [handle_append_left own hh]
    exact hn h
  · obtain ⟨k, rfl⟩ := Nat.exists_eq_add_of_le (Nat.le_of_not_lt hh)
    rw [handle_append_right, List.getD_eq_getElem?_getD]
    cases hget : own[k]? with
    | none => exact Handle.even_of_absent rfl
    | some e => exact Handle.even_of_absent (ho e (List.mem_of_getElem? hget))

end Even

/-- Nothing that happens changes the length of a block. -/
theorem Even.undergo {a : Happening α} (hn : n.Even) (step : n.undergo net a = some (net', n')) :
    n'.Even := fun h => Handle.kept_even.undergo step (hn h)

theorem Era.even {n₀ : Node α} {first last : Tag}
    {made : List (Tensor.Spec × Except Failure Tensor)} (era : n₀.Era first made n last)
    (hn : n₀.Even) : n.Even := by
  induction era using Era.stepwise with
  | nil => exact hn
  | fails spec e era _ next ih => exact ih
  | makes spec tiles era _ next design ih =>
    refine ih.append fun e he => ?_
    obtain ⟨b, -, rfl⟩ := List.mem_map.mp he
    rfl
  | other a era step ih => exact ih.undergo step

/-! ## What an operation is given -/

variable {operands : List Operand} {views : List (View α)} {a : Access}

/-- Opening buffers shows first the block of the first one. -/
theorem openAll_data (hv : (n.openAll (.data h a :: operands)).2 = some views) :
    ∃ block rest, (n.openHandle h).2 = .ok block ∧
      ((n.openHandle h).1.openAll operands).2 = some rest ∧
      views = (if a.writes then .exclusive block else .shared block) :: rest := by
  unfold openAll at hv
  split at hv
  · cases hv
  · rename_i m block hm
    split at hv
    · rename_i m' rest hm'
      cases hv
      exact ⟨block, rest, by rw [hm], by rw [hm, hm'], rfl⟩
    · cases hv

theorem openAll_scratch {bytes : Nat} (hv : (n.openAll (.scratch bytes :: operands)).2 = some views) :
    ∃ rest, (n.openAll operands).2 = some rest ∧ views = .scratch bytes :: rest := by
  unfold openAll at hv
  split at hv
  · obtain ⟨rest, hrest, rfl⟩ := Option.map_eq_some_iff.mp hv
    exact ⟨rest, hrest, rfl⟩
  · cases hv

theorem Even.length_openHandle {block : List α} (hn : n.Even) (ho : (n.openHandle h).2 = .ok block) :
    block.length = (n.handle h).count := (hn h).access.2 block ho

end Node

namespace Op

variable {n : Node α} {s d : Tile} {op : Op α} {views : List (View α)}

/-- A copy that has opened its buffers comes to its end. -/
theorem Copies.runs (hop : op.Copies s d) (hn : n.Even)
    (hs : (n.handle s.handle).count = s.layout.count)
    (hd : (n.handle d.handle).count = d.layout.count)
    (hsb : s.layout.count * Scalar.size α < Word.limit)
    (hdb : d.layout.count * Scalar.size α < Word.limit)
    (hv : (n.openAll op.operands).2 = some views) : ∃ views', op.codelet views = .ok views' := by
  cases hop with
  | whole =>
    obtain ⟨xs, views, -, hs', rfl⟩ := Node.openAll_data hv
    obtain ⟨ys, views, -, hd', rfl⟩ := Node.openAll_data hs'
    cases hd'
    exact ⟨_, rfl⟩
  | shared plan access a b exact =>
    obtain ⟨xs, views, hxs, hs', rfl⟩ := Node.openAll_data hv
    obtain ⟨ys, views, hys, hd', rfl⟩ := Node.openAll_data hs'
    obtain ⟨views, hroom, rfl⟩ := Node.openAll_scratch hd'
    cases hroom
    have hcount : ((n.openHandle s.handle).1.handle d.handle).count = d.layout.count :=
      (Node.count_of_setting (Node.onlyMemory_openHandle n s.handle).setting d.handle).trans hd
    obtain ⟨new, words, hcopy, -⟩ := copy_boxOf exact.inside.1 exact.inside.2 hsb hdb
      ((hn.length_openHandle hxs).trans hs)
      (((hn.openHandle s.handle).length_openHandle hys).trans hcount)
    obtain ⟨v, hcodelet⟩ := Codelet.subBox_eq hcopy
    have hwrite : (if access = .write then Access.write else .readWrite).writes = true := by
      split <;> rfl
    rw [if_pos hwrite]
    exact ⟨_, hcodelet⟩

theorem clear_runs (hv : (n.openAll (Op.clear d : Op α).operands).2 = some views) :
    ∃ views', (Op.clear d).codelet views = .ok views' := by
  obtain ⟨ys, views, -, hd, rfl⟩ := Node.openAll_data hv
  cases hd
  exact ⟨_, rfl⟩

end Op

end TiledTensor
