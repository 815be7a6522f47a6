import TiledTensor.Proofs.Jobs
import TiledTensor.Proofs.Lengths

/-!
# Collective calls are made whole

A collective call that is refused, that overflows, or that has nothing to copy leaves its rank as it
was.  One that has an effect comes to its end: the rest is computed without a fault, the runtime
refuses none of its calls, and the operations that it submits run to their end whenever they come to
run.

The calls of a script are made one after the other while the scheduler, the workers and the receives
go on (`Node.Executes`).  A rank may copy from a tile that it has just fetched because nothing takes
the copy away from it in between.
-/

namespace TiledTensor

open Tensor (Spec)

variable {α : Type}

namespace Node

variable {n n' m n₀ : Node α} {net net' : Cluster} {t src dst : Tensor} {tile s d : Tile} {op : Op α}

/-! ## The tensors of a rank -/

/-- The tiles of a tensor have buffers on a rank, which take part in transfers. -/
structure Bears (n : Node α) (t : Tensor) : Prop where
  formed : t.Formed
  label : ∀ tile ∈ t.tiles, ∃ tag,
    (n.handle tile.handle).label = (some tag, tile.owner, tile.layout.count)
  within : ∀ tile ∈ t.tiles, tile.owner < n.size

namespace Bears

theorem tag (hb : n.Bears t) (ht : tile ∈ t.tiles) : ∃ tag, (n.handle tile.handle).tag = some tag := by
  obtain ⟨tag, h⟩ := hb.label tile ht
  exact ⟨tag, (Prod.mk.inj h).1⟩

theorem owner (hb : n.Bears t) (ht : tile ∈ t.tiles) : (n.handle tile.handle).owner = tile.owner := by
  obtain ⟨tag, h⟩ := hb.label tile ht
  exact (Prod.mk.inj (Prod.mk.inj h).2).1

theorem count (hb : n.Bears t) (ht : tile ∈ t.tiles) :
    (n.handle tile.handle).count = tile.layout.count := by
  obtain ⟨tag, h⟩ := hb.label tile ht
  exact (Prod.mk.inj (Prod.mk.inj h).2).2

theorem lt (hb : n.Bears t) (ht : tile ∈ t.tiles) : tile.handle < n.handles.length := by
  obtain ⟨tag, h⟩ := hb.tag ht
  exact lt_of_tag h

theorem of_setting (hb : n.Bears t) (hs : n'.setting = n.setting) : n'.Bears t := by
  refine ⟨hb.formed, fun tile ht => ?_, fun tile ht => ?_⟩
  · rw [label_of_setting hs]
    exact hb.label tile ht
  · rw [size_of_setting hs]
    exact hb.within tile ht

theorem append (hb : n.Bears t) (own : List (Handle α)) :
    Bears { n with handles := n.handles ++ own } t := by
  refine ⟨hb.formed, fun tile ht => ?_, hb.within⟩
  rw [handle_append_left own (hb.lt ht)]
  exact hb.label tile ht

end Bears

/-- The tensor that is made has its buffers after the earlier ones. -/
theorem bears_layTiles {tiling : Tiling} {owners : List Rank} {first next : Tag}
    {tiles : List Tensor.Blueprint} (design : Tensor.design tiling owners first = .ok (tiles, next))
    (hcount : owners.length = tiling.grid.count) (howners : ∀ o ∈ owners, o < n.size) :
    Bears { n with handles := n.handles ++ tiles.map Tensor.Blueprint.handle }
      ⟨tiling, first, Tensor.layTiles n.handles.length tiles⟩ := by
  have hget : ∀ tile ∈ Tensor.layTiles n.handles.length tiles, ∃ k b, tiles[k]? = some b ∧
      tile = ⟨b.layout, n.handles.length + k, b.owner⟩ := by
    intro tile ht
    obtain ⟨k, hk⟩ := List.mem_iff_getElem?.mp ht
    obtain ⟨b, hb, heq⟩ := Tensor.getElem?_layTiles.mp hk
    exact ⟨k, b, hb, heq⟩
  refine ⟨Tensor.formed_of_design design hcount _, fun tile ht => ?_, fun tile ht => ?_⟩
  · obtain ⟨k, b, hb, rfl⟩ := hget tile ht
    refine ⟨b.tag, ?_⟩
    rw [handle_append_right, List.getD_eq_getElem?_getD, List.getElem?_map, hb]
    rfl
  · obtain ⟨k, b, hb, rfl⟩ := hget tile ht
    refine howners _ ?_
    rw [← (Tensor.tiles_of_design design).2.1]
    exact List.mem_map_of_mem (List.mem_of_getElem? hb)

variable [Scalar α] {first last : Tag} {made : List (Spec × Except Failure Tensor)}

omit [Scalar α] in
theorem owners_of_next {size : Nat} {spec : Spec} {next : Tag} (h : spec.next size last = .ok next)
    {r : Rank} (hr : r < size) : (spec.owners r).length = spec.tiling.grid.count ∧
      ∀ o ∈ spec.owners r, o < size := by
  have hplaced : spec.misplaced size = none := by
    unfold Spec.next at h
    split at h
    · cases h
    · assumption
  refine ⟨Spec.length_owners r hplaced, ?_⟩
  cases spec with
  | shared tiling owners => exact (owners_of_misplaced hplaced).2
  | own tiling =>
    intro o ho
    rwa [List.eq_of_mem_replicate ho]

theorem Era.rank (era : n₀.Era first made n last) : n.rank = n₀.rank := by
  induction era using Era.stepwise with
  | nil => rfl
  | fails spec e era _ next ih => exact ih
  | makes spec tiles era _ next design ih => exact ih
  | other a era step ih => exact (rank_of_setting (setting_of_undergo step)).trans ih

/-- A rank has buffers for all tensors that it has made, different ones for different tensors. -/
theorem Era.bears (era : n₀.Era first made n last) (rank : n₀.rank < n₀.size) :
    (∀ t ∈ tensorsOf made, n.Bears t) ∧ (tensorsOf made).Pairwise Tensor.Apart := by
  induction era using Era.stepwise with
  | nil => exact ⟨nofun, .nil⟩
  | fails spec e era _ next ih =>
    rw [tensorsOf_concat_error]
    exact ih
  | @makes made n last spec tiles era _ next design ih =>
    have hr : n.rank < n.size := by
      rw [era.rank, era.size]
      exact rank
    obtain ⟨hcount, howners⟩ := owners_of_next next hr
    have hnew := bears_layTiles (n := n) design hcount howners
    rw [tensorsOf_concat_ok]
    refine ⟨fun t ht => ?_, List.pairwise_append.mpr ⟨ih.2, List.pairwise_singleton _ _, ?_⟩⟩
    · rcases List.mem_append.mp ht with ht | ht
      · exact (ih.1 t ht).append _
      · obtain rfl := List.mem_singleton.mp ht
        exact hnew
    · intro t ht t' ht' tile htile tile' htile'
      obtain rfl := List.mem_singleton.mp ht'
      have hmem := List.mem_map_of_mem (f := Tile.handle) htile'
      rw [Tensor.map_handle_layTiles, List.mem_range'_1] at hmem
      exact Nat.ne_of_lt (Nat.lt_of_lt_of_le ((ih.1 t ht).lt htile) hmem.1)
  | other a era step ih =>
    exact ⟨fun t ht => (ih.1 t ht).of_setting (setting_of_undergo step), ih.2⟩

/-- Tensors are not lost as time goes on. -/
theorem Bears.later {more : List (Spec × Except Failure Tensor)} {last' : Tag} (hb : n.Bears t)
    (era : n.Era last more m last') : m.Bears t := by
  induction era using Era.stepwise with
  | nil => exact hb
  | fails spec e era _ next ih => exact ih
  | makes spec tiles era _ next design ih => exact ih.append _
  | other a era step ih => exact ih.of_setting (setting_of_undergo step)

/-! ## Calls one after the other -/

/-- A copy that a rank has is given up: it is flushed, or its receive fails. -/
inductive Lapses (net : Cluster) (n : Node α) : Happening α → Prop
  | flushes (h : HandleId) : Lapses net n (.flush h)
  | fails (i : Nat) (c : Arrival) (r : Receipt) (m : Node α) (e : TaskError)
      (arrival : n.arrivals[i]? = some c) (receipt : net.receipts.find? c.ticket = some r)
      (fails : Fails { n with arrivals := n.arrivals.eraseIdx i } c r m e) : Lapses net n (.arrive i)

/-- Calls are made one after the other, up to the first that fails, while other things happen that
do not take a copy away. -/
inductive Executes : Node α → List (Call α) → Node α → Except TaskError Unit → Prop
  | done (n : Node α) : Executes n [] n (.ok ())
  | meanwhile {n net net' m calls n' result} (a : Happening α)
      (step : n.undergo net a = some (net', m)) (holds : ¬n.Lapses net a)
      (rest : Executes m calls n' result) : Executes n calls n' result
  | call {n calls n' result} (c : Call α) (ok : (n.call c).2 = .ok ())
      (rest : Executes (n.call c).1 calls n' result) : Executes n (c :: calls) n' result
  | fails {n calls} (c : Call α) (e : TaskError) (error : (n.call c).2 = .error e) :
      Executes n (c :: calls) (n.call c).1 (.error e)

/-- A rank has a buffer, or knows of a copy. -/
def Resident (n : Node α) (h : HandleId) : Prop :=
  (n.handle h).owner = n.rank ∨ (n.handle h).state = .remoteCached

/-- What is resident stays so unless it is given up. -/
theorem Resident.undergo {a : Happening α} {h : HandleId} (hr : n.Resident h)
    (step : n.undergo net a = some (net', n')) (holds : ¬n.Lapses net a) : n'.Resident h := by
  unfold Resident at hr ⊢
  have hset := setting_of_undergo step
  rw [owner_of_setting hset, rank_of_setting hset]
  refine or_iff_not_imp_left.mpr fun hf => ?_
  have hs := hr.resolve_left hf
  by_cases ha : a.isCall = true
  · cases a with
    | transfer j r =>
      cases step
      exact (state_transfer n j h r).elim (fun hsame => hsame.trans hs) id
    | flush j => exact absurd (.flushes j) holds
    | take => cases ha
    | work i => cases ha
    | arrive i => cases ha
    | _ => exact (((edits_of_undergo ha step).marks rfl).2 hf).trans hs
  · rcases bare_or_abandons (Bool.eq_false_iff.mpr ha) step h with
      hbare | ⟨i, c, r, m, e, rfl, hc, hr, fails, -, -⟩
    · exact (state_of_bare hbare).trans hs
    · exact absurd (.fails i c r m e hc hr fails) holds

/-! ## What the runtime accepts -/

section

omit [Scalar α]

theorem enqueue_ok (n : Node α) (hn : n.scheduler.isSome) (name : String)
    (uses : List (HandleId × Access)) (job : Job α) :
    ((n.enqueue name uses job).2.map fun _ => ()) = .ok () := by
  unfold enqueue
  dsimp only
  rw [if_pos hn]
  rfl

variable (hn : n.scheduler.isSome)
include hn

/-- A tile of a tensor can be fetched, and is resident afterwards where it was fetched to. -/
theorem transfer_ok (hb : n.Bears t) (ht : tile ∈ t.tiles) {r : Rank} (hr : r < n.size) :
    (n.transfer tile.handle r).2 = .ok () ∧
      (r = n.rank → (n.transfer tile.handle r).1.Resident tile.handle) := by
  obtain ⟨tag, htag⟩ := hb.tag ht
  unfold transfer Resident
  dsimp only
  rw [if_neg (Nat.not_le.mpr hr)]
  split
  · rename_i ho
    exact ⟨rfl, fun hself => Or.inl (ho.trans hself)⟩
  · rw [htag]
    dsimp only
    split
    · split
      · rename_i hs
        exact ⟨rfl, fun _ => Or.inr hs⟩
      · refine ⟨enqueue_ok (n.setHandle _ _) hn _ _ _, fun _ => Or.inr ?_⟩
        rw [handle_of_handles (enqueue_handles _ _ _ _), handle_setHandle, if_pos ⟨rfl, hb.lt ht⟩]
        rfl
    · rename_i hself
      refine ⟨?_, fun h => absurd h.symm hself⟩
      split
      · split
        · rfl
        · exact enqueue_ok (n.setHandle _ _) hn _ _ _
      · rfl

theorem flush_ok (h : HandleId) : (n.flush h).2 = .ok () := by
  unfold flush
  split
  · rfl
  · exact enqueue_ok (n.setHandle _ _) hn _ _ _

theorem submit_ok (h : n.rejection op .cpu = none) : (n.submit op).2 = .ok () := by
  have hmark : (n.markWritten op.uses).scheduler.isSome := by
    rw [(onlyBuffers_markWritten n op.uses).scheduler]
    exact hn
  unfold submit submitOn
  rw [h]
  exact enqueue_ok _ hmark _ _ _

end

/-- The operations that come with the library. -/
def defaultOps : List String := ["copy", "copy_intersection", "clear"]

omit [Scalar α] in
/-- What is registered, does not clash and meets no obstacle is accepted. -/
theorem accepts_of (name : op.name ∈ n.codelets) (clash : firstClash op.operands = none)
    (obstacle : ∀ u ∈ op.uses, n.obstacle u.1 u.2 = none) : n.rejection op .cpu = none := by
  unfold rejection
  dsimp only
  rw [if_pos name, clash, List.findSome?_eq_none_iff.mpr obstacle]
  rfl

theorem rejection_clear (hc : ∀ name ∈ defaultOps, name ∈ n.codelets)
    (ho : (n.handle d.handle).owner = n.rank) : n.rejection (Op.clear d) .cpu = none := by
  refine accepts_of (hc "clear" (by decide)) rfl fun u hu => ?_
  obtain rfl : u = (d.handle, .write) := by simpa [Op.uses, Op.clear, Operand.use?] using hu
  exact if_pos (Or.inr ho)

/-- A copy is rejected neither for its buffers, if they are different, nor for where they are. -/
theorem rejection_copies (hc : ∀ name ∈ defaultOps, name ∈ n.codelets) (hop : op.Copies s d)
    (hne : s.handle ≠ d.handle) (hs : n.Resident s.handle)
    (ho : (n.handle d.handle).owner = n.rank) : n.rejection op .cpu = none := by
  have hread : n.obstacle s.handle .read = none := by
    rcases hs with hs | hs
    · exact if_pos (Or.inr hs)
    · simp [obstacle, Access.writes, hs]
  have hwrite : ∀ a, n.obstacle d.handle a = none := fun a => if_pos (Or.inr ho)
  cases hop with
  | whole =>
    refine accepts_of (hc "copy" (by decide)) ?_ fun u hu => ?_
    · simp [Op.copy, firstClash, clash, hne]
    · obtain rfl | rfl : u = (s.handle, .read) ∨ u = (d.handle, .write) := by
        simpa [Op.uses, Op.copy, Operand.use?] using hu
      · exact hread
      · exact hwrite _
  | shared plan access a b exact =>
    refine accepts_of (hc "copy_intersection" (by decide)) ?_ fun u hu => ?_
    · simp [Op.copyOverlap, firstClash, clash, hne]
    · obtain rfl | rfl : u = (s.handle, .read) ∨
          u = (d.handle, if access = .write then .write else .readWrite) := by
        simpa [Op.uses, Op.copyOverlap, Operand.use?] using hu
      · exact hread
      · exact hwrite _

/-! ## Calls that are accepted -/

/-- What it takes to copy from one tensor onto another. -/
structure Ready (n : Node α) (src dst : Tensor) : Prop where
  source : n.Bears src
  target : n.Bears dst
  apart : src.Apart dst
  codelets : ∀ name ∈ defaultOps, name ∈ n.codelets

theorem Ready.undergo {a : Happening α} (hr : n.Ready src dst)
    (step : n.undergo net a = some (net', n')) : n'.Ready src dst := by
  have hs := setting_of_undergo step
  refine ⟨hr.source.of_setting hs, hr.target.of_setting hs, hr.apart, ?_⟩
  rw [codelets_of_undergo step]
  exact hr.codelets

/-- Calls that copy from one tensor onto another, where a tile may just have been fetched. -/
inductive Midway (n : Node α) (src dst : Tensor) : List (Call α) → Prop
  | between {calls : List (Call α)} (orderly : Tensor.Orderly src dst n.rank calls) :
      Midway n src dst calls
  | fetched {s d : Tile} {op : Op α} {calls : List (Call α)} (source : s ∈ src.tiles)
      (target : d ∈ dst.tiles) (own : d.owner = n.rank) (copies : op.Copies s d)
      (resident : n.Resident s.handle) (rest : Tensor.Orderly src dst n.rank calls) :
      Midway n src dst (.submit op :: calls)

theorem Midway.undergo {a : Happening α} {calls : List (Call α)} (hm : n.Midway src dst calls)
    (step : n.undergo net a = some (net', n')) (holds : ¬n.Lapses net a) :
    n'.Midway src dst calls := by
  have hrank := rank_of_setting (setting_of_undergo step)
  cases hm with
  | between orderly => exact .between (hrank ▸ orderly)
  | fetched source target own copies resident rest =>
    exact .fetched source target (own.trans hrank.symm) copies (resident.undergo step holds)
      (hrank ▸ rest)

/-- A call of a rank happens. -/
theorem exists_happening (net : Cluster) (n : Node α) (c : Call α) :
    ∃ a, n.undergo net a = some (net, (n.call c).1) := by
  cases c with
  | transfer h r => exact ⟨.transfer h r, rfl⟩
  | submit op => exact ⟨.submit op .cpu, rfl⟩
  | flush h => exact ⟨.flush h, rfl⟩

/-- The next call is accepted, and leaves the rank in the middle of the others. -/
theorem Midway.call {c : Call α} {calls : List (Call α)} (hm : n.Midway src dst (c :: calls))
    (hr : n.Ready src dst) (hn : n.scheduler.isSome) :
    (n.call c).2 = .ok () ∧ (n.call c).1.Midway src dst calls := by
  obtain ⟨a, step⟩ := exists_happening (.ofSize 0) n c
  have hrank := rank_of_setting (setting_of_undergo step)
  cases hm with
  | between orderly =>
    cases orderly with
    | flush target rest => exact ⟨flush_ok hn _, .between (hrank ▸ rest)⟩
    | clear target own rest =>
      have ho := (hr.target.owner target).trans own
      exact ⟨submit_ok hn (rejection_clear hr.codelets ho), .between (hrank ▸ rest)⟩
    | transfer source target rest =>
      exact ⟨(transfer_ok hn hr.source source (hr.target.within _ target)).1, .between (hrank ▸ rest)⟩
    | copy source target own copies rest =>
      have hfetch := transfer_ok hn hr.source source (hr.target.within _ target)
      exact ⟨hfetch.1, .fetched source target (own.trans hrank.symm) copies (hfetch.2 own)
        (hrank ▸ rest)⟩
  | fetched source target own copies resident rest =>
    have ho := (hr.target.owner target).trans own
    have haccepts := rejection_copies hr.codelets copies (hr.apart _ source _ target) resident ho
    exact ⟨submit_ok hn haccepts, .between (hrank ▸ rest)⟩

/-- Calls that copy from one tensor onto another are all accepted. -/
theorem Executes.alive {calls : List (Call α)} {result : Except TaskError Unit}
    (he : n.Executes calls n' result) (hn : n'.scheduler.isSome) : n.scheduler.isSome := by
  induction he with
  | done n => exact hn
  | meanwhile a step holds rest ih => exact alive_of_undergo step (ih hn)
  | @call n calls n' result c ok rest ih =>
    obtain ⟨a, step⟩ := exists_happening (.ofSize 0) n c
    exact alive_of_undergo step (ih hn)
  | @fails n calls c e error =>
    obtain ⟨a, step⟩ := exists_happening (.ofSize 0) n c
    exact alive_of_undergo step hn

theorem Executes.accepted {calls : List (Call α)} {result : Except TaskError Unit}
    (he : n.Executes calls n' result) (hm : n.Midway src dst calls) (hr : n.Ready src dst)
    (hn : n'.scheduler.isSome) : result = .ok () := by
  have halive := he.alive hn
  induction he with
  | done n => rfl
  | meanwhile a step holds rest ih =>
    exact ih (hm.undergo step holds) (hr.undergo step) hn (rest.alive hn)
  | @call n calls n' result c ok rest ih =>
    obtain ⟨a, step⟩ := exists_happening (.ofSize 0) n c
    exact ih (hm.call hr halive).2 (hr.undergo step) hn (rest.alive hn)
  | @fails n calls c e error =>
    rw [(hm.call hr halive).1] at error
    cases error

/-- Carrying out calls at once is one way to make them. -/
theorem executes_callAll (n : Node α) (calls : List (Call α)) :
    n.Executes calls (n.callAll calls).1 (n.callAll calls).2 := by
  induction calls generalizing n with
  | nil => exact .done n
  | cons c calls ih =>
    unfold callAll
    rcases hc : n.call c with ⟨m, e | u⟩
    · have hfails : n.Executes (c :: calls) (n.call c).1 (.error e) := .fails c e (by rw [hc])
      rwa [hc] at hfails
    · have hcall := Executes.call c (by rw [hc]) (ih (n.call c).1)
      rwa [hc] at hcall

/-- A collective call on tensors of a rank, made over any course, is refused before its first effect
or not at all.  Where it fails with an error or a fault, and where the two boxes have no place in
common or no elements, nothing is called, and the rank is as it was.  Where it calls anything the
script has no failure.

With two different tensors, the operations of the library and a scheduler that runs to the end, no
call is refused, whatever else happens in between that takes no copy away.  If the bytes of the
tiles can be counted, each operation that was submitted runs to its end on the buffers that it is
given, at any later time. -/
theorem Era.collective_whole {n₀ n : Node α} {first last : Tag}
    {made : List (Spec × Except Failure Tensor)} (era : n₀.Era first made n last)
    (rank : n₀.rank < n₀.size) (even : n₀.Even) (c : Collective (Fin (tensorsOf made).length)) :
    let tensor := (tensorsOf made).get
    let script : Script α := c.script n.rank tensor
    (script.failure ≠ none ∨ c.Misses tensor → script.calls = [] ∧ ∀ m : Node α, m.perform script =
      (m, match script.failure with
        | none => .ok ()
        | some e => .error e)) ∧
    (script.calls ≠ [] → script.failure = none) ∧
    (c.source ≠ c.target → (∀ name ∈ defaultOps, name ∈ n.codelets) →
      (∀ n' result, n.Executes script.calls n' result → n'.scheduler.isSome → result = .ok ()) ∧
      ((∀ i, i = c.source ∨ i = c.target → ∀ tile ∈ (tensor i).tiles,
          tile.layout.count * Scalar.size α < Word.limit) →
        ∀ op, .submit op ∈ script.calls → ∀ more m last', n.Era last more m last' →
          ∀ work views, (Node.openAll { m with work } op.operands).2 = some views →
            ∃ views', op.codelet views = .ok views')) := by
  intro tensor script
  obtain ⟨hbears, hapart⟩ := era.bears rank
  have hb : ∀ i, n.Bears (tensor i) := fun i => hbears _ (List.get_mem _ i)
  have hsound : script.Sound (tensor c.source) (tensor c.target) n.rank :=
    Collective.sound_script (hb _).formed (hb _).formed
  have hcalls : script.failure ≠ none ∨ c.Misses tensor → script.calls = [] := by
    rintro (hfail | hmiss)
    · exact hsound.resolve_right fun h => hfail h.failure
    · exact Collective.calls_of_misses (hb _).formed (hb _).formed hmiss
  refine ⟨fun h => ⟨hcalls h, fun m => ?_⟩, fun h => (hsound.resolve_left h).failure,
    fun hne hops => ⟨fun n' result he hn => ?_, fun hbytes op hop more m last' later work views hv => ?_⟩⟩
  · unfold perform
    rw [hcalls h]
    unfold callAll
    dsimp only
    cases script.failure <;> rfl
  · have hdiffer : (tensor c.source).Apart (tensor c.target) := by
      rcases Nat.lt_or_gt_of_ne (mt Fin.ext hne) with hlt | hgt
      · exact List.pairwise_iff_get.mp hapart _ _ hlt
      · exact (List.pairwise_iff_get.mp hapart _ _ hgt).symm
    exact he.accepted (.between hsound.orderly) ⟨hb _, hb _, hdiffer, hops⟩ hn
  · have heven : Node.Even { m with work } := (later.even (era.even even)).of_handles rfl
    have hkept : ∀ i, m.Bears (tensor i) := fun i => (hb i).later later
    obtain ⟨d, hd, -, rfl | ⟨s, hs, hcopies⟩⟩ := hsound.orderly.submits hop
    · exact Op.clear_runs hv
    · exact hcopies.runs heven ((hkept _).count hs) ((hkept _).count hd)
        (hbytes _ (Or.inl rfl) s hs) (hbytes _ (Or.inr rfl) d hd) hv

/-- Where a source of two tiles, the second of which another rank owns, is copied with an offset
onto one tile of this rank: two tiles are fetched and copied, all calls are accepted, and a copy
runs. -/
theorem Era.collective_whole_of_offset :
    ∃ (n : Node (ElementType.Value .i64)) (made : List (Spec × Except Failure Tensor)) (last : Tag)
      (c : Collective (Fin (tensorsOf made).length)),
      ({ rank := 0, size := 2, codelets := defaultOps } : Node (ElementType.Value .i64)).Era ⟨0⟩ made n
        last ∧ 0 < 2 ∧
      ({ rank := 0, size := 2, codelets := defaultOps } : Node (ElementType.Value .i64)).Even ∧
      let script : Script (ElementType.Value .i64) := c.script n.rank (tensorsOf made).get
      script.calls.length = 5 ∧ script.failure = none ∧ (n.callAll script.calls).2 = .ok () ∧
      ∃ op views views', .submit op ∈ script.calls ∧ (n.openAll op.operands).2 = some views ∧
        op.codelet views = .ok views' := by
  have era : Era ({ rank := 0, size := 2, codelets := defaultOps } : Node (ElementType.Value .i64))
    ⟨0⟩ [] _ _ := .nil
  have era := (era.construct (.shared halves [0, 1])).construct (.shared undivided [0])
  have heven : ({ rank := 0, size := 2, codelets := defaultOps } :
    Node (ElementType.Value .i64)).Even := fun _ => Handle.even_of_absent rfl
  have hwhole := era.collective_whole (by decide) heven
    (.copyIntersection ⟨0, by decide⟩ [1] ⟨1, by decide⟩ [0])
  obtain ⟨haccepted, hruns⟩ := hwhole.2.2 (by decide) fun _ h => h
  refine ⟨_, _, _, _, era, by decide, heven, rfl, hwhole.2.1 (by decide), ?_, ?_⟩
  · exact haccepted _ _ (executes_callAll _ _) rfl
  · obtain ⟨views', hviews⟩ := hruns (by decide) _ (List.mem_cons_of_mem _ List.mem_cons_self) [] _ _
      .nil [] _ rfl
    exact ⟨_, _, views', List.mem_cons_of_mem _ List.mem_cons_self, rfl, hviews⟩

end Node

end TiledTensor
