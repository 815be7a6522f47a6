import TiledTensor.Proofs.TensorScripts

/-!
# Collective calls compute what they mean

However the ranks interleave their calls, tasks and messages, after a sequence of collective calls
the tensors hold what the same calls make of dense arrays, one after the other:
`World.Run.collectives_eq_dense`.

A call does its work on the tiles of one tensor, and what it leaves there is a function of what two
tensors held before (`Computes`).  A call that is refused does nothing, on no rank.
-/

namespace TiledTensor

variable {α : Type} {tiles : List Tensor.Blueprint} {src dst t : Tensor} {srcAt dstAt i : Index}
  {x y : Index → α}

/-! ## Copies of boxes -/

theorem copyBox_of_disjoint (h : Overlap.between srcAt src.shape dstAt dst.shape = .ok none)
    (hlen : dstAt.length = dst.ndim) (hi : dst.shape.contains i = true) :
    copyBox src.shape srcAt x dstAt y i = y i := by
  refine if_neg fun hin => Overlap.disjoint_of_between h ⟨hin, ?_⟩
  exact (Region.holds_plus_iff_contains ((Shape.length_of_contains hi).trans hlen.symm)).mpr hi

/-- A copy of a box onto a box at the same place is a copy of all of it. -/
theorem copyBox_of_same_place {shape : Shape} {a : Index} (ha : a.length = shape.length)
    (hi : shape.contains i = true) : copyBox shape a x a y i = x i := by
  have hlen : i.length = a.length := (Shape.length_of_contains hi).trans ha.symm
  have hin : a.plus i ∈ (⟨a, shape⟩ : Region) := (Region.holds_plus_iff_contains hlen).mpr hi
  rw [copyBox, if_pos hin, Index.plus_minus hlen]

/-! ## What the scripts compute -/

variable [Scalar α] {w₀ : World α}

/-- The calls of the ranks make some moves together, which leave in one tensor a function of what it
and another tensor held. -/
structure Computes (w₀ : World α) (tiles : List Tensor.Blueprint) (script : Rank → Script α)
    (src dst : Tensor) (f : (Index → α) → (Index → α) → Index → α) (moves : List (Move α)) :
    Prop where
  calls : ∀ r, (script r).calls = moves.filterMap (Move.callOn r)
  known : ∀ l ∈ moves.filterMap Move.line?, l.tile < tiles.length
  replaces : ∀ (s : Stage α) x y, s.Agrees w₀ tiles none → src.Holds (fun _ => s.value tiles) x →
    dst.Holds (fun _ => s.value tiles) y →
    Stage.Replaces w₀ tiles s (s.performAll moves) dst (f x y)

namespace Stage.Replaces

variable {s s' : Stage α} {z z' : Index → α}

theorem refl (hs : s.Agrees w₀ tiles none) (ht : t.Holds (fun _ => s.value tiles) z) :
    Stage.Replaces w₀ tiles s s t z :=
  ⟨hs, fun _ _ => rfl, ht⟩

theorem congr (h : Stage.Replaces w₀ tiles s s' t z) (ht : t.LaidOut tiles)
    (hz : ∀ i, t.shape.contains i = true → z i = z' i) : Stage.Replaces w₀ tiles s s' t z' :=
  ⟨h.agrees, h.kept, h.holds.congr ht hz⟩

end Stage.Replaces

namespace Computes

variable {script script' : Rank → Script α} {f : (Index → α) → (Index → α) → Index → α}
  {moves : List (Move α)}

theorem of_follows (h : Follows tiles script moves)
    (hr : ∀ (s : Stage α) x y, s.Agrees w₀ tiles none → src.Holds (fun _ => s.value tiles) x →
      dst.Holds (fun _ => s.value tiles) y →
      Stage.Replaces w₀ tiles s (s.performAll moves) dst (f x y)) :
    Computes w₀ tiles script src dst f moves :=
  ⟨fun r => by rw [h.script r], h.known, hr⟩

/-- Without calls nothing changes. -/
theorem of_no_calls (h : ∀ r, (script r).calls = []) :
    Computes w₀ tiles script src dst (fun _ y => y) [] :=
  ⟨h, by simp, fun _ _ _ hs _ hy => .refl hs hy⟩

theorem congr {f' : (Index → α) → (Index → α) → Index → α}
    (h : Computes w₀ tiles script src dst f moves) (hdst : dst.LaidOut tiles)
    (hf : ∀ x y i, dst.shape.contains i = true → f x y i = f' x y i) :
    Computes w₀ tiles script src dst f' moves :=
  ⟨h.calls, h.known, fun s x y hs hx hy => (h.replaces s x y hs hx hy).congr hdst (hf x y)⟩

end Computes

namespace Tensor

/-- Two different tensors that are spread over the tiles of a world. -/
structure Copyable (α : Type) [Scalar α] (tiles : List Blueprint) (src dst : Tensor) : Prop where
  source : src.LaidOut tiles
  sourceSized : src.Sized α
  target : dst.LaidOut tiles
  targetSized : dst.Sized α
  apart : src.Apart dst

namespace Copyable

theorem exists_copyTiles (hw : w₀.Alike tiles) (h : Copyable α tiles src dst)
    (htiling : src.tiling = dst.tiling) :
    ∃ moves, Computes w₀ tiles (fun r => copyTilesScript r src.tiles dst.tiles) src dst
      (fun x _ => x) moves := by
  have hcount : src.tiles.length = dst.tiles.length := by
    rw [h.source.count, h.target.count, htiling]
  exact ⟨_, .of_follows (follows_copyTiles h.source.known h.target.known hcount) fun s x y hs hx hy =>
    replaces_of_copyTiles hw h.source h.target h.apart htiling hs hx hy⟩

/-- A copy between tensors that are placed in one coordinate system. -/
theorem exists_copyIntersection (hw : w₀.Alike tiles) (h : Copyable α tiles src dst)
    (hmatch : mismatch src.ndim srcAt dst.ndim dstAt = none) {r : Rank}
    (hf : ∀ f, (copyIntersection (α := α) r src srcAt dst dstAt).failure ≠ some (.fault f)) :
    ∃ moves, Computes w₀ tiles (fun r => copyIntersection r src srcAt dst dstAt) src dst
      (fun x y => copyBox src.shape srcAt x dstAt y) moves := by
  obtain ⟨hndim, hsrcAt, hdstAt⟩ := mismatch_eq_none_iff.mp hmatch
  simp only [copyIntersection, hmatch] at hf ⊢
  by_cases h0 : dst.ndim = 0
  · -- scalars have one tile, and it is copied whole
    have hsrc : src.shape = [] := List.length_eq_zero_iff.mp (hndim.trans h0)
    have hdst : dst.shape = [] := List.length_eq_zero_iff.mp h0
    have htiling : src.tiling = dst.tiling := by
      refine Tiling.eq_of_shapes (hsrc.trans hdst.symm) ?_
      rw [List.length_eq_zero_iff.mp (src.tiling.ranks.symm.trans (hndim.trans h0)),
        List.length_eq_zero_iff.mp (dst.tiling.ranks.symm.trans h0)]
    obtain ⟨moves, hmoves⟩ := h.exists_copyTiles hw htiling
    simp only [if_pos h0]
    refine ⟨moves, hmoves.congr h.target fun x y i hi => ?_⟩
    rw [List.length_eq_zero_iff.mp (hsrcAt.trans h0), List.length_eq_zero_iff.mp (hdstAt.trans h0)]
    exact (copyBox_of_same_place (by rw [hsrc]) (hsrc.trans hdst.symm ▸ hi)).symm
  · simp only [if_neg h0] at hf ⊢
    cases ho : Overlap.between srcAt src.shape dstAt dst.shape with
    | error f =>
      rw [ho] at hf
      exact absurd rfl (hf f)
    | ok o =>
      cases o with
      | none =>
        exact ⟨[], (Computes.of_no_calls fun _ => rfl).congr h.target fun x y i hi =>
          (copyBox_of_disjoint ho hdstAt hi).symm⟩
      | some o =>
        obtain ⟨moves, hfollows, hreplaces⟩ :=
          exists_tilesMoves hw h.source h.sourceSized h.target h.targetSized h.apart ho
        exact ⟨moves, .of_follows hfollows hreplaces⟩

/-- A copy onto a tensor of the same shape. -/
theorem exists_copyTo (hw : w₀.Alike tiles) (h : Copyable α tiles src dst) {r : Rank}
    (hf : ∀ f, (copyTo (α := α) r src dst).failure ≠ some (.fault f)) :
    ∃ moves, Computes w₀ tiles (fun r => copyTo r src dst) src dst
      (fun x y => if src.shape = dst.shape then x else y) moves := by
  unfold copyTo at hf ⊢
  by_cases hndim : src.ndim = dst.ndim
  · simp only [ne_eq, hndim, not_true_eq_false, if_false] at hf ⊢
    by_cases hshape : src.shape = dst.shape
    · simp only [hshape, not_true_eq_false, if_false] at hf ⊢
      by_cases hbase : src.tiling.basetile = dst.tiling.basetile
      · obtain ⟨moves, hmoves⟩ := h.exists_copyTiles hw (Tiling.eq_of_shapes hshape hbase)
        simp only [if_pos hbase]
        exact ⟨moves, hmoves⟩
      · simp only [if_neg hbase] at hf ⊢
        have hmatch : mismatch src.ndim (List.replicate dst.ndim 0) dst.ndim
            (List.replicate dst.ndim 0) = none := by
          simp [mismatch, hndim]
        obtain ⟨moves, hmoves⟩ := h.exists_copyIntersection hw hmatch hf
        refine ⟨moves, hmoves.congr h.target fun x y i hi => ?_⟩
        rw [hshape]
        exact copyBox_of_same_place List.length_replicate hi
    · simp only [hshape, not_false_eq_true, if_true, if_false]
      exact ⟨[], .of_no_calls fun _ => rfl⟩
  · have hshape : src.shape ≠ dst.shape := fun heq => hndim (congrArg List.length heq)
    simp only [ne_eq, hndim, not_false_eq_true, if_true, if_neg hshape]
    exact ⟨[], .of_no_calls fun _ => rfl⟩

/-- A copy that is made only where a check passes. -/
theorem exists_checked_copyTo (hw : w₀.Alike tiles) (h : Copyable α tiles src dst) {p : Prop}
    [Decidable p] {e : TensorError} {r : Rank}
    (hf : ∀ f, (if ¬p then .ofError e else copyTo (α := α) r src dst).failure ≠ some (.fault f)) :
    ∃ moves, Computes w₀ tiles (fun r => if ¬p then .ofError e else copyTo r src dst) src dst
      (fun x y => if p ∧ src.shape = dst.shape then x else y) moves := by
  by_cases hp : p
  · simp only [hp, not_true_eq_false, if_false, true_and] at hf ⊢
    exact h.exists_copyTo hw hf
  · simp only [hp, not_false_eq_true, if_true, false_and, if_false]
    exact ⟨[], .of_no_calls fun _ => rfl⟩

end Copyable

end Tensor

/-! ## Sequences of calls -/

section

variable {ι : Type} {t : ι → Tensor}

/-- Tensors that are spread over the tiles of a world, no two of them over the same tile. -/
structure Tensor.Family (α : Type) [Scalar α] (tiles : List Tensor.Blueprint) (t : ι → Tensor) :
    Prop where
  laidOut : ∀ i, (t i).LaidOut tiles
  sized : ∀ i, (t i).Sized α
  apart : ∀ i j, i ≠ j → (t i).Apart (t j)

theorem Tensor.Family.copyable (h : Tensor.Family α tiles t) {i j : ι} (hne : i ≠ j) :
    Tensor.Copyable α tiles (t i) (t j) :=
  ⟨h.laidOut i, h.sized i, h.laidOut j, h.sized j, h.apart i j hne⟩

namespace Collective

/-- The call panics on a rank. -/
def Panics (α : Type) [Scalar α] (rank : Rank) (t : ι → Tensor) (c : Collective ι) : Prop :=
  ∃ f, (c.script (α := α) rank t).failure = some (.fault f)

/-- What a call computes is what it means on dense arrays. -/
theorem exists_computes (hw : w₀.Alike tiles) (ht : Tensor.Family α tiles t) {c : Collective ι}
    (hc : c.Distinct) {r : Rank} (hp : ¬c.Panics α r t) :
    ∃ moves, Computes w₀ tiles (fun r => c.script r t) (t c.source) (t c.target)
      (fun x y => c.result t x y) moves := by
  have hf : ∀ f, (c.script (α := α) r t).failure ≠ some (.fault f) := fun f h => hp ⟨f, h⟩
  cases c with
  | copyTo s d => exact (ht.copyable hc).exists_copyTo hw hf
  | copyIntersection s srcAt d dstAt =>
    by_cases hmatch : Tensor.mismatch (t s).ndim srcAt (t d).ndim dstAt = none
    · simp only [result, if_pos hmatch]
      exact (ht.copyable hc).exists_copyIntersection hw hmatch hf
    · simp only [result, if_neg hmatch]
      refine ⟨[], .of_no_calls fun r => ?_⟩
      obtain ⟨e, he⟩ := Option.ne_none_iff_exists'.mp hmatch
      rw [script, Tensor.copyIntersection, he]
      rfl
  | gather s d | scatter s d => exact (ht.copyable hc).exists_checked_copyTo hw hf
  | clear d =>
    exact ⟨_, .of_follows (Tensor.follows_clear (ht.laidOut d).known) fun s x y hs _ hy =>
      Tensor.replaces_of_clear hw (ht.laidOut d) hs hy⟩

variable [DecidableEq ι]

/-- A call brings all tensors to what it makes of the dense arrays. -/
theorem holds_apply (ht : Tensor.Family α tiles t) {c : Collective ι} {moves : List (Move α)}
    (h : Computes w₀ tiles (fun r => c.script r t) (t c.source) (t c.target)
      (fun x y => c.result t x y) moves) {s : Stage α} {m : ι → Index → α}
    (hs : s.Agrees w₀ tiles none) (hm : ∀ i, (t i).Holds (fun _ => s.value tiles) (m i)) :
    (s.performAll moves).Agrees w₀ tiles none ∧
      ∀ i, (t i).Holds (fun _ => (s.performAll moves).value tiles) (c.apply t m i) := by
  have hr := h.replaces s _ _ hs (hm _) (hm _)
  refine ⟨hr.agrees, fun i => ?_⟩
  unfold apply
  by_cases hi : i = c.target
  · rw [if_pos hi, hi]
    exact hr.holds
  · rw [if_neg hi]
    exact (hm i).of_eq fun tile htile => hr.kept _ ((ht.apart i _ hi).notMem htile)

/-- A sequence of calls brings all tensors to what it makes of the dense arrays, one call after the
other. -/
theorem exists_moves_of_calls (hw : w₀.Alike tiles) (ht : Tensor.Family α tiles t) {r : Rank}
    {calls : List (Collective ι)} (hc : ∀ c ∈ calls, c.Distinct ∧ ¬c.Panics α r t) :
    ∃ moves : List (Move α),
      (∀ r, calls.flatMap (fun c => (c.script r t).calls) = moves.filterMap (Move.callOn r)) ∧
      (∀ l ∈ moves.filterMap Move.line?, l.tile < tiles.length) ∧
      ∀ (s : Stage α) m, s.Agrees w₀ tiles none →
        (∀ i, (t i).Holds (fun _ => s.value tiles) (m i)) →
        (s.performAll moves).Agrees w₀ tiles none ∧ ∀ i,
          (t i).Holds (fun _ => (s.performAll moves).value tiles) (calls.foldl (apply t) m i) := by
  induction calls with
  | nil => exact ⟨[], fun _ => rfl, by simp, fun s m hs hm => ⟨hs, hm⟩⟩
  | cons c calls ih =>
    rw [List.forall_mem_cons] at hc
    obtain ⟨⟨hdistinct, hp⟩, hc⟩ := hc
    obtain ⟨moves, hmoves⟩ := exists_computes hw ht hdistinct hp
    obtain ⟨more, hmore, hknown, hholds⟩ := ih hc
    refine ⟨moves ++ more, fun r => ?_, fun l hl => ?_, fun s m hs hm => ?_⟩
    · rw [List.flatMap_cons, List.filterMap_append, hmoves.calls r, hmore r]
    · rw [List.filterMap_append, List.mem_append] at hl
      exact hl.elim (hmoves.known l) (hknown l)
    · obtain ⟨hs', hm'⟩ := holds_apply ht hmoves hs hm
      rw [Stage.performAll_append]
      exact hholds _ _ hs' hm'

end Collective

end

/-! ## Runs -/

/-- What the owners show of the tiles of a tensor are the values of the tiles. -/
theorem Tensor.holds_value_iff (ht : t.LaidOut tiles) {s : Stage α} :
    t.Holds (fun r => (s.nodes r).shows) x ↔ t.Holds (fun _ => s.value tiles) x := by
  have hvalue : ∀ tile ∈ t.tiles, s.value tiles tile.handle =
      (s.nodes tile.owner).shows tile.handle := by
    intro tile htile
    obtain ⟨b, hb, howner⟩ := ht.known tile htile
    rw [Stage.value_eq hb, howner]
  exact ⟨fun h => h.of_eq hvalue, fun h => h.of_eq fun tile htile => (hvalue tile htile).symm⟩

/-- Tensors that all ranks have made form a family over the tiles of the world. -/
theorem World.Makes.family {first stop : Tag} {specs : List (Tiling × List Rank)}
    {tensors : List Tensor} {r : Rank} (h : w₀.Makes first specs tensors r)
    (hd : Tensor.designs first specs = .ok (tiles, stop)) (hsize : ∀ t ∈ tensors, t.Sized α) :
    Tensor.Family α tiles tensors.get := by
  obtain ⟨hlaid, hapart⟩ := h.laidOut hd
  refine ⟨fun i => hlaid _ (List.get_mem _ _), fun i => hsize _ (List.get_mem _ _), ?_⟩
  intro i j hij
  rcases Nat.lt_or_gt_of_ne (Fin.val_ne_of_ne hij) with hlt | hgt
  · exact List.pairwise_iff_get.mp hapart i j hlt
  · exact (List.pairwise_iff_get.mp hapart j i hgt).symm

/-- Ranks make the same tensors, write some arrays to the tiles that they own, and then make the
same collective calls. However their calls, tasks and messages interleave, when all calls have been
made and no task is left the tensors hold what the calls make of the arrays, one call after the
other. -/
theorem World.Run.collectives_eq_dense {w : World α} {first : Tag}
    {specs : List (Tiling × List Rank)} {tensors : List Tensor}
    {calls : List (Collective (Fin tensors.length))} {hist own rest : Rank → List (Entry α)}
    {mail : Rank → Mail} {m : Fin tensors.length → Index → α} (hs : 0 < w₀.size)
    (hc : w₀.cluster = Cluster.ofSize w₀.size)
    (hmake : ∀ r < w₀.size, w₀.Makes first specs tensors r) (hsize : ∀ t ∈ tensors, t.Sized α)
    (hcalls : ∀ c ∈ calls, c.Distinct ∧ ∀ r < w₀.size, ¬c.Panics α r tensors.get)
    (run : w₀.Run hist mail w) (hhist : ∀ r < w₀.size, hist r = own r ++ rest r)
    (hown : ∀ r < w₀.size, ∀ e ∈ own r, e.Own)
    (hissued : ∀ r < w₀.size, (rest r).map Entry.call? =
      (calls.flatMap fun c => (c.script r tensors.get).calls).map some)
    (hinit : ∀ i, (tensors.get i).Holds (fun r => ((w₀.node r).replay (own r)).shows) (m i))
    (hidle : ∀ r < w₀.size, (w.node r).Idle) : ∀ i, (tensors.get i).Holds
      (fun r => (w.node r).shows) (calls.foldl (Collective.apply tensors.get) m i) := by
  obtain ⟨tiles, stop, hd, -⟩ := (hmake 0 hs).exists_designs
  have hw : w₀.Alike tiles := World.alike_of_makes hd hs hc hmake
  have ht := (hmake 0 hs).family hd hsize
  obtain ⟨moves, hmoves, hknown, hholds⟩ := Collective.exists_moves_of_calls hw ht (r := 0)
    fun c hmem => ⟨(hcalls c hmem).1, (hcalls c hmem).2 0 hs⟩
  have hshows := run.shows_performAll ⟨hw, hknown⟩ hhist hown
    (fun r hr => by rw [hissued r hr, hmoves r]) hidle
  have hagrees : Stage.Agrees w₀ tiles ⟨[], fun q => (w₀.node q).replay (own q)⟩ none :=
    ⟨fun r hr => (hshows r hr).1, fun h b _ _ r _ hcopy => absurd rfl hcopy⟩
  obtain ⟨-, hfinal⟩ := hholds _ m hagrees fun i => (Tensor.holds_value_iff (ht.laidOut i)).mp (hinit i)
  intro i
  refine ((Tensor.holds_value_iff (ht.laidOut i)).mpr (hfinal i)).of_eq fun tile htile => ?_
  obtain ⟨b, hb, howner⟩ := (ht.laidOut i).known tile htile
  rw [(hshows tile.owner (howner ▸ hw.owners b (List.mem_of_getElem? hb))).2]

/-- A rank gathers two tiles, one of them its own, while the tiles are cleared behind it. -/
theorem World.Run.collectives_eq_dense_of_gather :
    ∃ (w₀ w : World (ElementType.Value .bf16)) (first : Tag) (specs : List (Tiling × List Rank))
      (tensors : List Tensor) (calls : List (Collective (Fin tensors.length)))
      (hist : Rank → List (Entry (ElementType.Value .bf16))) (mail : Rank → Mail)
      (m : Fin tensors.length → Index → ElementType.Value .bf16),
      (∀ r < w₀.size, w₀.Makes first specs tensors r) ∧ w₀.Run hist mail w ∧
      (∀ r < w₀.size, (w.node r).Idle) ∧ calls.length = 2 ∧ (w.node 1).shows 2 = some [7, 9] ∧
      ∀ i, (tensors.get i).Holds (fun r => (w.node r).shows)
        (calls.foldl (Collective.apply tensors.get) m i) := by
  let unit : Layout := ⟨[1], [1], 1, rfl⟩
  let pair : Layout := ⟨[2], [1], 2, rfl⟩
  let split : Tiling := ⟨pair, [1], pair, rfl, by decide, rfl⟩
  let joined : Tiling := ⟨pair, [2], unit, rfl, by decide, rfl⟩
  let tensors : List Tensor := [⟨split, ⟨0⟩, [⟨unit, 0, 0⟩, ⟨unit, 1, 1⟩]⟩,
    ⟨joined, ⟨2⟩, [⟨pair, 2, 1⟩]⟩]
  let tiles : List Tensor.Blueprint := [⟨unit, 0, ⟨0⟩⟩, ⟨unit, 1, ⟨1⟩⟩, ⟨pair, 1, ⟨2⟩⟩]
  let codelets := ["copy_intersection", "clear"]
  let node (r : Rank) : Node (ElementType.Value .bf16) :=
    { rank := r, size := 2, codelets, handles := tiles.map Tensor.Blueprint.handle }
  let w₀ : World (ElementType.Value .bf16) := ⟨.ofSize 2, [node 0, node 1]⟩
  let calls : List (Collective (Fin tensors.length)) :=
    [.gather ⟨0, by decide⟩ ⟨1, by decide⟩, .clear ⟨0, by decide⟩]
  let issue (r : Rank) : List (Call (ElementType.Value .bf16)) :=
    calls.flatMap fun c => (c.script r tensors.get).calls
  let acts : List (Rank × Act (ElementType.Value .bf16)) :=
    [(0, .acquire 0 .write), (1, .acquire 1 .write), (0, .take), (1, .take), (0, .put 0 [7]),
      (1, .put 0 [9])] ++ (issue 0).map (fun c => (0, .call c)) ++
    (issue 1).map (fun c => (1, .call c)) ++
    [(0, .release 0), (1, .release 0), (0, .take), (0, .take), (0, .take), (0, .take), (1, .take),
      (1, .take), (1, .take), (1, .take), (1, .take), (1, .take), (0, .work 0), (0, .take),
      (1, .arrive 0), (1, .take), (1, .work 0), (1, .take), (1, .take), (1, .work 0), (1, .take),
      (1, .work 0), (1, .take)]
  let m (i : Fin tensors.length) (j : Index) : ElementType.Value .bf16 :=
    if i.val = 0 then (if j = [0] then 7 else 9) else 0
  have hranks : ∀ r < w₀.size, r = 0 ∨ r = 1 := fun r (hr : r < 2) => by omega
  have hmake : ∀ r < w₀.size, w₀.Makes ⟨0⟩ [(split, [0, 1]), (joined, [1])] tensors r := by
    intro r hr
    obtain rfl | rfl := hranks r hr
    · exact ⟨codelets, node 0, ⟨3⟩, [], rfl, rfl, by simp⟩
    · exact ⟨codelets, node 1, ⟨3⟩, [], rfl, rfl, by simp⟩
  have hcheck : (w₀.follow (fun _ => []) (fun _ => {}) acts).any (fun p =>
      decide (((w₀.node 0).replay ((p.1 0).take 1)).shows 0 = some [7]) &&
      decide (((w₀.node 1).replay ((p.1 1).take 1)).shows 1 = some [9]) &&
      decide (((w₀.node 1).replay ((p.1 1).take 1)).shows 2 = some [0, 0]) &&
      decide ((p.2.2.node 1).shows 2 = some [7, 9]) &&
      (List.range 2).all (fun r => (p.2.2.node r).scheduler.any (·.graph.isEmpty) &&
        (p.2.2.node r).events.isEmpty)) = true := by
    decide +kernel
  obtain ⟨⟨hist, mail, w⟩, hfollow, hfacts⟩ := (Option.any_eq_true _ _).mp hcheck
  simp only [Bool.and_eq_true, decide_eq_true_eq] at hfacts
  obtain ⟨⟨⟨⟨hinit₀, hinit₁⟩, hinit₂⟩, hgathered⟩, hempty⟩ := hfacts
  have run : w₀.Run hist mail w := World.Run.nil.follow hfollow
  have hissued : ∀ r < w₀.size, (hist r).map Entry.call? = none :: (issue r).map some := by
    intro r hr
    rw [World.map_call?_follow hfollow r]
    obtain rfl | rfl := hranks r hr <;> simp [acts, Act.asked, List.filterMap_map]
  have hidle : ∀ r < w₀.size, (w.node r).Idle := by
    intro r hr
    have hr := List.all_eq_true.mp hempty r (List.mem_range.mpr hr)
    rw [Bool.and_eq_true, Option.any_eq_true] at hr
    obtain ⟨⟨s, hs, hgraph⟩, hevents⟩ := hr
    exact ⟨s, hs, hgraph, by simp [List.isEmpty_iff.mp hevents]⟩
  have hinit : ∀ i, (tensors.get i).Holds
      (fun r => ((w₀.node r).replay ((hist r).take 1)).shows) (m i) := by
    rintro ⟨_ | _ | i, hi⟩ n tile hn
    · obtain ⟨rfl, rfl⟩ | ⟨rfl, rfl⟩ : (n = 0 ∧ tile = ⟨unit, 0, 0⟩) ∨ (n = 1 ∧ tile = ⟨unit, 1, 1⟩) := by
        rcases n with _ | _ | n <;> cases hn <;> simp
      · exact ⟨[0], [7], rfl, hinit₀, Layout.holds_iff_eq.mpr rfl⟩
      · exact ⟨[1], [9], rfl, hinit₁, Layout.holds_iff_eq.mpr rfl⟩
    · obtain ⟨rfl, rfl⟩ : n = 0 ∧ tile = ⟨pair, 2, 1⟩ := by
        rcases n with _ | n <;> cases hn
        exact ⟨rfl, rfl⟩
      exact ⟨[0], [0, 0], rfl, hinit₂, Layout.holds_iff_eq.mpr rfl⟩
    · exact absurd hi (by simp [tensors])
  have hsize : ∀ t ∈ tensors,
      (∀ tile ∈ t.tiles,
        tile.layout.count * Scalar.size (ElementType.Value .bf16) < Word.limit) ∧
      ∀ tile ∈ t.tiles, allocatable (2 * tile.layout.shape.length * 8) = true := by
    decide
  have hpasses : ∀ c ∈ calls, c.Distinct ∧ ∀ r < 2,
      (c.script (α := ElementType.Value .bf16) r tensors.get).failure = none := by
    intro c hc
    obtain rfl | rfl : c = .gather ⟨0, by decide⟩ ⟨1, by decide⟩ ∨ c = .clear ⟨0, by decide⟩ := by
      simpa [calls] using hc
    · exact ⟨by simp [Collective.Distinct], by decide +kernel⟩
    · exact ⟨trivial, by decide +kernel⟩
  have hhist : ∀ r < w₀.size, hist r = (hist r).take 1 ++ (hist r).drop 1 :=
    fun r _ => (List.take_append_drop 1 (hist r)).symm
  refine ⟨w₀, w, ⟨0⟩, _, tensors, calls, hist, mail, m, hmake, run, hidle, rfl, hgathered, ?_⟩
  refine World.Run.collectives_eq_dense (by decide) rfl hmake
    (fun t ht => ⟨(hsize t ht).1, (hsize t ht).2⟩)
    (fun c hc => ⟨(hpasses c hc).1, fun r hr ⟨f, hf⟩ => ?_⟩) run hhist ?_ ?_ hinit hidle
  · rw [(hpasses c hc).2 r hr] at hf
    cases hf
  · intro r hr e he
    have hmem := List.mem_map_of_mem (f := Entry.call?) he
    rw [List.map_take, hissued r hr] at hmem
    exact Entry.own_of_call?_eq_none (List.mem_singleton.mp hmem)
  · intro r hr
    rw [List.map_drop, hissued r hr]
    rfl

end TiledTensor
