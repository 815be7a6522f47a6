import TiledTensor.Proofs.Making
import TiledTensor.Proofs.Plain
import TiledTensor.Proofs.Together

/-!
# Reads of remote tiles

A task that reads a tile of another rank finds there what the owner showed, in plain execution, at
the first transfer of the tile to the rank since the last flush of it.

The table of values that the owners have sent agrees with plain execution, line after line: an owner
sends what its deeds before the line leave, and what it has received itself by then was sent for
earlier lines.
-/

namespace TiledTensor

variable {α : Type} [Scalar α]

/-! ## What is sent -/

namespace Coherent

variable {w₀ : World α} {tiles : List Tensor.Blueprint} {plan : List Line} {net : Cluster}
  {V : Nat → Option (List α)} {site : Rank → Site α} {r : Rank} {i : Nat} {block : List α}

/-- A rank shows in plain execution what its deeds before a line leave. -/
theorem shows_plain (hw : w₀.Common tiles plan) (hc : Coherent w₀ tiles plan net V site)
    (hr : r < w₀.size) {before after : List (Entry α)} {e : Entry α}
    (hsplit : (site r).hist = before ++ e :: after) (he : ¬e.Own) :
    (w₀.plain plan (fun q => (site q).hist) (lines before).length r).shows =
      Deed.after (w₀.node r).shows
        ((w₀.node r).deeds (w₀.brought plan fun q => (site q).hist) before) := by
  refine (World.shows_plain (hw.rank r hr) (hc.follows r hr) ?_ ?_ hsplit ?_ rfl).2
  · intro l hl
    have hprefix := (hw.handles r hr).length_le
    rw [List.length_map] at hprefix
    exact Nat.lt_of_lt_of_le (hw.plan l hl) hprefix
  · intro f hf hown
    exact (hc.ledger r hr).bounds_of_own hf hown
  · intro f hf
    exact Option.some.inj hf ▸ he

/-- What has been sent for a line is what plain execution brings. -/
theorem brought_eq (hw : w₀.Common tiles plan) (hc : Coherent w₀ tiles plan net V site)
    (hV : V i = some block) : w₀.brought plan (fun q => (site q).hist) i = some block := by
  induction i using Nat.strongRecOn generalizing block with
  | ind i ih =>
    obtain ⟨o, ho, k, h, t, hne, hd, hval⟩ := hc.source i block hV
    have hrank := hw.rank o ho
    have hl := hc.ledger o ho
    obtain ⟨b, hb, hcar, hself, -⟩ := hc.carried hw ho hd
    obtain rfl := hself.resolve_left hne
    obtain ⟨before, after, hsplit, hi, -, htake, -⟩ := Node.exists_split hd
    dsimp only at hi hsplit
    -- the values of earlier lines are known to agree, and those of later lines do not matter
    have hagree : ∀ (j : TaskId) i' h', ((w₀.node b.owner).duties (site b.owner).hist)[j]? =
        some (i', .transfer h' (w₀.node b.owner).rank) → (site b.owner).done j →
          (if i' < i then w₀.brought plan (fun q => (site q).hist) i' else V i') = V i' := by
      intro j i' h' hj hdone
      split
      · rename_i hlt
        rw [hrank] at hj
        obtain ⟨block', hV'⟩ := Option.ne_none_iff_exists'.mp
          (hc.received b.owner ho j i' h' hj hdone)
        rw [hV']
        exact ih i' hlt hV'
      · rfl
    have hsent : (site b.owner).done k := by
      refine (hc.shipped b.owner ho k i h t hne hd).mpr ?_
      rw [hV]
      exact Option.some_ne_none _
    have hsame := hl.after_revise hagree hd (h := h) (a := .read) (by
        rw [Node.deed_of_ne_target (hrank.symm ▸ hne)]
        exact List.mem_cons_self) fun j hj => hl.account.orderly.sound.closed j k hj hsent
    have hbefore : (w₀.node b.owner).deeds
        (fun i' => if i' < i then w₀.brought plan (fun q => (site q).hist) i' else V i') before =
        (w₀.node b.owner).deeds (w₀.brought plan fun q => (site q).hist) before := by
      refine List.map_congr_left ?_
      intro d hd'
      refine Node.Ledger.deed_eq ?_
      intro h' hd''
      have hline := (Node.line_of_mem_duties hd' (congrArg Entry.line? hd'')).1
      exact if_pos (hi ▸ lt_of_getElem?_eq_some hline)
    rw [World.brought, hcar.1]
    dsimp only
    rw [hw.owner (hc.target_lt ho hd) hb, hi, hc.shows_plain hw ho hsplit not_false, ← hbefore,
      Node.deeds, ← htake, List.map_take, ← Node.deeds, hsame, hval]

end Coherent

/-- A receive of a tile is over before a later task uses the tile. -/
theorem Node.Ledger.receive_before_use {n n₀ : Node α} {hist : List (Entry α)}
    {V : Nat → Option (List α)} {log : List (Task α)} {done : TaskId → Prop} {todo : List (Task α)}
    {h : HandleId} {a : Access} {r : Rank} {i m : Nat} {j k id : TaskId} {op : Op α}
    (hl : n.Ledger n₀ hist V log done todo) (hr : n₀.rank = r)
    (hj : (n₀.duties hist)[j]? = some (i, .transfer h r))
    (hk : (n₀.duties hist)[k]? = some (m, .task id op)) (hu : (h, a) ∈ op.uses) (hlt : j < k) :
    Precedes log j k := by
  have huses := hl.account.faithful.uses
  obtain ⟨t, ht, hte⟩ := getElem?_of_uses huses (getElem?_deeds hj)
  obtain ⟨u, hu', hue⟩ := getElem?_of_uses huses (getElem?_deeds hk)
  rw [deed_of_target hr] at hte
  refine ⟨t, u, ht, hu', hlt, ?_⟩
  have hmem : (h, a) ∈ u.uses := hue ▸ hu
  rw [hte]
  exact Conflict.of_write (h := h) (a := .write) List.mem_cons_self hmem rfl
    ((hl.account.orderly.sound.proper k u hu').2.1 _ hmem)

/-! ## What is read -/

/-- Line `i` is the first transfer of tile `h` to rank `r` since the last flush of it before line
`m`. -/
structure FirstTransfer (plan : List Line) (h : HandleId) (r : Rank) (m i : Nat) : Prop where
  line : plan[i]? = some (.transfer h r)
  before : i < m
  valid : ∀ j, i < j → j < m → plan[j]? ≠ some (.flush h)
  first : ∀ j < i, plan[j]? = some (.transfer h r) →
    ∃ k, j < k ∧ k < i ∧ plan[k]? = some (.flush h)

/-- The copy of a rank comes from the first transfer since the last flush. -/
theorem firstTransfer_of_copyLine {ls plan : List Line} {owner : Rank} {h : HandleId} {r : Rank}
    {i : Nat} (hf : ls <+: plan) (hi : copyLine owner h r ls = some i) :
    FirstTransfer plan h r ls.length i := by
  obtain ⟨hget, hr, hnone, hno⟩ := copyLine_eq_some hi
  have hlt := lt_of_getElem?_eq_some hget
  have hsame : ∀ j < ls.length, plan[j]? = ls[j]? := by
    intro j hj
    obtain ⟨rest, rfl⟩ := hf
    exact List.getElem?_append_left hj
  refine ⟨(hsame i hlt).trans hget, hlt, ?_, ?_⟩
  · intro j hij hj
    rw [hsame j hj]
    exact hno j hij
  · intro j hj hline
    rw [hsame j (Nat.lt_trans hj hlt)] at hline
    obtain ⟨k, hjk, hk⟩ := exists_flush_of_copyLine_eq_none hnone hr
      ((List.getElem?_take_of_lt hj).trans hline)
    have hki : k < i := by
      have := lt_of_getElem?_eq_some hk
      rw [List.length_take] at this
      exact Nat.lt_of_lt_of_le this (Nat.min_le_left _ _)
    rw [List.getElem?_take_of_lt hki] at hk
    exact ⟨k, hjk, hki, (hsame k (Nat.lt_trans hki hlt)).trans hk⟩

namespace Coherent

variable {w₀ : World α} {tiles : List Tensor.Blueprint} {plan : List Line} {net : Cluster}
  {V : Nat → Option (List α)} {site : Rank → Site α} {r : Rank} {h : HandleId} {a : Access}
  {w : Work α}

/-- A task finds in a remote tile what was sent for the line that its copy comes from. -/
theorem copy_of_work (hw : w₀.Common tiles plan) (hc : Coherent w₀ tiles plan net V site)
    (hr : r < w₀.size) (hwork : w ∈ (site r).node.work) (hu : (h, a) ∈ w.op.uses)
    (ho : (w₀.node r).owner h ≠ r) :
    ∃ before after i block, (site r).hist = before ++ .task w.id w.op :: after ∧
      copyLine ((w₀.node r).owner h) h r (lines before) = some i ∧ V i = some block ∧
      (site r).node.shows h = some block ∧ ¬a.writes = true := by
  have hrank := hw.rank r hr
  have hl := hc.ledger r hr
  have hs := hl.account.orderly.sound
  obtain ⟨m, t, hd, ht, -⟩ := hl.entry_of_work hwork
  obtain ⟨before, after, hsplit, hm, -, -, -⟩ := Node.exists_split hd
  dsimp only at hsplit hm
  have htake : (lines (site r).hist).take m = lines before := by
    rw [hsplit, lines_append, hm, List.take_left]
  obtain ⟨hread, hcopy⟩ := hl.allowed _ (List.mem_of_getElem? hd) (h, a) hu (hrank.symm ▸ ho)
  obtain ⟨i, hi⟩ := Option.ne_none_iff_exists'.mp hcopy
  dsimp only at hi
  rw [htake, hrank] at hi
  have hprefix : lines before <+: lines (site r).hist := htake ▸ List.take_prefix m _
  obtain ⟨hi', hcar⟩ := (carried_iff_of_isPrefix hprefix).mp (carried_of_copyLine hi)
  obtain ⟨k, hk⟩ := Node.exists_duty_of_carried hcar (Or.inl hrank)
  obtain ⟨b, hb, -⟩ := hc.carried hw hr hk
  have hdone : (site r).done k := by
    -- the task has waited for the receive
    have hkw : k < w.id := by
      rcases Nat.lt_trichotomy k w.id with hlt | rfl | hgt
      · exact hlt
      · rw [hk, Option.some.injEq, Prod.mk.injEq] at hd
        cases hd.2
      · exact absurd (Node.duties_ordered hd hk hgt).1 (Nat.not_le_of_lt (hm ▸ hi'))
    exact hs.first k w.id (hl.receive_before_use hrank hk hd hu hkw) (Or.inl ⟨w, hwork, rfl⟩)
  obtain ⟨block, hV⟩ := Option.ne_none_iff_exists'.mp (hc.received r hr k i h hk hdone)
  refine ⟨before, after, i, block, hsplit, hi, hV, ?_, hread⟩
  have hblank : (w₀.node r).shows h = ((w₀.node r).handle h).blank := by
    rw [hw.blank hr hb, hw.handle hr hb]
  rw [hl.seen_by_work hwork h ⟨a, hu⟩, hl.copy_before (hrank.symm ▸ ho) hblank hd, htake,
    Node.copyOf, hrank, hi]
  exact hV

end Coherent

/-- A task that reads a tile of another rank finds what the owner showed, in plain execution, at the
first transfer of the tile to the rank since the last flush of it. -/
theorem World.Run.reads_first_transfer {w₀ w : World α} {tiles : List Tensor.Blueprint}
    {plan : List Line} {hist : Rank → List (Entry α)} {mail : Rank → Mail}
    (hw : w₀.Common tiles plan) (run : w₀.Run hist mail w)
    (hf : ∀ r < w₀.size, lines (hist r) <+: plan) {r : Rank} (hr : r < w₀.size) {wk : Work α}
    (hwork : wk ∈ (w.node r).work) {k : Nat} {h : HandleId} {a : Access}
    (hk : wk.op.operands[k]? = some (.data h a))
    (ho : (w₀.node r).owner h ≠ r) :
    ∃ p i block, (hist r)[p]? = some (.task wk.id wk.op) ∧
      FirstTransfer plan h r (lines ((hist r).take p)).length i ∧
      (w₀.plain plan hist i ((w₀.node r).owner h)).shows h = some block ∧
      (w.node r).shows h = some block ∧
      ∀ views, ((w.node r).openAll wk.op.operands).2 = some views →
        views[k]? = some (.shared block) := by
  obtain ⟨V, log, done, hsize, hc⟩ := run.sound hw hf
  have hu : (h, a) ∈ wk.op.uses := Op.mem_uses_iff.mpr (List.mem_of_getElem? hk)
  obtain ⟨before, after, i, block, hsplit, hi, hV, hshows, hread⟩ :=
    hc.copy_of_work hw hr hwork hu ho
  change hist r = _ at hsplit
  change (w.node r).shows h = _ at hshows
  have hl : (w.node r).Ledger (w₀.node r) (hist r) V (log r) (done r) [] := hc.ledger r hr
  have htake : (hist r).take before.length = before := by rw [hsplit, List.take_left]
  have hfirst : FirstTransfer plan h r (lines before).length i := by
    refine firstTransfer_of_copyLine (List.IsPrefix.trans ?_ (hf r hr)) hi
    rw [hsplit, lines_append]
    exact List.prefix_append _ _
  refine ⟨before.length, i, block, ?_, htake.symm ▸ hfirst, ?_, hshows, ?_⟩
  · rw [hsplit, List.getElem?_append_right (Nat.le_refl _), Nat.sub_self]
    rfl
  · have hbrought := hc.brought_eq hw hV
    rw [World.brought, hfirst.line] at hbrought
    exact hbrought
  · intro views hviews
    rw [(Node.shows_openAll _ _ fun j b hj => ?_).2] at hviews
    · obtain ⟨block', hblock', hview⟩ := Store.view_of_openAll hviews hk hread
      rw [hshows, Option.some.injEq] at hblock'
      rw [hview, hblock']
    · have hmem : (.task wk.id wk.op : Entry α) ∈ hist r := by
        rw [hsplit]
        exact List.mem_append_right _ List.mem_cons_self
      rw [hl.marks.length]
      exact hl.bounds_of_own hmem trivial (j, b) (Op.mem_uses_iff.mpr hj)

/-- A tile is written, sent and written again; a copy of it on the other rank still finds the first
value. -/
theorem World.Run.reads_first_transfer_of_copy :
    ∃ (w₀ w : World (ElementType.Value .bf16)) (tiles : List Tensor.Blueprint) (plan : List Line)
      (hist : Rank → List (Entry (ElementType.Value .bf16))) (mail : Rank → Mail)
      (wk : Work (ElementType.Value .bf16)),
      w₀.Common tiles plan ∧ w₀.Run hist mail w ∧ (∀ r < w₀.size, lines (hist r) <+: plan) ∧
      wk ∈ (w.node 1).work ∧ wk.op.operands[0]? = some (.data 0 .read) ∧
      (w₀.node 1).owner 0 ≠ 1 ∧ (w.node 0).shows 0 = some [9] ∧
      ∃ p i, (hist 1)[p]? = some (.task wk.id wk.op) ∧
        FirstTransfer plan 0 1 (lines ((hist 1).take p)).length i ∧
        (w₀.plain plan hist i 0).shows 0 = some [7] := by
  let tiles : List Tensor.Blueprint := [⟨.scalar, 0, ⟨0⟩⟩, ⟨.scalar, 1, ⟨1⟩⟩]
  let handles : List (Handle (ElementType.Value .bf16)) := tiles.map Tensor.Blueprint.handle
  let w₀ : World (ElementType.Value .bf16) :=
    ⟨.ofSize 2, [{ rank := 0, size := 2, codelets := [], handles },
      { rank := 1, size := 2, codelets := ["copy"], handles }]⟩
  let op : Op (ElementType.Value .bf16) :=
    ⟨"copy", [.data 0 .read, .data 1 .write], Codelet.copy⟩
  let acts : List (Rank × Act (ElementType.Value .bf16)) :=
    [(0, .acquire 0 .write), (0, .take), (0, .put 0 [7]), (0, .call (.transfer 0 1)),
      (1, .call (.transfer 0 1)), (0, .release 0), (0, .take), (0, .take), (1, .take),
      (1, .arrive 0), (1, .call (.submit op)), (0, .acquire 0 .write), (0, .take), (0, .take),
      (0, .put 2 [9]), (1, .take), (1, .take)]
  have hcommon : w₀.Common tiles [.transfer 0 1] := by
    refine ⟨World.alike_of_nodes rfl (by decide) (by decide) ?_, by decide⟩
    intro r hr
    obtain rfl | rfl : r = 0 ∨ r = 1 := by
      have : r < 2 := hr
      omega
    · exact ⟨[], [], rfl, by simp⟩
    · exact ⟨["copy"], [], rfl, by simp⟩
  have hcheck : (w₀.follow (fun _ => []) (fun _ => {}) acts).any (fun p =>
      decide (lines (p.1 0) = [.transfer 0 1]) && decide (lines (p.1 1) = [.transfer 0 1]) &&
      decide ((p.2.2.node 0).shows 0 = some [9]) && decide ((p.2.2.node 1).shows 0 = some [7]) &&
      decide ((p.2.2.node 1).work.map (·.op.operands) = [op.operands])) = true := by
    decide +kernel
  obtain ⟨⟨hist, mail, w⟩, hfollow, hfacts⟩ := (Option.any_eq_true _ _).mp hcheck
  simp only [Bool.and_eq_true, decide_eq_true_eq] at hfacts
  obtain ⟨⟨⟨⟨hlines₀, hlines₁⟩, hshows₀⟩, hshows₁⟩, hwork⟩ := hfacts
  have run : w₀.Run hist mail w := World.Run.nil.follow hfollow
  have hf : ∀ r < w₀.size, lines (hist r) <+: [.transfer 0 1] := by
    intro r hr
    obtain rfl | rfl : r = 0 ∨ r = 1 := by
      have : r < 2 := hr
      omega
    · exact hlines₀ ▸ List.prefix_refl _
    · exact hlines₁ ▸ List.prefix_refl _
  obtain ⟨wk, hwk, hoperands⟩ := List.map_eq_singleton_iff.mp hwork
  have hmem : wk ∈ (w.node 1).work := by
    rw [hwk]
    exact List.mem_cons_self
  have hfirst : wk.op.operands[0]? = some (.data 0 .read) := by rw [hoperands]; rfl
  obtain ⟨p, i, block, hp, hline, hplain, hshows, -⟩ :=
    World.Run.reads_first_transfer hcommon run hf (by decide) hmem hfirst (by decide)
  obtain rfl : block = [7] := Option.some.inj (hshows.symm.trans hshows₁)
  exact ⟨w₀, w, tiles, _, hist, mail, wk, hcommon, run, hf, hmem, hfirst, by decide, hshows₀, p, i,
    hp, hline, hplain⟩

end TiledTensor
