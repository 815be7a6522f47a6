import TiledTensor.Proofs.Doubling

/-!
# A run beside each tenure

All ranks make the same tensors, and come past the same lines and drops, each at its own pace.  Then
beside their tenure there is a run of ranks that have all tensors from the start and give none up,
in which the same happens (`World.Tenure.exists_double`).

What is known about runs holds of the run beside a tenure, so the mailboxes of a rank hold nothing
any more under tags that it retires (`World.Doubled.calm`); and since retiring them does nothing,
the run can go on beside the tenure.
-/

namespace TiledTensor

variable {α : Type} [Scalar α]

/-! ## The start -/

namespace World

/-- No rank has made or been asked for anything. -/
structure Bare (w : World α) : Prop where
  cluster : w.cluster = Cluster.ofSize w.size
  nodes : ∀ r < w.size, ∃ codelets, w.node r = { rank := r, size := w.size, codelets }

omit [Scalar α] in
theorem node_map (w : World α) (f : Node α → Node α) (cluster : Cluster) {r : Rank}
    (hr : r < w.size) : (⟨cluster, w.nodes.map f⟩ : World α).node r = f (w.node r) := by
  unfold World.node
  rw [List.getD_eq_getElem?_getD, List.getD_eq_getElem?_getD, List.getElem?_map,
    List.getElem?_eq_getElem (show r < w.nodes.length from hr)]
  rfl

/-- The world whose ranks have all tiles from the start, and know of an operation that does
nothing. -/
def double (w : World α) (tiles : List Tensor.Blueprint) : World α :=
  ⟨w.cluster, w.nodes.map fun n => { n with
    codelets := "idle" :: n.codelets
    handles := n.handles ++ tiles.map Tensor.Blueprint.handle }⟩

/-- What a program says that is good for `size` ranks: which tensors are made, and what is done with
their tiles. -/
structure Shares (size : Nat) (first : Tag) (specs : List (Tiling × List Rank))
    (program : List Milestone) (tiles : List Tensor.Blueprint) : Prop where
  designs : ∃ stop, Tensor.designs first specs = .ok (tiles, stop)
  owners : ∀ b ∈ tiles, b.owner < size
  known : ∀ l, Milestone.line l ∈ program → l.tile < tiles.length

/-- The lines of a program. -/
def plan (program : List Milestone) : List Line := program.filterMap Milestone.line?

section

variable {w : World α} {first : Tag} {specs : List (Tiling × List Rank)} {program : List Milestone}
  {tiles : List Tensor.Blueprint} {r : Rank}

omit [Scalar α] in
/-- The tiles of a program have the tags in order. -/
theorem Shares.tag {size : Nat} (hp : Shares size first specs program tiles) {h : HandleId}
    {b : Tensor.Blueprint} (hb : tiles[h]? = some b) : b.tag = ⟨first.val + h⟩ := by
  obtain ⟨stop, hd⟩ := hp.designs
  have htag := congrArg (·[h]?) (Tensor.tags_of_designs hd).1
  rw [List.getElem?_map, hb, List.getElem?_range' (lt_of_getElem?_eq_some hb), Nat.one_mul] at htag
  exact congrArg Tag.mk (Option.some.inj htag)

omit [Scalar α] in
theorem size_double (w : World α) (tiles : List Tensor.Blueprint) : (w.double tiles).size = w.size :=
  List.length_map ..

omit [Scalar α] in
/-- The double of a world begins with the tiles. -/
theorem Bare.common (hw : w.Bare) (hp : Shares w.size first specs program tiles) :
    (w.double tiles).Common tiles (plan program) := by
  obtain ⟨stop, hd⟩ := hp.designs
  have hsize := size_double w tiles
  refine ⟨alike_of_nodes (hsize.symm ▸ hw.cluster) (hsize.symm ▸ hp.owners) ?_ fun r hr => ?_, fun l hl => ?_⟩
  · refine List.Nodup.of_map Tag.val ?_
    rw [List.map_map]
    exact (Tensor.tags_of_designs hd).1 ▸ List.nodup_range'
  · rw [hsize] at hr ⊢
    obtain ⟨codelets, hnode⟩ := hw.nodes r hr
    refine ⟨"idle" :: codelets, [], ?_, fun e he => by cases he⟩
    unfold double
    rw [node_map _ _ _ hr, hnode, List.append_nil]
    rfl
  · obtain ⟨x, hx, hline⟩ := List.mem_filterMap.mp hl
    cases x with
    | line l' => exact hp.known l (Option.some.inj hline ▸ hx)
    | drop t => cases hline

end

/-! ## Tenures -/

namespace Tenure

variable {w₀ w : World α} {first : Tag} {d : Rank → Diary α} {r : Rank}

/-- What holds of all ranks over a tenure. -/
structure Kept (w₀ : World α) (first : Tag) (d : Rank → Diary α) (w : World α) : Prop where
  size : w.size = w₀.size
  rank : ∀ r < w₀.size, (w.node r).rank = r
  stocked : ∀ r < w₀.size, (w.node r).Stocked first (d r)
  tended : ∀ r < w₀.size, ∀ s, (w.node r).scheduler = some s → (w.node r).Tended first (d r) s

omit [Scalar α] in
theorem kept_nil (hw : w₀.Bare) (first : Tag) : Kept w₀ first (fun _ => { next := first }) w₀ := by
  refine ⟨rfl, fun r hr => ?_, fun r hr => ?_, fun r hr s hs => ?_⟩
  · obtain ⟨codelets, hnode⟩ := hw.nodes r hr
    rw [hnode]
  · obtain ⟨codelets, hnode⟩ := hw.nodes r hr
    rw [hnode]
    have hnone : ∀ {β : Type} {x : β}, x ∉ ([] : List β) := List.not_mem_nil
    refine ⟨⟨fun t ht => absurd ht hnone, fun s hs k t ht => ?_, fun w hw => absurd hw hnone,
      fun c hc => absurd hc hnone, fun k c hc => ?_⟩, ⟨[], rfl, rfl⟩, fun h hh => ?_,
      fun t ht => absurd ht hnone, .nil, rfl, fun t => ?_, fun t l hb => ?_⟩
    · cases hs
      cases ht
    · cases hc
    · exact absurd hh (Nat.not_lt_zero h)
    · exact iff_of_false hnone hnone
    · exact absurd hb.mem_left hnone
  · obtain ⟨codelets, hnode⟩ := hw.nodes r hr
    have hfresh : (w₀.node r).Fresh := by
      rw [hnode]
      exact Node.fresh_of_handles r w₀.size codelets fun e he => absurd he List.not_mem_nil
    obtain rfl : {} = s := Option.some.inj (hfresh.scheduler.symm.trans hs)
    refine ⟨hfresh.kept, ?_⟩
    rw [Node.given, hfresh.events]
    exact .nil first first _

omit [Scalar α] in
theorem node_update {m : Node α} {net : Cluster} {q : Rank} (hr : r < w.size) :
    ({ w.setNode r m with cluster := net } : World α).node q = if q = r then m else w.node q :=
  node_setNode hr m q

theorem kept (hw : w₀.Bare) (tenure : w₀.Tenure first d w) : Kept w₀ first d w := by
  induction tenure with
  | nil => exact kept_nil hw first
  | @snoc d w net n e r p tenure exists_rank step ih =>
    have hr := ih.size ▸ exists_rank
    have htends := Node.tends_of_tend step
    have hstocked := ih.stocked r hr
    refine ⟨(List.length_set ..).trans ih.size, fun q hq => ?_, fun q hq => ?_, fun q hq => ?_⟩
    · rw [node_update exists_rank]
      split
      · rename_i heq
        rw [htends.rank, ih.rank r hr, heq]
      · exact ih.rank q hq
    · rw [node_update exists_rank]
      by_cases heq : q = r
      · subst heq
        rw [if_pos rfl, Function.update_self]
        exact hstocked.tend htends
      · rw [if_neg heq, Function.update_of_ne heq]
        exact ih.stocked q hq
    · rw [node_update exists_rank]
      by_cases heq : q = r
      · subst heq
        rw [if_pos rfl, Function.update_self]
        intro s' hs'
        obtain ⟨s, hs⟩ := Option.isSome_iff_exists.mp (htends.alive (hs' ▸ rfl))
        exact (ih.tended q hr s hs).tend hstocked htends hs'
      · rw [if_neg heq, Function.update_of_ne heq]
        exact ih.tended q hq

end Tenure

/-! ## The run beside a tenure -/

/-- A run beside a tenure: in both the same has happened, and each rank has come to the same as its
double. -/
structure Doubled (w₁ : World α) (tiles : List Tensor.Blueprint) (d : Rank → Diary α) (w : World α)
    (mail : Rank → Mail) (w' : World α) : Prop where
  run : w₁.Run (fun r => (d r).hist) mail w'
  size : w'.size = w.size
  cluster : w'.cluster = w.cluster
  asked : ∀ r, (mail r).asked = (d r).mail.asked
  taken : ∀ r, (mail r).taken = (d r).mail.taken
  nodes : ∀ r < w.size, ∃ x, (w.node r).Doubled tiles (d r) x ∧ w'.node r = (w.node r).under x

/-- The ranks follow a program. -/
structure Heeds (size : Nat) (specs : List (Tiling × List Rank)) (program : List Milestone)
    (d : Rank → Diary α) : Prop where
  made : ∀ r < size, (d r).made <+: specs
  milestones : ∀ r < size, (d r).milestones <+: program

section

variable {w₀ w w' : World α} {first : Tag} {specs : List (Tiling × List Rank)}
  {program : List Milestone} {tiles : List Tensor.Blueprint} {d : Rank → Diary α} {mail : Rank → Mail}
  {r : Rank}

omit [Scalar α] in
theorem Heeds.lines (hh : Heeds w₀.size specs program d) (hk : Tenure.Kept w₀ first d w) :
    ∀ r < w₀.size, TiledTensor.lines (d r).hist <+: plan program := by
  intro r hr
  rw [(hk.stocked r hr).lines]
  exact (hh.milestones r hr).filterMap _

/-- What is known about runs is known about the run beside a tenure. -/
theorem Doubled.sound (hw : w₀.Bare) (hp : Shares w₀.size first specs program tiles)
    (hk : Tenure.Kept w₀ first d w) (hh : Heeds w₀.size specs program d)
    (hd : Doubled (w₀.double tiles) tiles d w mail w') : ∃ V log done,
      Coherent (w₀.double tiles) tiles (plan program) w.cluster V
        (w'.site (fun r => (d r).hist) mail log done) := by
  obtain ⟨V, log, done, -, hc⟩ := hd.run.sound (hw.common hp) fun r hr =>
    hh.lines hk r (size_double w₀ tiles ▸ hr)
  rw [hd.cluster] at hc
  exact ⟨V, log, done, hc⟩

section

variable {s : Scheduler α} {e : Event α} {events : List (Event α)} {q : Scheduler α × Reaction α}
  {u : Task α} {T : Tensor} {h : HandleId} {k : TaskId} {V : Nat → Option (List α)}
  {log : Rank → List (Task α)} {done : Rank → TaskId → Prop}

variable (hw : w₀.Bare) (hp : Shares w₀.size first specs program tiles)
  (hk : Tenure.Kept w₀ first d w) (hh : Heeds w₀.size specs program d)
  (hd : Doubled (w₀.double tiles) tiles d w mail w') (hr : r < w₀.size)
  (hs : (w.node r).scheduler = some s) (he : (w.node r).events = e :: events)
  (hok : s.react e = .ok q)

include hk hd hr hs he hok in
/-- The receives on the buffers of a tensor are done when a rank is about to retire its tags. -/
theorem Doubled.done_of_asked (hc : Coherent (w₀.double tiles) tiles (plan program) w.cluster V
      (w'.site (fun r => (d r).hist) mail log done)) (hu : u ∈ q.2.started)
    (hdrop : (u.id, T) ∈ (d r).drops) (hasked : (h, k) ∈ (d r).mail.asked) (hin : h ∈ T.handles) :
    done r k := by
  have hr' : r < (w₀.double tiles).size := (size_double w₀ tiles).symm ▸ hr
  have ht := hk.tended r hr s hs
  obtain ⟨x, hx, hnode⟩ := hd.nodes r (hk.size.symm ▸ hr)
  obtain ⟨tasks', habreast, -, -⟩ := hx.abreast (hs ▸ rfl)
  have hl := hc.ledger r hr'
  unfold World.site at hl
  dsimp only at hl
  rw [hnode] at hl
  exact ht.done_of_ended he habreast hl (hc.tallies r hr') (hd.asked r) hasked
    (ht.ended_of_asked he hok hu hdrop hasked hin)

include hw hp hk hh hd hr hs he hok in
/-- They have brought something. -/
theorem Doubled.exists_taken (hu : u ∈ q.2.started) (hdrop : (u.id, T) ∈ (d r).drops)
    (hasked : (h, k) ∈ (d r).mail.asked) (hin : h ∈ T.handles) :
    ∃ payload, (h, k, payload) ∈ (d r).mail.taken := by
  obtain ⟨V, log, done, hc⟩ := hd.sound hw hp hk hh
  have hdone := hd.done_of_asked hk hr hs he hok hc hu hdrop hasked hin
  rw [← hd.asked r] at hasked
  rw [← hd.taken r]
  exact (hc.tallies r ((size_double w₀ tiles).symm ▸ hr)).exists_taken hasked hdone

include hw hp hk hh hd hr hs he hok in
/-- Nothing is left under the tags that a rank is about to retire. -/
theorem Doubled.calm : (d r).Calm r q.2.started w.cluster := by
  intro u hu T hdrop
  have hcommon := hw.common hp
  have hsize : (w₀.double tiles).size = w₀.size := size_double w₀ tiles
  obtain ⟨V, log, done, hc⟩ := hd.sound hw hp hk hh
  have hr' : r < (w₀.double tiles).size := hsize.symm ▸ hr
  have hin : T ∈ (d r).drops.map (·.2) := List.mem_map_of_mem (f := Prod.snd) hdrop
  have hplaced := (hk.stocked r hr).placed_of_drop hin
  refine hc.clear hcommon hr' (fun h b hb => hp.tag hb) hplaced ?_ ?_
  · intro h hhandle k i hasks
    have hrank : ((w₀.double tiles).node r).rank = r := hcommon.rank r hr'
    have hasked : (h, k) ∈ (d r).mail.asked := by
      rw [← hd.asked r]
      refine (hc.tallies r hr').mem_asked (i := i) ?_
      rw [hrank]
      exact hasks
    exact hd.done_of_asked hk hr hs he hok hc hu hdrop hasked hhandle
  · intro h hhandle q' hq i hline
    rw [hsize] at hq
    show i < (TiledTensor.lines (d r).hist).length
    have hline : (TiledTensor.lines (d q').hist)[i]? = some (.transfer h r) := hline
    rw [(hk.stocked q' hq).lines] at hline
    rw [(hk.stocked r hr).lines]
    exact line_lt_of_drop (hh.milestones r hr) (hh.milestones q' hq)
      (((hk.stocked r hr).dropped T).mpr hin) ((hk.stocked q' hq).order T) hline hhandle

end

omit [Scalar α] in
/-- Ranks that follow a program have followed it before. -/
theorem Heeds.of_update {e : Diary α} (hh : Heeds w₀.size specs program (Function.update d r e))
    (hmade : (d r).made <+: e.made) (hmilestones : (d r).milestones <+: e.milestones) :
    Heeds w₀.size specs program d := by
  refine ⟨fun q hq => ?_, fun q hq => ?_⟩
  · have hnow := hh.made q hq
    by_cases heq : q = r
    · subst heq
      rw [Function.update_self] at hnow
      exact hmade.trans hnow
    · rwa [Function.update_of_ne heq] at hnow
  · have hnow := hh.milestones q hq
    by_cases heq : q = r
    · subst heq
      rw [Function.update_self] at hnow
      exact hmilestones.trans hnow
    · rwa [Function.update_of_ne heq] at hnow

/-- In the beginning the double of a world has done as little as the world. -/
theorem Bare.doubled (hw : w₀.Bare) (first : Tag) (tiles : List Tensor.Blueprint) :
    Doubled (w₀.double tiles) tiles (fun _ => { next := first }) w₀ (fun _ => {}) (w₀.double tiles) := by
  refine ⟨.nil, size_double w₀ tiles, rfl, fun r => rfl, fun r => rfl, fun r hr => ?_⟩
  obtain ⟨codelets, hnode⟩ := hw.nodes r hr
  let x : Guise α := ⟨tiles.map Tensor.Blueprint.handle, "idle" :: codelets, some {}, [], [], 0⟩
  have hnone : ∀ {β : Type} {y : β}, y ∉ ([] : List β) := List.not_mem_nil
  have htwin : Scheduler.Twin [] ({} : Scheduler α) {} [] [] :=
    ⟨TaskGraph.stands_empty, TaskGraph.stands_empty, rfl, .nil, .nil, fun _ _ => rfl, fun _ _ => rfl,
      (fun _ _ ht => by cases ht), fun _ _ => rfl⟩
  refine ⟨x, ?_, ?_⟩
  · rw [hnode]
    exact ⟨rfl, rfl, rfl, fun _ => ⟨[], ⟨.running htwin, rfl, fun k hk => absurd hk hnone⟩,
      ⟨fun z hz => absurd hz hnone, fun t ht => absurd ht hnone, .nil⟩, fun z hz => absurd hz hnone⟩⟩
  · unfold double
    rw [node_map _ _ _ hr, hnode]
    rfl

/-- Beside a tenure of ranks that follow a program there is a run in which the same has happened. -/
theorem Tenure.exists_double (hw : w₀.Bare) (hp : Shares w₀.size first specs program tiles)
    (tenure : w₀.Tenure first d w) (hh : Heeds w₀.size specs program d) :
    ∃ mail w', Doubled (w₀.double tiles) tiles d w mail w' := by
  induction tenure with
  | nil => exact ⟨_, _, hw.doubled first tiles⟩
  | @snoc d w net n e r p tenure exists_rank step ih =>
    have htends := Node.tends_of_tend step
    have hbefore := hh.of_update htends.isPrefix.1 htends.isPrefix.2
    obtain ⟨mail, w', hd⟩ := ih hbefore
    have hk := tenure.kept hw
    have hr := hk.size ▸ exists_rank
    obtain ⟨stop, hdesigns⟩ := hp.designs
    obtain ⟨x, hx, hnode⟩ := hd.nodes r exists_rank
    have hmade := hh.made r hr
    rw [Function.update_self] at hmade
    have hcalm : ∀ s f events q, (w.node r).scheduler = some s → (w.node r).events = f :: events →
        s.react f = .ok q → (d r).Calm (w.node r).rank q.2.started w.cluster := by
      intro s f events q hs he hok
      rw [hk.rank r hr]
      exact hd.calm hw hp hk hbefore hr hs he hok
    obtain ⟨y, m', hway, hasked, htaken, hdouble⟩ := hx.tend (hk.stocked r hr) (hk.tended r hr) hmade
      hdesigns hcalm htends (hd.asked r) (hd.taken r)
    rw [← hnode, ← hd.cluster] at hway
    obtain ⟨w'', run, hsize, hcluster, hnodes⟩ := hd.run.reaches (hd.size ▸ exists_rank) hway
    have hhist : (fun q => (Function.update d r e q).hist) =
        Function.update (fun q => (d q).hist) r e.hist :=
      Function.comp_update Diary.hist d r e
    refine ⟨Function.update mail r m', w'', hhist ▸ run, hsize.trans (hd.size.trans ?_), hcluster,
      fun q => ?_, fun q => ?_, fun q hq => ?_⟩
    · exact (List.length_set ..).symm
    · by_cases heq : q = r
      · subst heq
        rw [Function.update_self, Function.update_self]
        exact hasked
      · rw [Function.update_of_ne heq, Function.update_of_ne heq]
        exact hd.asked q
    · by_cases heq : q = r
      · subst heq
        rw [Function.update_self, Function.update_self]
        exact htaken
      · rw [Function.update_of_ne heq, Function.update_of_ne heq]
        exact hd.taken q
    · rw [Tenure.node_update exists_rank, hnodes]
      by_cases heq : q = r
      · subst heq
        rw [Function.update_self, Function.update_self, if_pos rfl]
        exact ⟨y, hdouble, rfl⟩
      · rw [Function.update_of_ne heq, Function.update_of_ne heq, if_neg heq]
        refine hd.nodes q (Nat.lt_of_lt_of_eq hq ?_)
        exact List.length_set ..

end

end World

end TiledTensor
