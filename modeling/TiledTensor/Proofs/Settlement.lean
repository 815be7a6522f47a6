import TiledTensor.Proofs.DoubleRuns
import TiledTensor.Proofs.Lockstep
import TiledTensor.Proofs.RemoteReads
import TiledTensor.Proofs.Settling

/-!
# Tenures settle

When a rank has nothing to do, its double can be brought to have nothing to do either.  A tenure in
which nothing can fail therefore comes to rest as a run does: no task and no message is left, the
tasks that retire tags are over as well, and the ranks show what plain execution shows
(`World.Tenure.settled`).
-/

namespace TiledTensor

variable {α : Type}

/-! ## Tasks that retire tags -/

theorem TaskGraph.isEmpty_of_contains {g : TaskGraph} (h : ∀ k, g.contains k = false) :
    g.isEmpty = true := by
  unfold isEmpty
  rw [List.isEmpty_iff, List.eq_nil_iff_forall_not_mem]
  intro e he
  refine Bool.eq_false_iff.mp (h e.1) ?_
  exact Table.has_iff.mpr (List.mem_map_of_mem (f := Prod.fst) he)

namespace Node

variable {first : Tag} {d : Diary α} {n : Node α} {s : Scheduler α} {net : Cluster} {y : Guise α}

/-- On a rank that has nothing to do, the tasks that retire tags are over if the others are. -/
theorem Tended.isEmpty (ht : n.Tended first d s) (he : n.events = []) (hw : n.work = [])
    (hothers : ∀ k, k ∉ d.retired → s.graph.contains k = false) : s.graph.isEmpty = true := by
  have hf := ht.kept.fits
  have hgiven : n.given d.record = d.record.submitted := by
    rw [given, he]
    exact List.append_nil _
  refine TaskGraph.isEmpty_of_contains fun k => ?_
  by_cases hk : k ∈ d.retired
  case neg => exact hothers k hk
  rw [Bool.eq_false_iff]
  intro hin
  obtain ⟨T, hdrop⟩ := Diary.Accounts.exists_drop hk
  obtain ⟨u, hu, rfl, hretires⟩ := ht.accounts.drops _ hdrop
  have hu' : u ∈ d.record.submitted := hgiven ▸ hu
  have hnodup : (d.record.submitted.map (·.id)).Nodup := by
    have := ht.kept.nodup
    rw [List.map_append] at this
    exact this.of_append_left
  -- it waits for none: the other tasks are over, and nobody waits for one that retires tags
  have hfree : s.graph.waitingOf u.id = 0 := by
    have hmem : u.entry ∈ d.record.roster := List.mem_map_of_mem hu'
    refine (hf.stands.waitingOf_eq_zero_iff hmem hin).mpr fun x hx hxin hconflict => ?_
    have hxk : x.1 ∈ d.retired := by
      by_contra hout
      rw [hothers x.1 hout] at hxin
      cases hxin
    have hspares := ht.accounts.spares
    rw [hgiven] at hspares
    exact hspares x u.entry hx hxk hconflict
  have hstarted : u.id ∈ d.record.started.map (·.id) := by
    refine (hf.waiting u.id).mpr ⟨List.mem_map_of_mem hu', fun hp => ?_⟩
    exact absurd ((hf.pending u.id).mp hp).2 (hfree ▸ Nat.lt_irrefl 0)
  obtain ⟨t, htin, htid⟩ := List.mem_map.mp hstarted
  obtain ⟨v, hv, hor⟩ := hf.started t htin
  obtain rfl : v = u := List.inj_on_of_nodup_map hnodup hv hu' (by
    rcases hor with rfl | ⟨-, rfl⟩ <;> exact htid)
  have htv : t = v := hor.resolve_right fun hg => by
    rw [hretires.job] at hg
    cases hg.1
  subst htv
  have hjob := hretires.job
  have hzero : n.dues d.record [] t.id = 0 := by
    have hended : t.id ∉ d.record.ended := ((hf.unfinished t.id).mp hin).2
    have harrivals : t.id ∉ n.arrivals.map (·.id) := by
      intro ha
      obtain ⟨a, ha, hid⟩ := List.mem_map.mp ha
      obtain ⟨t', ht', hid', -, src, tag, hjob'⟩ := ht.kept.arrivals a ha
      obtain rfl := List.inj_on_of_nodup_map hf.once htin ht' (hid.symm.trans hid'.symm)
      rw [hjob] at hjob'
      cases hjob'
    unfold dues
    rw [he, hw, List.count_eq_zero_of_not_mem hended, List.count_eq_zero_of_not_mem harrivals]
    rfl
  rcases ht.kept.dues t htin (by rw [hjob]; rfl) with hone | ⟨-, h, src, tag, hstuck, -⟩
  · rw [hzero] at hone
    cases hone
  · rw [hjob] at hstuck
    cases hstuck

/-! ## Nothing to do -/

variable [Scalar α]

theorem takeArrival_under (net : Cluster) (n : Node α) (y : Guise α) (i : Nat) :
    takeArrival net (n.under y) i = none ↔ takeArrival net n i = none := by
  unfold takeArrival
  rw [show (n.under y).arrivals = n.arrivals from rfl]
  cases n.arrivals[i]? with
  | none => exact Iff.rfl
  | some a =>
    dsimp only
    cases net.receipts.find? a.ticket with
    | none => exact Iff.rfl
    | some r => cases r <;> simp

/-- A rank that has nothing to do has nothing to do under a guise without events. -/
theorem step_under (h : n.step net = none) (hy : y.events = []) : (n.under y).step net = none := by
  obtain ⟨-, hwork, harrive⟩ := step_eq_none h
  have htake : takeEvent net (n.under y) = none := by
    unfold takeEvent
    rw [show (n.under y).events = [] from hy]
    split
    · rename_i hcons
      cases hcons
    · rfl
  have hwork' : (n.under y).runWork 0 = none := by
    unfold runWork at hwork ⊢
    rw [show (n.under y).work = n.work from rfl]
    cases hw : n.work[0]? with
    | none => rfl
    | some w =>
      rw [hw] at hwork
      cases hwork
  unfold step
  rw [htake, hwork', Option.none_or, Option.map_none, Option.none_or, List.findSome?_eq_none_iff]
  intro i hi
  exact (takeArrival_under net n y i).mpr (harrive i (List.mem_range.mp hi))

end Node

namespace World

variable [Scalar α]

theorem stepAny_eq_none {net : Cluster} {nodes : List (Node α)} (h : ∀ n ∈ nodes, n.step net = none) :
    World.stepAny net nodes = none := by
  induction nodes with
  | nil => rfl
  | cons n nodes ih =>
    unfold World.stepAny
    rw [h n List.mem_cons_self, ih fun m hm => h m (List.mem_cons_of_mem _ hm)]
    rfl

theorem step_eq_none_of_nodes {w : World α} (h : ∀ r < w.size, (w.node r).step w.cluster = none) :
    w.step = none := by
  refine Option.map_eq_none_iff.mpr (stepAny_eq_none fun n hn => ?_)
  obtain ⟨r, hr⟩ := List.getElem?_of_mem hn
  have hnode : w.node r = n := by
    unfold World.node
    rw [List.getD_eq_getElem?_getD, hr]
    rfl
  exact hnode ▸ h r (lt_of_getElem?_eq_some hr)

/-- Once nothing is left to do, every rank shows what plain execution shows. -/
theorem Run.shows_plain {w₀ w : World α} {tiles : List Tensor.Blueprint} {plan : List Line}
    {hist : Rank → List (Entry α)} {mail : Rank → Mail} (hw : w₀.Common tiles plan)
    (run : w₀.Run hist mail w) (hf : ∀ r < w₀.size, lines (hist r) = plan)
    (hidle : ∀ r < w₀.size, (w.node r).Idle) :
    ∀ r < w₀.size, (w.node r).shows = (w₀.plain plan hist plan.length r).shows := by
  obtain ⟨V, log, done, hsize, hc⟩ := run.sound hw fun r hr => hf r hr ▸ List.prefix_refl _
  intro r hr
  obtain ⟨s, hs, hempty, hevents⟩ := hidle r hr
  have hl : (w.node r).Ledger (w₀.node r) (hist r) V (log r) (done r) [] := hc.ledger r hr
  have hall : ∀ k < (log r).length, done r k := hl.account.done_of_isEmpty hs hempty hevents
  -- what has been sent for the lines of the rank is what plain execution brings
  have hdeeds : (w₀.node r).deeds (w₀.brought plan hist) (hist r) =
      (w₀.node r).deeds V (hist r) := by
    refine List.map_congr_left fun e he => Node.Ledger.deed_eq fun h heq => ?_
    obtain ⟨k, hk⟩ := List.getElem?_of_mem he
    have hasks : ((w₀.node r).duties (hist r))[k]? = some (e.1, .transfer h r) := by
      rw [hk, ← hw.rank r hr, ← heq]
    obtain ⟨t, ht, -⟩ := hl.exists_task hk
    obtain ⟨block, hblock⟩ := Option.ne_none_iff_exists'.mp
      (hc.received r hr k e.1 h hasks (hall k (lt_of_getElem?_eq_some ht)))
    rw [hblock]
    exact hc.brought_eq hw hblock
  have hplan : ∀ l ∈ plan, l.tile < (w₀.node r).handles.length := by
    intro l hl
    have hprefix := (hw.handles r hr).length_le
    rw [List.length_map] at hprefix
    exact Nat.lt_of_lt_of_le (hw.plan l hl) hprefix
  obtain ⟨-, hplain⟩ := World.shows_plain (hw.rank r hr) (hc.follows r hr) hplan
    (fun e he hown => hl.bounds_of_own he hown) (List.append_nil (hist r)).symm
    (fun e he => by cases he) (congrArg List.length (hf r hr))
  rw [hl.account.faithful.final hall, ← hdeeds]
  exact hplain.symm

section

variable {w₀ w₁ w w' : World α} {first : Tag} {specs : List (Tiling × List Rank)}
  {program : List Milestone} {tiles : List Tensor.Blueprint} {d : Rank → Diary α} {mail : Rank → Mail}

/-- The doubles catch up with their ranks, one after the other. -/
theorem Doubled.exists_catchUp (hd : Doubled w₁ tiles d w mail w')
    (halive : ∀ r < w.size, (w.node r).scheduler.isSome) {m : Nat} (hm : m ≤ w.size) :
    ∃ mail' w'', Doubled w₁ tiles d w mail' w'' ∧
      ∀ r < m, ∀ e ∈ (w''.node r).events.head?, e.hidden (d r).retired = false := by
  induction m with
  | zero => exact ⟨mail, w', hd, fun r hr => absurd hr (Nat.not_lt_zero r)⟩
  | succ r ih =>
    have hr : r < w.size := hm
    obtain ⟨mail, w', hd, hbefore⟩ := ih (Nat.le_of_lt hm)
    obtain ⟨x, hx, hnode⟩ := hd.nodes r hr
    obtain ⟨s, hs⟩ := Option.isSome_iff_exists.mp (halive r hr)
    obtain ⟨tasks', habreast, hlight, hlt⟩ := hx.abreast (halive r hr)
    obtain ⟨y, tasks'', hquiets, hrest, hcode, hagenda, hhead, hab, hlight'⟩ :=
      habreast.exists_catchUp hs hlight w.cluster
    obtain ⟨m', hway, hasked, htaken⟩ := hquiets.reaches (d r).hist (mail r)
    rw [← hnode, ← hd.cluster] at hway
    obtain ⟨w'', run, hsize, hcluster, hnodes⟩ := hd.run.reaches (hd.size ▸ hr) hway
    rw [Function.update_eq_self] at run
    refine ⟨_, w'', ⟨run, hsize.trans hd.size, hcluster.trans hd.cluster, fun q => ?_, fun q => ?_,
      fun q hq => ?_⟩, fun q hq => ?_⟩
    · by_cases heq : q = r
      · subst heq
        rw [Function.update_self]
        exact hasked.trans (hd.asked q)
      · rw [Function.update_of_ne heq]
        exact hd.asked q
    · by_cases heq : q = r
      · subst heq
        rw [Function.update_self]
        exact htaken.trans (hd.taken q)
      · rw [Function.update_of_ne heq]
        exact hd.taken q
    · rw [hnodes]
      by_cases heq : q = r
      · subst heq
        rw [Function.update_self]
        exact ⟨y, ⟨hrest.trans hx.rest, hcode.trans hx.codelets, hab.isSome_eq, fun _ =>
          ⟨tasks'', hab, hlight', hagenda ▸ hlt⟩⟩, rfl⟩
      · rw [Function.update_of_ne heq]
        exact hd.nodes q hq
    · rw [hnodes]
      by_cases heq : q = r
      · subst heq
        rw [Function.update_self]
        exact hhead
      · rw [Function.update_of_ne heq]
        exact hbefore q (Nat.lt_of_le_of_ne (Nat.le_of_lt_succ hq) heq)

/-- When the ranks have come past a whole program in which nothing can fail, nothing is held and no
step is left, then neither they nor their doubles have anything left to do. -/
theorem Tenure.exists_settled (hw : w₀.Bare) (hp : Shares w₀.size first specs program tiles)
    (tenure : w₀.Tenure first d w) (hh : Heeds w₀.size specs program d)
    (hall : ∀ r < w₀.size, (d r).milestones = program)
    (hu : ∀ r < w₀.size, ((w₀.double tiles).node r).Unfailing (d r).hist)
    (hheld : ∀ r < w₀.size, ∀ id, (w.node r).held id = none) (hstep : w.step = none) :
    (∃ mail w', Doubled (w₀.double tiles) tiles d w mail w' ∧ ∀ r < w₀.size, (w'.node r).Idle) ∧
      (∀ r < w₀.size, ∃ s, (w.node r).scheduler = some s ∧ s.graph.isEmpty = true) ∧
      ∀ box ∈ w.cluster.mailboxes, box.messages = [] ∧ box.waiters = [] := by
  have hcommon := hw.common hp
  have hk := tenure.kept hw
  have hsize : (w₀.double tiles).size = w₀.size := size_double w₀ tiles
  rw [← hsize] at hu hall
  obtain ⟨mail, w', hd⟩ := tenure.exists_double hw hp hh
  have hlines : ∀ r < (w₀.double tiles).size, TiledTensor.lines (d r).hist = plan program := by
    intro r hr
    rw [(hk.stocked r (hsize ▸ hr)).lines, hall r hr]
    rfl
  have hintact := hd.run.intact hcommon (fun r hr => hlines r hr ▸ List.prefix_refl _) hu
  have halive : ∀ r < w.size, (w.node r).scheduler.isSome := by
    intro r hr
    obtain ⟨x, hx, hnode⟩ := hd.nodes r hr
    have hsome := (hintact r (hsize.symm ▸ hk.size ▸ hr)).2
    rw [hnode] at hsome
    exact hx.isSome ▸ hsome
  obtain ⟨mail', w'', hd', hhead⟩ := hd.exists_catchUp halive (Nat.le_refl _)
  have hnodes : ∀ r < w.size, ∃ y tasks' s, w''.node r = (w.node r).under y ∧ y.events = [] ∧
      (w.node r).scheduler = some s ∧ (w.node r).events = [] ∧ (w.node r).work = [] ∧
      Node.Abreast (d r).retired (d r).record.roster tasks' (w.node r) y := by
    intro r hr
    obtain ⟨y, hy, hnode⟩ := hd'.nodes r hr
    obtain ⟨s, hs⟩ := Option.isSome_iff_exists.mp (halive r hr)
    obtain ⟨hevents, hwork⟩ := Node.idle_of_step (step_node_eq_none hstep hr) hs
    obtain ⟨tasks', habreast, -, -⟩ := hy.abreast (halive r hr)
    refine ⟨y, tasks', s, hnode, ?_, hs, hevents, hwork, habreast⟩
    have hseen := habreast.events
    rw [hevents] at hseen
    cases he : y.events with
    | nil => rfl
    | cons e events =>
      have hfirst := hhead r hr e (by rw [hnode, show ((w.node r).under y).events = y.events from rfl, he]; rfl)
      rw [he, seen_cons_of_not_hidden hfirst] at hseen
      cases hseen
  have hstep' : w''.step = none := by
    refine step_eq_none_of_nodes fun r hr => ?_
    rw [hd'.size] at hr
    obtain ⟨y, -, -, hnode, hy, -⟩ := hnodes r hr
    rw [hnode, hd'.cluster]
    exact Node.step_under (step_node_eq_none hstep hr) hy
  have hheld' : ∀ r < (w₀.double tiles).size, ∀ id, (w''.node r).held id = none := by
    intro r hr id
    rw [hsize] at hr
    obtain ⟨y, -, -, hnode, -⟩ := hnodes r (hk.size.symm ▸ hr)
    rw [hnode]
    exact hheld r hr id
  obtain ⟨hempty, hboxes⟩ := hd'.run.settled hcommon hlines hu hheld' hstep'
  rw [hd'.cluster] at hboxes
  refine ⟨⟨mail', w'', hd', fun r hr => ?_⟩, fun r hr => ?_, hboxes⟩
  · obtain ⟨y, -, -, hnode, hy, -⟩ := hnodes r (hk.size.symm ▸ hr)
    obtain ⟨s', hs', hnone⟩ := hempty r (hsize.symm ▸ hr)
    refine ⟨s', hs', hnone, fun t ht => ?_⟩
    rw [hnode, show ((w.node r).under y).events = y.events from rfl, hy] at ht
    cases ht
  · obtain ⟨y, tasks', s, hnode, -, hs, hevents, hwork, habreast⟩ := hnodes r (hk.size.symm ▸ hr)
    obtain ⟨s', hs', hnone⟩ := hempty r (hsize.symm ▸ hr)
    rw [hnode] at hs'
    obtain ⟨s'', hs'', twin⟩ := habreast.twin hs
    obtain rfl : s'' = s' := Option.some.inj (hs''.symm.trans hs')
    refine ⟨s, hs, (hk.tended r hr s hs).isEmpty hevents hwork fun k hout => ?_⟩
    rw [← twin.contains k hout, TaskGraph.contains, TaskGraph.nodes_of_isEmpty hnone]
    rfl

/-- Then no task and no message is left, no rank waits for one, and every rank shows what plain
execution of the program shows. -/
theorem Tenure.settled (hw : w₀.Bare) (hp : Shares w₀.size first specs program tiles)
    (tenure : w₀.Tenure first d w) (hh : Heeds w₀.size specs program d)
    (hall : ∀ r < w₀.size, (d r).milestones = program)
    (hu : ∀ r < w₀.size, ((w₀.double tiles).node r).Unfailing (d r).hist)
    (hheld : ∀ r < w₀.size, ∀ id, (w.node r).held id = none) (hstep : w.step = none) :
    (∀ r < w₀.size, ∃ s, (w.node r).scheduler = some s ∧ s.graph.isEmpty = true) ∧
      (∀ box ∈ w.cluster.mailboxes, box.messages = [] ∧ box.waiters = []) ∧
      ∀ r < w₀.size, ∀ h < (w.node r).handles.length, (w.node r).shows h =
        ((w₀.double tiles).plain (plan program) (fun q => (d q).hist) (plan program).length r).shows h := by
  have hk := tenure.kept hw
  have hsize : (w₀.double tiles).size = w₀.size := size_double w₀ tiles
  obtain ⟨⟨mail, w', hd, hidle⟩, hempty, hboxes⟩ := tenure.exists_settled hw hp hh hall hu hheld hstep
  refine ⟨hempty, hboxes, fun r hr h hlt => ?_⟩
  obtain ⟨x, -, hnode⟩ := hd.nodes r (hk.size.symm ▸ hr)
  have hlines : ∀ r < (w₀.double tiles).size, TiledTensor.lines (d r).hist = plan program := by
    intro r hr
    rw [(hk.stocked r (hsize ▸ hr)).lines, hall r (hsize ▸ hr)]
    rfl
  have hplain := hd.run.shows_plain (hw.common hp) hlines (fun r hr => hidle r (hsize ▸ hr)) r
    (hsize.symm ▸ hr)
  rw [← hplain, hnode]
  exact (congrArg Handle.shows (Node.handle_under hlt)).symm

end

end World

end TiledTensor
