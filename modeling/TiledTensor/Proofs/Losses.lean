import TiledTensor.Proofs.Joint
import TiledTensor.Proofs.Settlement

/-!
# Giving up tensors loses no transfer

All ranks make the same tensors and follow the same program, and give tensors up as the program
says, however much is still to be done then.  Whenever a task comes to be started that retires the
tags of a tensor, there is nothing to retire, and so nothing that was asked for before is lost
(`World.Tenure.drops_lose_nothing`).
-/

namespace TiledTensor

variable {α : Type}

/-! ## Dispatch -/

/-- A task that is about to be started, with the cluster and the rank as they are then. -/
structure Dispatch (α : Type) where
  net : Cluster
  node : Node α
  task : Task α

namespace Node

variable [Scalar α]

/-- The starts of tasks in order, as long as the scheduler goes on. -/
def dispatchAll (net : Cluster) (n : Node α) : List (Task α) → List (Dispatch α)
  | [] => []
  | t :: tasks => ⟨net, n, t⟩ ::
    if (start net n t).2.scheduler.isSome then (start net n t).2.dispatchAll (start net n t).1 tasks
    else []

/-- What is started when the rank takes its oldest event. -/
def dispatches (net : Cluster) (n : Node α) : List (Dispatch α) :=
  match n.scheduler, n.events with
  | some s, e :: events =>
    match s.react e with
    | .error _ => []
    | .ok (s, r) => dispatchAll net { n with events, scheduler := some s } r.started
  | _, _ => []

variable {net : Cluster} {n m : Node α} {tasks : List (Task α)} {s : Scheduler α} {e : Event α}
  {events : List (Event α)} {q : Scheduler α × Reaction α} {x : Dispatch α} {first : Tag} {d : Diary α}

/-- What every start keeps holds whenever a task is about to be started. -/
theorem dispatchAll_induction {P : List (Task α) → Cluster → Node α → Prop}
    (hgo : ∀ t todo net n, P (t :: todo) net n → (start net n t).2.scheduler.isSome →
      P todo (start net n t).1 (start net n t).2) (h : P tasks net n) :
    ∀ x ∈ n.dispatchAll net tasks, ∃ todo, P (x.task :: todo) x.net x.node := by
  induction tasks generalizing net n with
  | nil => exact fun x hx => absurd hx List.not_mem_nil
  | cons t tasks ih =>
    intro x hx
    unfold dispatchAll at hx
    rcases List.mem_cons.mp hx with rfl | hx
    · exact ⟨tasks, h⟩
    · split at hx
      · rename_i halive
        exact ih (hgo t tasks net n h halive) x hx
      · cases hx

/-- From a dispatch on, the rank starts that task and those after it. -/
theorem startAll_of_dispatch (hx : x ∈ n.dispatchAll net tasks) :
    ∃ todo, startAll net n tasks = startAll x.net x.node (x.task :: todo) := by
  refine dispatchAll_induction (P := fun todo net' n' => startAll net n tasks = startAll net' n' todo)
    (fun t todo net' n' hsame halive => ?_) rfl x hx
  rw [hsame]
  exact if_pos halive

theorem mem_of_dispatch (hx : x ∈ n.dispatchAll net tasks) : x.task ∈ tasks := by
  obtain ⟨todo, hsub⟩ := dispatchAll_induction (P := fun todo _ _ => todo ⊆ tasks)
    (fun t todo net' n' hsub _ u hu => hsub (List.mem_cons_of_mem _ hu)) (List.Subset.refl _) x hx
  exact hsub List.mem_cons_self

theorem react_of_dispatch (hx : x ∈ n.dispatches net) : ∃ s e events q, n.scheduler = some s ∧
    n.events = e :: events ∧ s.react e = .ok q ∧
      x ∈ ({ n with events, scheduler := some q.1 } : Node α).dispatchAll net q.2.started := by
  unfold dispatches at hx
  split at hx
  · rename_i s e events hs he
    split at hx
    · cases hx
    · rename_i q hok
      exact ⟨s, e, events, _, hs, he, hok, hx⟩
  · cases hx

/-- What takes an event comes past each dispatch. -/
theorem takeEvent_of_dispatch (hx : x ∈ n.dispatches net) : ∃ todo passed, takeEvent net n =
    some ((startAll x.net x.node (x.task :: todo)).1,
      (startAll x.net x.node (x.task :: todo)).2.pass passed) := by
  obtain ⟨s, e, events, q, hs, he, hok, hx⟩ := react_of_dispatch hx
  obtain ⟨todo, hsame⟩ := startAll_of_dispatch hx
  refine ⟨todo, q.2.passed, ?_⟩
  rw [takeEvent_of_react hs he hok, hsame]

/-- What holds while a rank starts what an event has freed: nothing comes under the tags that are
about to be retired. -/
structure Amid (b : Scheduler.Record α) (d : Diary α) (r : Rank) (started todo : List (Task α))
    (net : Cluster) (m : Node α) : Prop where
  subset : todo ⊆ started
  rank : m.rank = r
  calm : d.Calm r started net
  kept : ∃ s, Kept b todo m s

/-- A start leaves it so. -/
theorem Amid.start {t : Task α} {todo : List (Task α)} (ht : n.Tended first d s)
    (hstocked : n.Stocked first d) (he : n.events = e :: events) (hok : s.react e = .ok q)
    (h : Amid (d.record.add e q.2) d n.rank q.2.started (t :: todo) net m)
    (halive : (start net m t).2.scheduler.isSome) :
    Amid (d.record.add e q.2) d n.rank q.2.started todo (start net m t).1 (start net m t).2 := by
  have hin := h.subset List.mem_cons_self
  have hstarts := starts_of_start net m t
  obtain ⟨s', hk⟩ := h.kept
  refine ⟨fun u hu => h.subset (List.mem_cons_of_mem _ hu),
    (rank_of_setting hstarts.setting).trans h.rank, ?_, hk.start hstarts halive⟩
  by_cases hid : t.id ∈ d.retired
  · rw [ht.start_retired he hok hin hid h.calm h.rank]
    exact h.calm
  · exact ht.calm_start hstocked he hok hin hid h.calm

theorem Tended.amid_of_dispatch (ht : n.Tended first d s) (hstocked : n.Stocked first d)
    (he : n.events = e :: events) (hok : s.react e = .ok q) (hcalm : d.Calm n.rank q.2.started net)
    (hx : x ∈ ({ n with events, scheduler := some q.1 } : Node α).dispatchAll net q.2.started) :
    ∃ todo, Amid (d.record.add e q.2) d n.rank q.2.started (x.task :: todo) x.net x.node :=
  dispatchAll_induction (fun _ _ _ _ h halive => h.start ht hstocked he hok halive)
    ⟨List.Subset.refl _, rfl, hcalm, q.1, ht.kept.of_react he hok⟩ x hx

omit [Scalar α] in
/-- A task that retires tags retires those of a tensor that was given up. -/
theorem Tended.exists_tensor {u : Task α} {tags : TagRange} (ht : n.Tended first d s)
    (he : n.events = e :: events) (hok : s.react e = .ok q) (hu : u ∈ q.2.started)
    (hjob : u.job = .retire tags) : ∃ T, (u.id, T) ∈ d.drops ∧ tags = T.tags := by
  obtain ⟨v, hv, -, rfl | ⟨-, hw⟩⟩ := ht.mem_given_of_started he hok hu
  · obtain ⟨T, hdrop⟩ := Diary.Accounts.exists_drop (ht.accounts.retires u (mem_given he hv) tags hjob)
    have hretire := (ht.retires_of_started he hok hu hdrop).1.job
    rw [hjob] at hretire
    exact ⟨T, hdrop, Job.retire.inj hretire⟩
  · rw [hw] at hjob
    cases hjob

end Node

/-! ## Nothing is lost -/

namespace World

variable [Scalar α] {w₀ w w' : World α} {first : Tag} {specs : List (Tiling × List Rank)}
  {program : List Milestone} {tiles : List Tensor.Blueprint} {d : Rank → Diary α} {mail : Rank → Mail}
  {r : Rank} {x : Dispatch α} {tags : TagRange}

/-- The task that a rank has queued for a tensor that it gave up retires the tags of the tensor. -/
theorem Tenure.Kept.retires_of_dispatch (hk : Tenure.Kept w₀ first d w) (hr : r < w₀.size)
    (hx : x ∈ (w.node r).dispatches w.cluster) {T : Tensor} (hdrop : (x.task.id, T) ∈ (d r).drops) :
    x.task.job = .retire T.tags := by
  obtain ⟨s, e, events, q, hs, he, hok, hx⟩ := Node.react_of_dispatch hx
  exact ((hk.tended r hr s hs).retires_of_started he hok (Node.mem_of_dispatch hx) hdrop).1.job

/-- When a task comes to be started that retires tags, they are those of a tensor that was given up,
every receive on its buffers has brought something and is over, and there is nothing to retire. -/
theorem Doubled.nothing_to_retire (hw : w₀.Bare) (hp : Shares w₀.size first specs program tiles)
    (hk : Tenure.Kept w₀ first d w) (hh : Heeds w₀.size specs program d)
    (hd : Doubled (w₀.double tiles) tiles d w mail w') (hr : r < w₀.size)
    (hx : x ∈ (w.node r).dispatches w.cluster) (hjob : x.task.job = .retire tags) :
    (∃ T, (x.task.id, T) ∈ (d r).drops ∧ tags = T.tags ∧
      ∀ h ∈ T.handles, ∀ k, (h, k) ∈ (d r).mail.asked →
        (∃ payload, (h, k, payload) ∈ (d r).mail.taken) ∧
          ∃ s, x.node.scheduler = some s ∧ s.graph.contains k = false) ∧
      x.net.Clear r tags ∧ x.net.retire r tags = x.net := by
  obtain ⟨s, e, events, q, hs, he, hok, hx⟩ := Node.react_of_dispatch hx
  have ht := hk.tended r hr s hs
  have hcalm : (d r).Calm (w.node r).rank q.2.started w.cluster := by
    rw [hk.rank r hr]
    exact hd.calm hw hp hk hh hr hs he hok
  obtain ⟨todo, hamid⟩ := ht.amid_of_dispatch (hk.stocked r hr) he hok hcalm hx
  have hu := hamid.subset List.mem_cons_self
  obtain ⟨T, hdrop, rfl⟩ := ht.exists_tensor he hok hu hjob
  have hclear := hamid.calm _ hu T hdrop
  rw [hk.rank r hr] at hclear
  refine ⟨⟨T, hdrop, rfl, fun h hin k hasked => ?_⟩, hclear, hclear.retire⟩
  obtain ⟨s', hkept⟩ := hamid.kept
  refine ⟨hd.exists_taken hw hp hk hh hr hs he hok hu hdrop hasked hin, s', hkept.scheduler, ?_⟩
  rw [Bool.eq_false_iff]
  intro hcontains
  exact ((hkept.fits.unfinished k).mp hcontains).2 (ht.ended_of_asked he hok hu hdrop hasked hin)

/-- No receive is refused. -/
theorem Doubled.not_refused (hw : w₀.Bare) (hp : Shares w₀.size first specs program tiles)
    (hk : Tenure.Kept w₀ first d w) (hh : Heeds w₀.size specs program d)
    (hd : Doubled (w₀.double tiles) tiles d w mail w') (hr : r < w₀.size) {a : Arrival}
    (ha : a ∈ (w.node r).arrivals) (e : CommError) :
    w.cluster.receipts.find? a.ticket ≠ some (.refused e) := by
  obtain ⟨V, log, done, hc⟩ := hd.sound hw hp hk hh
  obtain ⟨x, -, hnode⟩ := hd.nodes r (hk.size.symm ▸ hr)
  have ha' : a ∈ (w'.node r).arrivals := hnode ▸ ha
  obtain ⟨i, -, -, hreceipt⟩ := hc.wire.answered r ((size_double w₀ tiles).symm ▸ hr) a ha'
  rw [hreceipt]
  unfold receipt
  cases V i <;> exact fun h => by cases h

/-- A task that reads a tile of another rank finds what the owner showed, in plain execution of the
program, at the first transfer of the tile to the rank since the last flush of it. -/
theorem Doubled.reads_first_transfer_of_tile (hw : w₀.Bare)
    (hp : Shares w₀.size first specs program tiles)
    (hk : Tenure.Kept w₀ first d w) (hh : Heeds w₀.size specs program d)
    (hd : Doubled (w₀.double tiles) tiles d w mail w') (hr : r < w₀.size) {wk : Work α}
    (hwork : wk ∈ (w.node r).work) {k : Nat} {h : HandleId} {a : Access}
    (hoperand : wk.op.operands[k]? = some (.data h a)) (ho : ((w.node r).handle h).owner ≠ r) :
    ∃ p i block, (d r).hist[p]? = some (.task wk.id wk.op) ∧
      FirstTransfer (plan program) h r (lines ((d r).hist.take p)).length i ∧
      ((w₀.double tiles).plain (plan program) (fun q => (d q).hist) i
        ((w.node r).handle h).owner).shows h = some block ∧
      ∀ views, ((w.node r).openAll wk.op.operands).2 = some views →
        views[k]? = some (.shared block) := by
  have hcommon := hw.common hp
  have hsize := size_double w₀ tiles
  have hr' : r < (w₀.double tiles).size := hsize.symm ▸ hr
  obtain ⟨V, log, done, hc⟩ := hd.sound hw hp hk hh
  obtain ⟨x, -, hnode⟩ := hd.nodes r (hk.size.symm ▸ hr)
  have hbound : ∀ j b, .data j b ∈ wk.op.operands → j < (w.node r).handles.length := fun j b hj =>
    ((hk.stocked r hr).licit.work wk hwork (j, b) (Op.mem_uses_iff.mpr hj)).1
  have howner : ((w.node r).handle h).owner = ((w₀.double tiles).node r).owner h := by
    rw [← (hc.ledger r hr').marks.owner h]
    show _ = ((w'.node r).handle h).owner
    rw [hnode, Node.handle_under (hbound h a (List.mem_of_getElem? hoperand))]
  have hwork' : wk ∈ (w'.node r).work := hnode ▸ hwork
  rw [howner] at ho ⊢
  obtain ⟨p, i, block, hentry, hfirst, hplain, -, hviews⟩ := hd.run.reads_first_transfer hcommon
    (fun q hq => hh.lines hk q (hsize ▸ hq)) hr' hwork' hoperand ho
  refine ⟨p, i, block, hentry, hfirst, hplain, fun views hopen => hviews views ?_⟩
  rw [hnode, Node.openAll_under hbound]
  exact hopen

end World

/-- Giving up tensors loses no transfer.  All ranks make the same tensors with the same tags, and
follow the same program of transfers, flushes, collective calls and drops, each at its own pace.
Whenever a task comes to be started that retires tags, they are those of a tensor that was given up,
all receives on its buffers are over, and the mailbox holds nothing under the tags, so that nothing
is retired.  No receive is ever refused, and what reads a tile of another rank finds what a transfer
has brought.  When the whole program has been followed, nothing in it can fail, nothing is held and
no step is left, then everything is done, and the ranks show what plain execution shows. -/
theorem World.Tenure.drops_lose_nothing [Scalar α] {w₀ w : World α} {first : Tag}
    {specs : List (Tiling × List Rank)} {program : List Joint} {tiles : List Tensor.Blueprint}
    {d : Rank → Diary α} (hw : w₀.Bare)
    (hp : World.Shares w₀.size first specs (Joint.course α 0 program) tiles)
    (tenure : w₀.Tenure first d w) (hmade : ∀ r < w₀.size, (d r).made <+: specs)
    (hcourse : ∀ r < w₀.size, (d r).milestones <+: Joint.course α r program) :
    (∀ r < w₀.size, ∀ x ∈ (w.node r).dispatches w.cluster, ∀ tags, x.task.job = .retire tags →
      (∃ T, (x.task.id, T) ∈ (d r).drops ∧ tags = T.tags ∧
        ∀ h ∈ T.handles, ∀ k, (h, k) ∈ (d r).mail.asked →
          (∃ payload, (h, k, payload) ∈ (d r).mail.taken) ∧
            ∃ s, x.node.scheduler = some s ∧ s.graph.contains k = false) ∧
        x.net.Clear r tags ∧ x.net.retire r tags = x.net) ∧
    (∀ r < w₀.size, ∀ a ∈ (w.node r).arrivals, ∀ e,
      w.cluster.receipts.find? a.ticket ≠ some (.refused e)) ∧
    (∀ r < w₀.size, ∀ wk ∈ (w.node r).work, ∀ (k : Nat) h a,
      wk.op.operands[k]? = some (.data h a) → ((w.node r).handle h).owner ≠ r →
        ∃ p i block, (d r).hist[p]? = some (.task wk.id wk.op) ∧
          FirstTransfer (World.plan (Joint.course α 0 program)) h r
            (lines ((d r).hist.take p)).length i ∧
          ((w₀.double tiles).plain (World.plan (Joint.course α 0 program)) (fun q => (d q).hist) i
            ((w.node r).handle h).owner).shows h = some block ∧
          ∀ views, ((w.node r).openAll wk.op.operands).2 = some views →
            views[k]? = some (.shared block)) ∧
    ((∀ r < w₀.size, (d r).milestones = Joint.course α r program) →
      (∀ r < w₀.size, ((w₀.double tiles).node r).Unfailing (d r).hist) →
      (∀ r < w₀.size, ∀ id, (w.node r).held id = none) → w.step = none →
        (∀ r < w₀.size, ∃ s, (w.node r).scheduler = some s ∧ s.graph.isEmpty = true) ∧
        (∀ box ∈ w.cluster.mailboxes, box.messages = [] ∧ box.waiters = []) ∧
        ∀ r < w₀.size, ∀ h < (w.node r).handles.length, (w.node r).shows h =
          ((w₀.double tiles).plain (World.plan (Joint.course α 0 program)) (fun q => (d q).hist)
            (World.plan (Joint.course α 0 program)).length r).shows h) := by
  have hh : World.Heeds w₀.size specs (Joint.course α 0 program) d :=
    ⟨hmade, fun r hr => Joint.course_eq α r 0 program ▸ hcourse r hr⟩
  have hk := tenure.kept hw
  obtain ⟨mail, w', hd⟩ := tenure.exists_double hw hp hh
  refine ⟨fun r hr x hx tags hjob => hd.nothing_to_retire hw hp hk hh hr hx hjob,
    fun r hr a ha e => hd.not_refused hw hp hk hh hr ha e,
    fun r hr wk hwork k h a hoperand ho =>
      hd.reads_first_transfer_of_tile hw hp hk hh hr hwork hoperand ho,
    fun hall hu hheld hstep => ?_⟩
  exact tenure.settled hw hp hh (fun r hr => (hall r hr).trans (Joint.course_eq α r 0 program)) hu hheld
    hstep

/-- A tile is written and copied to another rank, and both ranks give its tensor up before it is
sent. -/
theorem World.Tenure.drops_lose_nothing_of_copy :
    ∃ (w₀ w w' : World (ElementType.Value .bf16)) (specs : List (Tiling × List Rank))
      (program : List Joint) (tiles : List Tensor.Blueprint)
      (d d' : Rank → Diary (ElementType.Value .bf16)) (x : Dispatch (ElementType.Value .bf16))
      (T : Tensor) (payload : Payload),
      w₀.Bare ∧ World.Shares w₀.size ⟨0⟩ specs (Joint.course (ElementType.Value .bf16) 0 program) tiles ∧
      .drop T ∈ program ∧ w₀.Tenure ⟨0⟩ d w ∧ w₀.Tenure ⟨0⟩ d' w' ∧
      (∀ r < w₀.size, (d r).made = specs ∧ (d' r).made = specs) ∧
      (∀ r < w₀.size, (d r).milestones = Joint.course (ElementType.Value .bf16) r program ∧
        (d' r).milestones = Joint.course (ElementType.Value .bf16) r program) ∧
      x ∈ (w.node 1).dispatches w.cluster ∧ x.task.job = .retire T.tags ∧ 0 ∈ T.handles ∧
      (0, 0) ∈ (d 1).mail.asked ∧ (0, 0, payload) ∈ (d 1).mail.taken ∧
      x.net.retire 1 T.tags = x.net ∧
      (∀ r < w₀.size, ((w₀.double tiles).node r).Unfailing (d' r).hist) ∧
      (∀ r < w₀.size, ∀ id, (w'.node r).held id = none) ∧ w'.step = none ∧
      (∀ box ∈ w'.cluster.mailboxes, box.messages = [] ∧ box.waiters = []) ∧
      (w'.node 1).shows 1 = some [7] ∧
      ((w₀.double tiles).plain (World.plan (Joint.course (ElementType.Value .bf16) 0 program))
        (fun q => (d' q).hist) 2 1).shows 1 = some [7] := by
  let unit : Layout := ⟨[1], [1], 1, rfl⟩
  let tiling : Tiling := ⟨unit, [1], unit, rfl, by decide, rfl⟩
  let src : Tensor := ⟨tiling, ⟨0⟩, [⟨unit, 0, 0⟩]⟩
  let dst : Tensor := ⟨tiling, ⟨1⟩, [⟨unit, 1, 1⟩]⟩
  let tiles : List Tensor.Blueprint := [⟨unit, 0, ⟨0⟩⟩, ⟨unit, 1, ⟨1⟩⟩]
  let specs : List (Tiling × List Rank) := [(tiling, [0]), (tiling, [1])]
  let w₀ : World (ElementType.Value .bf16) :=
    ⟨.ofSize 2, [{ rank := 0, size := 2, codelets := [] },
      { rank := 1, size := 2, codelets := ["copy"] }]⟩
  let program : List Joint := [.collective (.copyTo src dst), .drop src]
  let copy : Op (ElementType.Value .bf16) := .copy ⟨unit, 0, 0⟩ ⟨unit, 1, 1⟩
  let start : Rank → Diary (ElementType.Value .bf16) := fun _ => { next := ⟨0⟩ }
  let steps : List (Rank × Tending (ElementType.Value .bf16)) :=
    [(0, .make tiling [0]), (1, .make tiling [0]), (0, .make tiling [1]), (1, .make tiling [1]),
      (0, .act (.acquire 0 .write)), (0, .act .take), (0, .act (.put 0 [7])),
      (0, .act (.call (.transfer 0 1))), (0, .act (.call (.flush 1))), (0, .drop 0),
      (1, .act (.call (.transfer 0 1))), (1, .act (.call (.submit copy))),
      (1, .act (.call (.flush 1))), (1, .drop 0), (1, .act .take), (1, .act .take), (1, .act .take),
      (0, .act (.release 0)), (0, .act .take), (0, .act .take), (0, .act .take), (0, .act .take),
      (0, .act .take), (1, .act (.arrive 0)), (1, .act .take), (1, .act (.work 0))]
  have hrank : ∀ r < w₀.size, r = 0 ∨ r = 1 := fun r (hr : r < 2) => by omega
  have hbare : w₀.Bare := by
    refine ⟨rfl, fun r hr => ?_⟩
    rcases hrank r hr with rfl | rfl
    · exact ⟨[], rfl⟩
    · exact ⟨["copy"], rfl⟩
  have hcourse : Joint.course (ElementType.Value .bf16) 0 program =
      [.line (.transfer 0 1), .line (.flush 1), .drop src] := by
    decide +kernel
  have hshares : World.Shares w₀.size ⟨0⟩ specs (Joint.course (ElementType.Value .bf16) 0 program)
      tiles := by
    refine ⟨⟨⟨2⟩, rfl⟩, by decide, fun l hl => ?_⟩
    rw [hcourse] at hl
    obtain rfl | rfl : l = .transfer 0 1 ∨ l = .flush 1 := by simpa using hl
    · decide
    · decide
  -- both ranks have given the tensor up, and then run until the tile has been copied
  have hcheck : (w₀.attend start steps).any (fun p =>
      (List.range 2).all (fun r => decide ((p.1 r).made = specs) &&
        decide ((p.1 r).milestones = Joint.course (ElementType.Value .bf16) r program)) &&
      decide (((p.2.node 1).dispatches p.2.cluster).map (·.task.id) = [2]) &&
      decide ((p.1 1).drops = [(2, src)]) && decide ((p.1 1).mail.asked = [(0, 0)])) = true := by
    decide +kernel
  -- later everything is done
  have hlater : (w₀.attend start (steps ++ [(1, .act .take), (1, .act .take)])).any (fun p =>
      (List.range 2).all (fun r => decide ((p.1 r).made = specs) &&
        decide ((p.1 r).milestones = Joint.course (ElementType.Value .bf16) r program) &&
        decide ((p.2.node r).accessors = [])) && p.2.step.isNone &&
      decide ((p.2.node 1).handles.length = 2) &&
      decide ((p.2.node 1).shows 1 = some [7])) = true := by
    decide +kernel
  obtain ⟨⟨d, w⟩, hattend, hfacts⟩ := (Option.any_eq_true _ _).mp hcheck
  obtain ⟨⟨d', w'⟩, hattend', hfacts'⟩ := (Option.any_eq_true _ _).mp hlater
  simp only [Bool.and_eq_true, decide_eq_true_eq, Option.isNone_iff_eq_none, List.all_eq_true,
    List.mem_range] at hfacts hfacts'
  obtain ⟨⟨⟨hfollow, hnext⟩, hdrops⟩, hasked⟩ := hfacts
  obtain ⟨⟨⟨hfollow', hstep⟩, hlength⟩, hshows⟩ := hfacts'
  have tenure : w₀.Tenure ⟨0⟩ d w := World.Tenure.nil.attend hattend
  have tenure' : w₀.Tenure ⟨0⟩ d' w' := World.Tenure.nil.attend hattend'
  have hu : ∀ r < w₀.size, ((w₀.double tiles).node r).Unfailing (d' r).hist := by
    intro r hr
    have hhandles : ((w₀.double tiles).node r).handles = tiles.map Tensor.Blueprint.handle := by
      rcases hrank r hr with rfl | rfl <;> rfl
    have hblank : ∀ h, (((w₀.double tiles).node r).handle h).memory = .absent ∧
        (((w₀.double tiles).node r).handle h).count ≤ 1 := by
      intro h
      unfold Node.handle
      rw [hhandles]
      rcases h with _ | _ | h
      · exact ⟨rfl, by decide⟩
      · exact ⟨rfl, by decide⟩
      · exact ⟨rfl, Nat.zero_le 1⟩
    refine ⟨?_, ?_, ?_⟩
    · intro h
      exact ⟨by simp [(hblank h).1], by simp [(hblank h).1]⟩
    · intro e _ h _
      have := (hblank h).2
      have hsize : Scalar.size (ElementType.Value .bf16) = 2 := rfl
      refine decide_eq_true ?_
      rw [hsize, Word.limit]
      omega
    · intro id f hf
      rcases World.mem_of_attend hattend' hf with hmem | hmem | rfl
      · exact absurd hmem List.not_mem_nil
      · obtain ⟨-, rfl⟩ : r = 1 ∧ f = copy := by simpa [steps] using hmem
        refine ⟨by simp [copy, Op.copy], ?_⟩
        intro views hviews
        obtain ⟨v, others, ⟨xs, -, rfl⟩, hothers, rfl⟩ := List.forall₂_cons_left_iff.mp hviews
        obtain ⟨v', none, ⟨ys, -, rfl⟩, hnone, rfl⟩ := List.forall₂_cons_left_iff.mp hothers
        obtain rfl := List.forall₂_nil_left_iff.mp hnone
        exact ⟨_, rfl⟩
      · exact ⟨by simp [Op.idle], fun views _ => ⟨views, rfl⟩⟩
  have hheld : ∀ r < w₀.size, ∀ id, (w'.node r).held id = none := by
    intro r hr id
    unfold Node.held
    rw [(hfollow' r hr).2]
    rfl
  obtain ⟨x, hx, hid⟩ := List.map_eq_singleton_iff.mp hnext
  have hmem : x ∈ (w.node 1).dispatches w.cluster := hx ▸ List.mem_cons_self
  have hjob : x.task.job = .retire src.tags := by
    refine (tenure.kept hbare).retires_of_dispatch (r := 1) (by decide) hmem ?_
    rw [hid, hdrops]
    exact List.mem_cons_self
  obtain ⟨hretire, -, -, -⟩ := World.Tenure.drops_lose_nothing hbare hshares tenure
    (fun r hr => (hfollow r hr).1 ▸ List.prefix_refl _) (fun r hr => (hfollow r hr).2 ▸ List.prefix_refl _)
  obtain ⟨-, -, -, hsettle⟩ := World.Tenure.drops_lose_nothing hbare hshares tenure'
    (fun r hr => (hfollow' r hr).1.1 ▸ List.prefix_refl _)
    (fun r hr => (hfollow' r hr).1.2 ▸ List.prefix_refl _)
  obtain ⟨⟨T, hdrop, htags, htaken⟩, -, hsame⟩ := hretire 1 (by decide) x hmem src.tags hjob
  rw [hid, hdrops] at hdrop
  obtain rfl : T = src := by simpa using hdrop
  have hasked' : (0, 0) ∈ (d 1).mail.asked := hasked ▸ List.mem_cons_self
  obtain ⟨⟨payload, hpayload⟩, -⟩ := htaken 0 (by decide) 0 hasked'
  obtain ⟨-, hboxes, hplain⟩ := hsettle (fun r hr => (hfollow' r hr).1.2) hu hheld hstep
  have hsees := hplain 1 (by decide) 1 (hlength ▸ by decide)
  rw [hshows, hcourse] at hsees
  refine ⟨w₀, w, w', specs, program, tiles, d, d', x, src, payload, hbare, hshares,
    List.mem_cons_of_mem _ List.mem_cons_self, tenure, tenure', fun r hr => ?_, fun r hr => ?_, hmem, hjob,
    by decide, hasked', hpayload, hsame, hu, hheld, hstep, hboxes, hshows, ?_⟩
  · exact ⟨(hfollow r hr).1, (hfollow' r hr).1.1⟩
  · exact ⟨(hfollow r hr).2, (hfollow' r hr).1.2⟩
  · rw [hcourse]
    exact hsees.symm

end TiledTensor
