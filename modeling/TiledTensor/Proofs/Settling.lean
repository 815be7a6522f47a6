import TiledTensor.Proofs.Quiescence
import TiledTensor.Proofs.Unfailing

/-!
# Runs settle

All ranks follow the same lines, and nothing that they are asked for can fail.  Then no buffer is
ever lost and no scheduler stops, so a world in which all calls have been made, no accessor is held
and no rank can make a step is one that has come to a standstill: nothing is left to be done.

A task opens all of its buffers in one step here.  Whether it can have all of their locks is asked in
`TiledTensor.Proofs.Blocking`.
-/

namespace TiledTensor

variable {α : Type} [Scalar α]

/-! ## Nothing fails -/

namespace World

variable {w₀ w : World α} {tiles : List Tensor.Blueprint} {plan : List Line}
  {hist : Rank → List (Entry α)} {mail : Rank → Mail}

/-- No buffer is lost in a run in which nothing can fail, and all schedulers go on. -/
theorem Run.intact (hw : w₀.Common tiles plan) (run : w₀.Run hist mail w)
    (hf : ∀ r < w₀.size, lines (hist r) <+: plan)
    (hu : ∀ r < w₀.size, (w₀.node r).Unfailing (hist r)) :
    ∀ r < w₀.size, (w₀.node r).Intact (w.node r) ∧ (w.node r).scheduler.isSome := by
  induction run with
  | nil =>
    intro r hr
    refine ⟨⟨(hu r hr).intact, fun _ => rfl⟩, ?_⟩
    rw [(hw.fresh r hr).scheduler]
    rfl
  | @snoc hist mail w w' r a run step ih =>
    have hbefore := lines_before_of_update hf
    have hu' : ∀ q < w₀.size, (w₀.node q).Unfailing (hist q) := by
      intro q hq
      have := hu q hq
      by_cases hqr : q = r
      · subst hqr
        rw [Function.update_self] at this
        exact this.of_record
      · rwa [Function.update_of_ne hqr] at this
    have hbase := ih hbefore hu'
    obtain ⟨hr, net', n', hact, -, -, hnode⟩ := World.act_eq_some step
    obtain ⟨V, log, done, hsize, hc⟩ := run.sound hw hbefore
    intro q hq
    rw [hnode]
    by_cases hqr : q = r
    · subst hqr
      rw [Function.update_self]
      obtain ⟨hn, hs⟩ := hbase q hq
      exact hn.act hs (hu' q hq) (hc.ledger q hq) (Node.acts_of_act hact)
    · rw [Function.update_of_ne hqr]
      exact hbase q hq

/-! ## No step is left -/

theorem step_eq_none_of_mem {net : Cluster} {nodes : List (Node α)} {n : Node α}
    (h : World.stepAny net nodes = none) (hn : n ∈ nodes) : n.step net = none := by
  induction nodes with
  | nil => cases hn
  | cons m nodes ih =>
    unfold World.stepAny at h
    split at h
    · cases h
    · rename_i hm
      rcases List.mem_cons.mp hn with rfl | hn
      · exact hm
      · exact ih (Option.map_eq_none_iff.mp h) hn

/-- If the world cannot make a step, no rank can. -/
theorem step_node_eq_none {r : Rank} (h : w.step = none) (hr : r < w.size) :
    (w.node r).step w.cluster = none := by
  refine step_eq_none_of_mem (Option.map_eq_none_iff.mp h) ?_
  unfold World.node
  rw [List.getD_eq_getElem?_getD, List.getElem?_eq_getElem hr]
  exact List.getElem_mem hr

end World

namespace Node

variable {net : Cluster} {n : Node α}

theorem step_eq_none (h : n.step net = none) :
    takeEvent net n = none ∧ n.runWork 0 = none ∧
      ∀ i < n.arrivals.length, takeArrival net n i = none := by
  obtain ⟨htake, hrest⟩ := Option.or_eq_none_iff.mp h
  obtain ⟨hwork, harrive⟩ := Option.or_eq_none_iff.mp hrest
  refine ⟨htake, Option.map_eq_none_iff.mp hwork, ?_⟩
  intro i hi
  exact List.findSome?_eq_none_iff.mp harrive i (List.mem_range.mpr hi)

/-- A rank that cannot make a step has nothing to tell its scheduler, and nothing to compute. -/
theorem idle_of_step {s : Scheduler α} (h : n.step net = none) (hs : n.scheduler = some s) :
    n.events = [] ∧ n.work = [] := by
  obtain ⟨htake, hwork, -⟩ := step_eq_none h
  constructor
  · cases he : n.events with
    | nil => rfl
    | cons e events =>
      unfold takeEvent at htake
      rw [hs, he] at htake
      dsimp only at htake
      split at htake <;> cases htake
  · cases hw : n.work with
    | nil => rfl
    | cons w work =>
      unfold runWork at hwork
      rw [hw] at hwork
      cases hwork

/-- A rank that cannot make a step rests, if its scheduler goes on and its buffers are intact. -/
theorem resting_of_step {s : Scheduler α} (h : n.step net = none) (hs : n.scheduler = some s)
    (hheld : ∀ k, n.held k = none) (hwhole : ∀ b, (n.handle b).memory ≠ .poisoned) :
    n.Resting s := by
  obtain ⟨hevents, hwork⟩ := idle_of_step h hs
  refine ⟨hs, hevents, hwork, ?_, hwhole⟩
  intro k a ha hg
  have := hheld k
  rw [held_eq_some_iff.mpr ⟨ha, hg⟩] at this
  cases this

/-- A receive of a rank that cannot make a step has not been answered. -/
theorem waiting_of_step {a : Arrival} {c : Receipt} (h : n.step net = none) (ha : a ∈ n.arrivals)
    (hc : net.receipts.find? a.ticket = some c) : c = .waiting := by
  obtain ⟨-, -, harrive⟩ := step_eq_none h
  obtain ⟨i, hi⟩ := List.getElem?_of_mem ha
  have hnone := harrive i (lt_of_getElem?_eq_some hi)
  by_contra hw
  cases hnone.symm.trans (takeArrival_eq_some_iff.mpr ⟨a, c, hi, hc, hw, rfl, rfl⟩)

end Node

/-! ## Runs that settle -/

namespace World

variable {w₀ w : World α} {tiles : List Tensor.Blueprint} {plan : List Line}
  {hist : Rank → List (Entry α)} {mail : Rank → Mail}

/-- When all calls have been made, nothing is held and no step is left, everything is done: no task
and no message is left, and no rank waits for one. -/
theorem Run.settled (hw : w₀.Common tiles plan) (run : w₀.Run hist mail w)
    (hf : ∀ r < w₀.size, lines (hist r) = plan)
    (hu : ∀ r < w₀.size, (w₀.node r).Unfailing (hist r))
    (hheld : ∀ r < w₀.size, ∀ id, (w.node r).held id = none) (hstep : w.step = none) :
    (∀ r < w₀.size, ∃ s, (w.node r).scheduler = some s ∧ s.graph.isEmpty = true) ∧
      ∀ box ∈ w.cluster.mailboxes, box.messages = [] ∧ box.waiters = [] := by
  have hfollow : ∀ r < w₀.size, lines (hist r) <+: plan := fun r hr =>
    (hf r hr).symm ▸ List.prefix_refl _
  have hintact := run.intact hw hfollow hu
  obtain ⟨V, log, done, hsize, hc⟩ := run.sound hw hfollow
  have hquiet : ∀ r < w₀.size, (w.node r).step w.cluster = none := fun r hr =>
    step_node_eq_none hstep (hsize.symm ▸ hr)
  have hsched : ∀ r < w₀.size,
      (w.node r).scheduler = some ((w.node r).scheduler.getD default) := by
    intro r hr
    obtain ⟨s, hs⟩ := Option.isSome_iff_exists.mp (hintact r hr).2
    rw [hs]
    rfl
  have hstand : Standstill w₀ plan w.cluster (w.site hist mail log done)
      fun r => (w.node r).scheduler.getD default := by
    refine ⟨fun _ _ => rfl, hf, ?_, ?_⟩
    · intro r hr
      exact Node.resting_of_step (hquiet r hr) (hsched r hr) (hheld r hr) fun h =>
        ((hintact r hr).1.buffers h).whole
    · intro r hr a ha c hreceipt
      exact Node.waiting_of_step (hquiet r hr) ha hreceipt
  refine ⟨fun r hr => ⟨_, hsched r hr, hc.isEmpty_of_standstill hw hstand hr⟩, ?_⟩
  intro box hbox
  obtain ⟨r, hr⟩ := List.getElem?_of_mem hbox
  have hlt : r < w₀.size := by
    have := lt_of_getElem?_eq_some hr
    rwa [← hc.wire.ranks]
  have hempty := hc.mailbox_of_standstill hw hstand hlt
  rw [List.getD_eq_getElem?_getD, hr] at hempty
  obtain rfl : box = {} := hempty
  exact ⟨rfl, rfl⟩

end World

end TiledTensor
