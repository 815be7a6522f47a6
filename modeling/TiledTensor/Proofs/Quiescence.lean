import TiledTensor.Proofs.Together

/-!
# Nothing is left at a standstill

When nothing has failed, all calls have been made and all ranks rest, everything has been done.  Of
the tasks that are left, look at the first in the order of the lines, with the sends of a line
before its receives.  All that it waits for on its own rank is done, so it has been started; and if
it is a receive, its message has been sent, so it has ended.
-/

namespace TiledTensor

variable {α : Type}

/-! ## A rank with nothing to do -/

namespace Node

variable {n : Node α} {log : List (Task α)} {done : TaskId → Prop} {s : Scheduler α} {k : TaskId}

/-- The scheduler has taken all events, no computation is ready and no accessor is granted; and no
buffer is poisoned. -/
structure Resting (n : Node α) (s : Scheduler α) : Prop where
  scheduler : n.scheduler = some s
  events : n.events = []
  work : n.work = []
  accessors : ∀ k a, n.accessors.find? k = some a → a.phase ≠ .granted
  whole : ∀ h, (n.handle h).memory ≠ .poisoned

namespace Resting

/-- A task that nothing has to be done for first has been started, and ended unless it receives. -/
theorem done_or_arrival (hn : n.Resting s) (ho : n.Orderly log done []) (hk : k < log.length)
    (hfirst : ∀ j, Precedes log j k → done j) : done k ∨ ∃ a ∈ n.arrivals, a.id = k := by
  obtain ⟨m, roster, hr⟩ := ho.running s hn.scheduler
  have hqueued := hr.queued
  rw [hn.events] at hqueued
  have hm : log.length ≤ m := List.drop_eq_nil_iff.mp hqueued
  have hleft : ∀ e ∈ roster, ¬done e.1 := by
    intro e he hdone
    have := hr.announced e he hdone
    rw [hn.events] at this
    cases this
  by_cases hmem : k ∈ roster.map (·.1)
  · obtain ⟨e, he, rfl⟩ := List.mem_map.mp hmem
    obtain ⟨-, t, ht, huses⟩ := hr.entries e he
    have hwait : s.graph.waitingOf e.1 = 0 := by
      rw [hr.tracks.waitingOf_eq_zero_iff he]
      intro x hx hconflict
      obtain ⟨-, u, hu, huses'⟩ := hr.entries x hx.mem_left
      have hlt : x.1 < e.1 := hx.rel (r := fun x y : TaskId × List (HandleId × Access) => x.1 < y.1)
        (List.pairwise_map.mp hr.sorted)
      refine hleft x hx.mem_left (hfirst x.1 ⟨u, t, hu, ht, hlt, ?_⟩)
      rw [huses, huses']
      exact hconflict
    rcases hr.ready e he hwait with hdone | hactive | htodo | ⟨-, h, -, -, -, -, hpoisoned⟩
    · exact Or.inl hdone
    · rcases hactive with ⟨w, hw, -⟩ | ha | ⟨a, ha, hg⟩
      · rw [hn.work] at hw
        cases hw
      · exact Or.inr ha
      · exact absurd hg (hn.accessors _ a ha)
    · cases htodo
    · exact absurd hpoisoned (hn.whole h)
  · exact Or.inl (hr.gone k (Nat.lt_of_lt_of_le hk hm) hmem)

/-- When all tasks are done the graph is empty. -/
theorem isEmpty (hn : n.Resting s) (ho : n.Orderly log done [])
    (hall : ∀ k < log.length, done k) : s.graph.isEmpty = true := by
  obtain ⟨m, roster, hr⟩ := ho.running s hn.scheduler
  rw [hr.tracks.isEmpty_iff]
  refine List.eq_nil_iff_forall_not_mem.mpr ?_
  intro e he
  obtain ⟨-, t, ht, -⟩ := hr.entries e he
  have := hr.announced e he (hall _ (lt_of_getElem?_eq_some ht))
  rw [hn.events] at this
  cases this

end Resting

end Node

/-! ## All ranks -/

variable [Scalar α]

/-- All ranks have come to the end of the program, and none of them has anything to do. -/
structure Standstill (w₀ : World α) (plan : List Line) (net : Cluster) (site : Rank → Site α)
    (s : Rank → Scheduler α) : Prop where
  todo : ∀ r < w₀.size, (site r).todo = []
  lines : ∀ r < w₀.size, lines (site r).hist = plan
  resting : ∀ r < w₀.size, (site r).node.Resting (s r)
  unanswered : ∀ r < w₀.size, ∀ a ∈ (site r).node.arrivals,
    ∀ c, net.receipts.find? a.ticket = some c → c = .waiting

namespace Coherent

variable {w₀ : World α} {tiles : List Tensor.Blueprint} {plan : List Line} {net : Cluster}
  {V : Nat → Option (List α)} {site : Rank → Site α} {s : Rank → Scheduler α} {r : Rank}
  {h : HandleId} {i : Nat} {k : TaskId} {e : Entry α}

/-- A task that nothing has to be done for first has ended, unless it is a receive without a
message. -/
theorem done_or_unsent (hc : Coherent w₀ tiles plan net V site)
    (hs : Standstill w₀ plan net site s) (hr : r < w₀.size)
    (hd : ((w₀.node r).duties (site r).hist)[k]? = some (i, e))
    (hfirst : ∀ j, Precedes (site r).log j k → (site r).done j) :
    (site r).done k ∨ ∃ h, e = .transfer h r ∧ V i = none := by
  have hl := hc.ledger r hr
  rw [hs.todo r hr] at hl
  obtain ⟨t, ht, -⟩ := hl.exists_task hd
  rcases (hs.resting r hr).done_or_arrival hl.account.orderly (lt_of_getElem?_eq_some ht) hfirst with
    hdone | ⟨a, ha, rfl⟩
  · exact Or.inl hdone
  · refine Or.inr ⟨a.handle, ?_⟩
    obtain ⟨i', hask, -, hreceipt⟩ := hc.wire.answered r hr a ha
    have heq := hd.symm.trans hask
    rw [Option.some.injEq, Prod.mk.injEq] at heq
    obtain ⟨rfl, rfl⟩ := heq
    exact ⟨rfl, receipt_eq_waiting_iff.mp (hs.unanswered r hr a ha _ hreceipt)⟩

/-- What precedes a task stands before it, and at the same line only if it is a call of the rank
itself. -/
theorem exists_duty_of_precedes (hc : Coherent w₀ tiles plan net V site) (hr : r < w₀.size)
    {j : TaskId} (hd : ((w₀.node r).duties (site r).hist)[k]? = some (i, e))
    (hp : Precedes (site r).log j k) :
    ∃ i' f, ((w₀.node r).duties (site r).hist)[j]? = some (i', f) ∧ j < k ∧ i' ≤ i ∧
      (i' = i → f.Own) := by
  have hl := hc.ledger r hr
  obtain ⟨t, u, ht, -, hlt, -⟩ := hp
  obtain ⟨⟨i', f⟩, hj, -⟩ := hl.exists_duty ht
  obtain ⟨hle, hline⟩ := Node.duties_ordered hj hd hlt
  refine ⟨i', f, hj, hlt, hle, ?_⟩
  intro heq
  rw [Entry.own_iff_line?]
  exact Decidable.byContradiction fun hne => Nat.ne_of_lt (hline hne) heq

/-- Everything has been done, line after line. -/
theorem done_at_line (hw : w₀.Common tiles plan) (hc : Coherent w₀ tiles plan net V site)
    (hs : Standstill w₀ plan net site s) (i : Nat) : ∀ r < w₀.size, ∀ (k : TaskId) e,
      ((w₀.node r).duties (site r).hist)[k]? = some (i, e) → (site r).done k := by
  induction i using Nat.strongRecOn with
  | ind i ih =>
    -- the calls that a rank makes by itself before the line
    have hown : ∀ r < w₀.size, ∀ (k : TaskId) e,
        ((w₀.node r).duties (site r).hist)[k]? = some (i, e) → e.Own → (site r).done k := by
      intro r hr k
      induction k using Nat.strongRecOn with
      | ind k ihk =>
        intro e hd he
        have hfirst : ∀ j, Precedes (site r).log j k → (site r).done j := by
          intro j hp
          obtain ⟨i', f, hj, hlt, hle, hf⟩ := hc.exists_duty_of_precedes hr hd hp
          rcases Nat.lt_or_eq_of_le hle with hlt' | rfl
          · exact ih i' hlt' r hr j f hj
          · exact ihk j hlt f hj (hf rfl)
        rcases hc.done_or_unsent hs hr hd hfirst with hdone | ⟨h, rfl, -⟩
        · exact hdone
        · exact absurd he not_false
    have hready : ∀ r < w₀.size, ∀ (k : TaskId) e,
        ((w₀.node r).duties (site r).hist)[k]? = some (i, e) →
          (site r).done k ∨ ∃ h, e = .transfer h r ∧ V i = none := by
      intro r hr k e hd
      refine hc.done_or_unsent hs hr hd ?_
      intro j hp
      obtain ⟨i', f, hj, -, hle, hf⟩ := hc.exists_duty_of_precedes hr hd hp
      rcases Nat.lt_or_eq_of_le hle with hlt' | rfl
      · exact ih i' hlt' r hr j f hj
      · exact hown r hr j f hj (hf rfl)
    intro r hr k e hd
    rcases hready r hr k e hd with hdone | ⟨h, rfl, hV⟩
    · exact hdone
    · -- the owner has come past the line, and has nothing left to do but to send
      obtain ⟨b, hb, hcar, -⟩ := hc.carried hw hr hd
      have ho : b.owner < w₀.size := hw.owners b (List.mem_of_getElem? hb)
      obtain ⟨k', hk'⟩ := hc.exists_duty hw ho hb hcar (by
        rw [hs.lines _ ho]
        exact hcar.lt) (Or.inr rfl)
      rcases hready b.owner ho k' _ hk' with hsent | ⟨h', heq, -⟩
      · exact absurd hV ((hc.shipped b.owner ho k' i h r (Ne.symm hcar.2.1) hk').mp hsent)
      · exact absurd (Entry.transfer.inj heq).2 hcar.2.1

/-- Everything has been done. -/
theorem done_of_standstill (hw : w₀.Common tiles plan) (hc : Coherent w₀ tiles plan net V site)
    (hs : Standstill w₀ plan net site s) (hr : r < w₀.size) :
    ∀ k < (site r).log.length, (site r).done k := by
  intro k hk
  obtain ⟨⟨i, e⟩, hd, -⟩ := (hc.ledger r hr).exists_duty (List.getElem?_eq_getElem hk)
  exact hc.done_at_line hw hs i r hr k e hd

/-- No task is left. -/
theorem isEmpty_of_standstill (hw : w₀.Common tiles plan)
    (hc : Coherent w₀ tiles plan net V site) (hs : Standstill w₀ plan net site s)
    (hr : r < w₀.size) : (s r).graph.isEmpty = true := by
  have hl := hc.ledger r hr
  rw [hs.todo r hr] at hl
  exact (hs.resting r hr).isEmpty hl.account.orderly (hc.done_of_standstill hw hs hr)

/-- No message and no receive is left in a mailbox. -/
theorem mailbox_of_standstill (hw : w₀.Common tiles plan)
    (hc : Coherent w₀ tiles plan net V site) (hs : Standstill w₀ plan net site s)
    (hr : r < w₀.size) : net.mailboxes.getD r {} = {} := by
  have hsound := (hc.ledger r hr).account.orderly.sound
  have harrivals : ∀ a, a ∉ (site r).node.arrivals := by
    intro a ha
    have hactive : (site r).node.Active a.id := Or.inr (Or.inl ⟨a, ha, rfl⟩)
    exact hsound.undone _ hactive
      (hc.done_of_standstill hw hs hr _ (hsound.lt_of_active hactive))
  have hchannel : ∀ ch, net.messages r ch = [] ∧ net.waiters r ch = [] := by
    intro ch
    by_cases hch : ∃ b ∈ tiles, ch = b.channel
    · obtain ⟨b, hmem, rfl⟩ := hch
      obtain ⟨h, hb⟩ := List.getElem?_of_mem hmem
      constructor
      · obtain ⟨L, hL, hmessages⟩ := hc.wire.messages r hr h b hb
        have hnil : L = [] := by
          refine List.eq_nil_iff_forall_not_mem.mpr ?_
          intro i hi
          obtain ⟨hcar, -, hbegun⟩ := (hL.mem i).mp hi
          obtain ⟨k, hk⟩ := hc.exists_duty hw hr hb hcar (by
            rw [hs.lines r hr]
            exact hcar.lt) (Or.inl rfl)
          exact hbegun ⟨k, hk, Or.inl (hc.done_at_line hw hs i r hr k _ hk)⟩
        rw [hmessages, hnil]
        rfl
      · refine List.eq_nil_iff_forall_not_mem.mpr ?_
        intro t ht
        obtain ⟨a, ha, -⟩ := ((hc.wire.waiters r hr h b hb).2 t).mp ht
        exact harrivals a ha
    · exact hc.wire.others r hr ch fun b hb heq => hch ⟨b, hb, heq⟩
  exact Cluster.mailbox_eq_empty (fun ch => (hchannel ch).1) fun ch => (hchannel ch).2

end Coherent

end TiledTensor
