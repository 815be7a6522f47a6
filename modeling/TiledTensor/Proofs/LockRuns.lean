import TiledTensor.Proofs.Placement
import TiledTensor.Proofs.Together
import TiledTensor.Proofs.Waiting

/-!
# What is known lock by lock

The ranks of a world whose buffers are opened one by one stay as coherent as those that open all
buffers of a task at once: what happens between two locks is nobody else's business.  Along with that
goes what is known of the openings themselves (`Station.Poised`): each is in its place, none has
failed, those who wait for memory have looked for it one after the other, and where a rank computes
its tiles before it reads them nobody allocates for a reader.
-/

namespace TiledTensor

variable {α : Type} [Scalar α]

/-! ## One rank -/

namespace Node

/-- The rank goes on: no buffer is lost, all that have been filled have memory, and no operation
shares what it writes. -/
structure Healthy (n₀ n : Node α) (hist : List (Entry α)) (done : TaskId → Prop) : Prop where
  intact : n₀.Intact n
  alive : n.scheduler.isSome
  unshared : ∀ id op, .task id op ∈ hist → Unshared op.operands
  filled : n₀.Allocated n hist done

variable {n n' n₀ : Node α} {net net' : Cluster} {hist : List (Entry α)} {done done' : TaskId → Prop}
  {V : Nat → Option (List α)} {log todo : List (Task α)} {h : HandleId}

omit [Scalar α] in
theorem Fresh.healthy (h₀ : n.Fresh) (hn : ∀ h, (n.handle h).Intact) :
    n.Healthy n [] fun _ => False := by
  refine ⟨⟨hn, fun _ => rfl⟩, ?_, fun _ _ h => absurd h List.not_mem_nil, .nil n⟩
  rw [h₀.scheduler]
  rfl

namespace Healthy

/-- What a computation opens is unshared. -/
theorem unshared_of_work (hn : n₀.Healthy n hist done) (hl : n.Ledger n₀ hist V log done todo)
    {w : Work α} (hw : w ∈ n.work) : Unshared w.op.operands := by
  obtain ⟨i, -, hd, -⟩ := hl.entry_of_work hw
  exact hn.unshared _ _ (mem_of_getElem?_duties hd)

/-- A buffer is opened for which there is room. -/
theorem openHandle (hn : n₀.Healthy n hist done)
    (hroom : allocatable ((n₀.handle h).count * Scalar.size α) = true) :
    n₀.Healthy (n.openHandle h).1 hist done := by
  refine ⟨(hn.intact.openHandle hroom).1, ?_, hn.unshared, ?_⟩
  · rw [(onlyMemory_openHandle n h).scheduler]
    exact hn.alive
  · refine hn.filled.same (.refl (fun _ => False) done) ?_ fun _ _ _ _ hk => absurd hk not_false
    intro b
    have hspares : Spares True b n (n.openHandle h).1 := .openHandle n h
    exact hspares.lasts

/-- An operation that is accepted shares nothing that it writes. -/
theorem unshared_of_record (hn : n₀.Healthy n hist done) {a : Act α} (h : n.Acts net a net' n')
    {id : TaskId} {op : Op α} (hop : .task id op ∈ a.record n hist) : Unshared op.operands := by
  rcases a.task_of_record hop with hop | rfl
  · exact hn.unshared id op hop
  · cases h with
    | submit bounds ok =>
      unfold Node.submit submitOn at ok
      split at ok
      · cases ok
      · rename_i hnone
        exact (rejection_eq_none_iff.mp hnone).unshared

/-- Whatever happens between two events, the rank goes on. -/
theorem act (hn : n₀.Healthy n hist done) (hl : n.Ledger n₀ hist V log done todo)
    (hu : n₀.Unfailing hist) {a : Act α} (h : n.act net a = some (net', n')) (htake : a ≠ .take)
    (hg : Gains (fun k => a.Ends n k) done done')
    (harrive : ∀ i c, a = .arrive i → n.arrivals[i]? = some c → n'.Opened c.handle) :
    n₀.Healthy n' (a.record n hist) done' := by
  have hacts := acts_of_act h
  obtain ⟨hintact, halive⟩ := hn.intact.act_of_ne_take hn.alive hu hl hacts htake
  exact ⟨hintact, halive, fun _ _ => hn.unshared_of_record hacts,
    hn.filled.act hl hn.intact hu h htake hg harrive⟩

end Healthy

/-- A copy that is freed was to be received before. -/
theorem Ledger.transfer_of_evict {t : Task α} {s : Scheduler α}
    (hl : n.Ledger n₀ hist V log done (t :: todo)) (hs : n.scheduler = some s)
    (hjob : t.job = .evict h) : ∃ r, .transfer h r ∈ hist := by
  obtain ⟨⟨i, e⟩, u, hd, -, hdesc, hplan⟩ := hl.next_duty hs
  obtain rfl : t = u := by
    rcases hplan with ht | ⟨-, ht⟩
    · exact ht
    · rw [ht] at hjob
      cases hjob
  obtain rfl := Allocated.flush_of_evict hdesc hjob
  obtain ⟨-, -, hheld⟩ := line_of_mem_duties (List.mem_of_getElem? hd) rfl
  obtain ⟨j, hj⟩ := Option.ne_none_iff_exists'.mp hheld
  obtain ⟨hget, -⟩ := copyLine_eq_some hj
  obtain ⟨e, he, hline⟩ := List.mem_filterMap.mp (List.mem_of_mem_take (List.mem_of_getElem? hget))
  refine ⟨n₀.rank, ?_⟩
  cases e with
  | task id op => cases hline
  | guard id b a puts => cases hline
  | transfer b r =>
    cases hline
    exact he
  | flush b => cases hline

/-- A message that fits its buffer is stored there. -/
theorem Finishes.opened {a : Arrival} {payload : Payload} {old : List α}
    (hf : n.Finishes a (.delivered payload) n') (hold : n.shows a.handle = some old)
    (hfit : old.length * Scalar.size α = payload.length) (hb : a.handle < n.handles.length) :
    n'.Opened a.handle := by
  have hread : (n.openHandle a.handle).2.toOption = some old :=
    (openHandle_snd_toOption n a.handle).trans hold
  cases hf with
  | accepts payload block opened fits =>
    rw [opened_post]
    have hlt : a.handle < (n.openHandle a.handle).1.handles.length :=
      (onlyMemory_openHandle n a.handle).length.symm ▸ hb
    unfold Opened
    rw [handle_setHandle, if_pos ⟨rfl, hlt⟩]
    exact Handle.store_memory_ne_absent (opened_openHandle hb) _
  | abandons _ m e fails =>
    cases fails with
    | payload payload block opened misfit =>
      rw [opened] at hread
      obtain rfl : block = old := Option.some.inj hread
      exact absurd hfit misfit
  | unopened payload f unopened =>
    rw [unopened] at hread
    cases hread

end Node

namespace Coherent

variable {w₀ : World α} {tiles : List Tensor.Blueprint} {plan : List Line} {net net' : Cluster}
  {V : Nat → Option (List α)} {site : Rank → Site α} {r : Rank}

/-- A copy that has been received has memory. -/
theorem opened_of_arrive (hw : w₀.Common tiles plan) (hc : Coherent w₀ tiles plan net V site)
    (hr : r < w₀.size) {j : Nat} {n' : Node α} {a : Arrival}
    (htake : Node.takeArrival net (site r).node j = some (net', n'))
    (ha : (site r).node.arrivals[j]? = some a) : n'.Opened a.handle := by
  obtain ⟨a', c, ha', hreceipt, hanswered, rfl, rfl⟩ := Node.takeArrival_eq_some_iff.mp htake
  obtain rfl : a = a' := Option.some.inj (ha.symm.trans ha')
  obtain ⟨i, hd, -, hrec⟩ := hc.wire.answered r hr a (List.mem_of_getElem? ha)
  obtain rfl : c = receipt V i := Option.some.inj (hreceipt.symm.trans hrec)
  obtain ⟨block, hV⟩ := Option.ne_none_iff_exists'.mp (mt receipt_eq_waiting_iff.mpr hanswered)
  obtain ⟨old, hold, hlen⟩ := hc.room_of_arrival hw hr (List.mem_of_getElem? ha) hd hV
  have hdelivered : receipt V i = .delivered (Scalar.encodeBlock block) := by
    unfold receipt
    rw [hV]
  have hfin := Node.finishes_of_finish ({ (site r).node with
    arrivals := (site r).node.arrivals.eraseIdx j } : Node α) a hanswered
  rw [hdelivered] at hfin ⊢
  refine hfin.opened hold ?_ ?_
  · rw [hlen, Scalar.length_encodeBlock]
  · have hl := hc.ledger r hr
    obtain ⟨i', hd'⟩ := hl.duty_of_arrival (List.mem_of_getElem? ha)
    exact hl.bound_of_use (a := .write) hd' ((Node.deed_of_target (V := V) rfl).symm ▸
      List.mem_cons_self)

/-- The scheduler starts its next task, and the ranks stay coherent. -/
theorem start_healthy (hw : w₀.Common tiles plan) (hc : Coherent w₀ tiles plan net V site)
    (hr : r < w₀.size) {t : Task α} {rest : List (Task α)} (htodo : (site r).todo = t :: rest)
    (hu : (w₀.node r).Unfailing (site r).hist)
    (hn : (w₀.node r).Healthy (site r).node (site r).hist (site r).done) :
    (Node.start net (site r).node t).2.scheduler.isSome ∧ ∃ V' done',
      Coherent w₀ tiles plan (Node.start net (site r).node t).1 V' (Function.update site r
        { site r with
          node := (Node.start net (site r).node t).2
          mail.sent := (site r).mail.sent ++ (site r).node.posted net t
          done := done'
          todo := rest }) ∧
      (w₀.node r).Healthy (Node.start net (site r).node t).2 (site r).hist done' := by
  have hl := hc.ledger r hr
  rw [htodo] at hl
  obtain ⟨s, hs⟩ := Option.isSome_iff_exists.mp hn.alive
  obtain ⟨hintact, hgo⟩ := hn.intact.start net (t := t) fun h dst tag hjob => by
    obtain ⟨q, hmem⟩ := hl.transfer_of_todo hs List.mem_cons_self hjob
    exact hu.room _ hmem h rfl
  have halive := hgo.mpr hn.alive
  obtain ⟨V', done', hc', hg⟩ := (hc.start hw hr htodo hs).alive halive
  have hl' := hc'.ledger r hr
  rw [Function.update_self] at hl'
  exact ⟨halive, V', done', hc', hintact, halive, hn.unshared,
    hn.filled.start hl hs halive hl' hg⟩

/-- The scheduler takes an event, and the ranks stay coherent. -/
theorem take_healthy (hw : w₀.Common tiles plan) (hc : Coherent w₀ tiles plan net V site)
    (hr : r < w₀.size) (htodo : (site r).todo = []) {s : Scheduler α} {e : Event α}
    {events : List (Event α)} {p : Scheduler α × Reaction α}
    (hs : (site r).node.scheduler = some s) (he : (site r).node.events = e :: events)
    (hok : s.react e = .ok p)
    (hn : (w₀.node r).Healthy (site r).node (site r).hist (site r).done) :
    Coherent w₀ tiles plan net V (Function.update site r { site r with
      node := ({ (site r).node with events, scheduler := some p.1 } : Node α).pass p.2.passed
      todo := p.2.started }) ∧
    (w₀.node r).Healthy (({ (site r).node with events, scheduler := some p.1 } : Node α).pass
      p.2.passed) (site r).hist (site r).done := by
  have hl := hc.ledger r hr
  rw [htodo] at hl
  have htake : Node.takeEvent net (site r).node = some _ := Node.takeEvent_of_react hs he hok
  obtain ⟨s', e', events', p', hs', he', hok', hl', -, -⟩ := hl.takeEvent htake
  cases hs.symm.trans hs'
  cases he.symm.trans he'
  cases hok.symm.trans hok'
  refine ⟨hc.quiet_same hw hr (hl'.pass p.2.passed) (.of_same rfl fun _ _ _ _ _ => Iff.rfl), ?_⟩
  exact ⟨hn.intact.of_handles rfl, rfl, hn.unshared,
    hn.filled.same (.refl (fun _ => False) _) (fun _ h => h) fun _ _ _ _ hk => absurd hk not_false⟩

/-- The scheduler never stops as it takes an event. -/
theorem react_ne_error (hc : Coherent w₀ tiles plan net V site) (hr : r < w₀.size)
    (htodo : (site r).todo = []) {s : Scheduler α} {e : Event α} {events : List (Event α)} {f : Fault}
    (hs : (site r).node.scheduler = some s) (he : (site r).node.events = e :: events) :
    s.react e ≠ .error f := by
  intro hfault
  have hl := hc.ledger r hr
  rw [htodo] at hl
  have htake : ∃ q, Node.takeEvent net (site r).node = some q := by
    unfold Node.takeEvent
    rw [hs, he]
    dsimp only
    rw [hfault]
    exact ⟨_, rfl⟩
  obtain ⟨⟨net', n'⟩, htake⟩ := htake
  obtain ⟨s', e', events', p, hs', he', hok, -⟩ := hl.takeEvent htake
  cases hs.symm.trans hs'
  cases he.symm.trans he'
  cases hfault.symm.trans hok

/-- A buffer is opened, and the ranks stay coherent. -/
theorem open_healthy (hw : w₀.Common tiles plan) (hc : Coherent w₀ tiles plan net V site)
    (hr : r < w₀.size) {h : HandleId}
    (hroom : allocatable (((w₀.node r).handle h).count * Scalar.size α) = true)
    (hn : (w₀.node r).Healthy (site r).node (site r).hist (site r).done) :
    Coherent w₀ tiles plan net V
      (Function.update site r { site r with node := ((site r).node.openHandle h).1 }) ∧
    (w₀.node r).Healthy ((site r).node.openHandle h).1 (site r).hist (site r).done := by
  have hm := Node.onlyMemory_openHandle (site r).node h
  refine ⟨hc.quiet_same hw hr ?_ (.of_same hm.arrivals fun _ _ _ _ _ => Iff.rfl),
    hn.openHandle hroom⟩
  exact (hc.ledger r hr).onlyMemory hm (Node.shows_openHandle _ h)

end Coherent

/-! ## The openings of one rank -/

namespace Station

variable {n₀ : Node α} {net net' : Cluster} {s s' : Station α} {o : Opening} {gives : Bool}
  {mv : Motion α} {hist : List (Entry α)} {V : Nat → Option (List α)} {log : List (Task α)}
  {done : TaskId → Prop} {h : HandleId} {a : Access} {scheduler : Scheduler α}

namespace Placed

/-- There is room for the buffers that are opened. -/
theorem room (hp : s.Placed net o) (hl : s.node.Ledger n₀ hist V log done s.starting)
    (hs : s.node.scheduler = some scheduler) (hu : n₀.Unfailing hist)
    (ho : .data h a ∈ o.operands) : allocatable ((n₀.handle h).count * Scalar.size α) = true := by
  cases hp with
  | @worker w opener mem id operands =>
    obtain ⟨i, -, hd, -⟩ := hl.entry_of_work mem
    rw [operands] at ho
    exact hu.room _ (Node.mem_of_getElem?_duties hd) h ⟨a, Op.mem_uses_iff.mpr ho⟩
  | @send t rest b dst tag opener next id job operands =>
    rw [operands] at ho
    obtain ⟨rfl, -⟩ := Operand.data.inj (List.mem_singleton.mp ho)
    obtain ⟨q, hmem⟩ := hl.transfer_of_todo hs (next ▸ List.mem_cons_self) job
    exact hu.room _ hmem h rfl
  | @evict t rest b opener next id job operands =>
    rw [operands] at ho
    obtain ⟨rfl, -⟩ := Operand.data.inj (List.mem_singleton.mp ho)
    rw [next] at hl
    obtain ⟨q, hmem⟩ := hl.transfer_of_evict hs job
    exact hu.room _ hmem h rfl
  | @receiver c opener mem id operands answered =>
    rw [operands] at ho
    obtain ⟨rfl, -⟩ := Operand.data.inj (List.mem_singleton.mp ho)
    obtain ⟨i, hd⟩ := hl.duty_of_arrival mem
    exact hu.room _ (Node.mem_of_getElem?_duties hd) _ rfl
  | @holder c opener held operands =>
    rw [operands] at ho
    obtain ⟨rfl, -⟩ := Operand.data.inj (List.mem_singleton.mp ho)
    obtain ⟨i, puts, hd⟩ := hl.duty_of_accessor (Node.held_eq_some_iff.mp held).1
    exact hu.room _ (Node.mem_of_getElem?_duties hd) _ rfl

/-- There is room for the scratch memory that is opened. -/
theorem scratch (hp : s.Placed net o) (hl : s.node.Ledger n₀ hist V log done s.starting)
    (hu : n₀.Unfailing hist) {bytes : Nat} (ho : .scratch bytes ∈ o.operands) :
    allocatable ((bytes + 7) / 8 * 8) = true := by
  cases hp with
  | @worker w opener mem id operands =>
    obtain ⟨i, -, hd, -⟩ := hl.entry_of_work mem
    exact (hu.succeeds _ _ (Node.mem_of_getElem?_duties hd)).scratch bytes (operands ▸ ho)
  | send opener next id job operands => simp [operands] at ho
  | evict opener next id job operands => simp [operands] at ho
  | receiver opener mem id operands answered => simp [operands] at ho
  | holder opener held operands => simp [operands] at ho

/-- An opening has the duty of its task. -/
theorem duty (hp : s.Placed net o) (hl : s.node.Ledger n₀ hist V log done s.starting)
    (hs : s.node.scheduler = some scheduler) : ∃ d, (n₀.duties hist)[o.id]? = some d ∧
      (n₀.deed V d).uses = o.uses ∧ ¬done o.id ∧ ∀ j, Precedes log j o.id → done j := by
  obtain ⟨hunder, t, ht, huses⟩ := hp.task hl.account.orderly hs
  obtain ⟨d, hd, -⟩ := hl.exists_duty ht
  obtain ⟨u, hu, hdeed⟩ := Node.getElem?_of_uses hl.account.faithful.uses (Node.getElem?_deeds hd)
  obtain rfl := Option.some.inj (ht.symm.trans hu)
  exact ⟨d, hd, hdeed.symm.trans huses, hl.account.orderly.turn hs hunder⟩

end Placed

/-- What is known of a rank between two moves. -/
structure Poised (n₀ : Node α) (net : Cluster) (hist : List (Entry α)) (done : TaskId → Prop)
    (s : Station α) : Prop where
  healthy : n₀.Healthy s.node hist done
  steady : s.Steady net
  staggered : s.node.Staggered s.openings
  lacking : n₀.Primed hist → ∀ o ∈ s.openings, ∀ h a, o.Lacks h a → a.writes = true

namespace Poised

/-- What is opened next can be opened. -/
theorem step_phase (hp : s.Poised n₀ net hist done)
    (hl : s.node.Ledger n₀ hist V log done s.starting) (hu : n₀.Unfailing hist)
    (ho : o ∈ s.openings) : (o.step s.node).2.phase ≠ .failed := by
  obtain ⟨scheduler, hs⟩ := Option.isSome_iff_exists.mp hp.healthy.alive
  have hplaced := hp.steady.placed o ho
  refine (o.steps_of_step s.node).phase_ne_failed (hp.steady.going o ho)
    (fun bytes => hplaced.scratch hl hu) fun h a hdata => ?_
  obtain ⟨-, block, -, hopen⟩ := hp.healthy.intact.openHandle (hplaced.room hl hs hu hdata)
  exact ⟨(hp.healthy.intact.buffers h).whole, block, hopen⟩

/-- Where a rank computes its tiles before it reads them, nobody begins to allocate for a reader. -/
theorem step_lacking (hp : s.Poised n₀ net hist done)
    (hl : s.node.Ledger n₀ hist V log done s.starting) (hprimed : n₀.Primed hist)
    (ho : o ∈ s.openings) (hlacks : (o.step s.node).2.Lacks h a) : a.writes = true := by
  obtain ⟨scheduler, hs⟩ := Option.isSome_iff_exists.mp hp.healthy.alive
  obtain ⟨hnext, hmissed | habsent⟩ := (o.steps_of_step s.node).lacks hlacks
  · exact hp.lacking hprimed o ho h a ⟨hnext, Or.inl hmissed⟩
  · refine Bool.not_eq_false _ |>.mp fun hread => ?_
    obtain ⟨d, hd, huses, hundone, hfirst⟩ := (hp.steady.placed o ho).duty hl hs
    exact hp.healthy.filled.opened_of_reads hl hprimed hd hundone hfirst
      (huses ▸ Opening.mem_uses_of_getElem? hnext) hread habsent

/-- The buffers that are being opened are among those of the rank. -/
theorem bound (hp : s.Poised n₀ net hist done) (hl : s.node.Ledger n₀ hist V log done s.starting)
    (ho : o ∈ s.openings) (hop : .data h a ∈ o.operands) : h < s.node.handles.length := by
  obtain ⟨scheduler, hs⟩ := Option.isSome_iff_exists.mp hp.healthy.alive
  obtain ⟨d, hd, huses, -⟩ := (hp.steady.placed o ho).duty hl hs
  obtain ⟨j, hj⟩ := List.getElem?_of_mem hop
  exact hl.bound_of_use hd (huses ▸ Opening.mem_uses_of_getElem? hj)

omit [Scalar α] in
/-- Some openings are left, and the rank goes on. -/
theorem sub {hist' : List (Entry α)} {done' : TaskId → Prop} (hp : s.Poised n₀ net hist done)
    (hn : n₀.Healthy s'.node hist' done') (hst : s'.Steady net') (hsub : s'.openings ⊆ s.openings)
    (hopen : ∀ o ∈ s'.openings, ∀ h a, o.Reaches h a → a.writes = false → s.node.Opened h →
      s'.node.Opened h)
    (hprimed : n₀.Primed hist' → n₀.Primed hist) : s'.Poised n₀ net' hist' done' :=
  ⟨hn, hst, hp.staggered.sub hsub hopen, fun h o ho => hp.lacking (hprimed h) o (hsub ho)⟩

end Poised

/-- A rank with what is known about it between two moves. -/
def site (s : Station α) (hist : List (Entry α)) (mail : Mail) (log : List (Task α))
    (done : TaskId → Prop) : Site α :=
  ⟨s.node, hist, mail, log, done, s.starting⟩

omit [Scalar α] in
/-- A task that opens no buffer is no send and no eviction. -/
theorem not_of_opening {t : Task α} {rest : List (Task α)}
    (hopens : s.opening net .scheduler 0 = none) (hnext : s.starting = t :: rest) (h : HandleId) :
    (∀ dst tag, t.job ≠ .send h dst tag) ∧ t.job ≠ .evict h := by
  obtain ⟨id, name, uses, job⟩ := t
  unfold opening at hopens
  rw [hnext] at hopens
  constructor
  · rintro dst tag rfl
    cases hopens
  · rintro rfl
    cases hopens

/-- A copy is freed when nobody else opens it. -/
theorem Poised.not_uses_of_evict (hp : s.Poised n₀ net hist done)
    (hl : s.node.Ledger n₀ hist V log done s.starting) {i : Nat} {o' : Opening} {t : Task α}
    {rest : List (Task α)} (hfound : s.openings[i]? = some o) (hopener : o.opener = .scheduler)
    (hnext : s.starting = t :: rest) (hjob : t.job = .evict h) (ho' : o' ∈ s.openings.eraseIdx i) :
    (h, a) ∉ o'.uses := by
  intro huse
  obtain ⟨scheduler, hs⟩ := Option.isSome_iff_exists.mp hp.healthy.alive
  have hord := hl.account.orderly
  have hmem := List.mem_of_getElem? hfound
  have hmem' := List.mem_of_mem_eraseIdx ho'
  have hne : o ≠ o' := by
    rintro rfl
    exact hp.steady.id_ne_of_mem_eraseIdx hfound ho' rfl
  have hwrites : (h, Access.write) ∈ o.uses := by
    cases hp.steady.placed o hmem with
    | worker opener | receiver opener | holder opener => cases hopener.symm.trans opener
    | send opener next id job =>
      obtain ⟨rfl, -⟩ := List.cons.inj (hnext.symm.trans next)
      cases hjob.symm.trans job
    | evict opener next id job operands =>
      obtain ⟨rfl, -⟩ := List.cons.inj (hnext.symm.trans next)
      obtain rfl := Job.evict.inj (hjob.symm.trans job)
      unfold Opening.uses
      rw [operands]
      exact List.mem_cons_self
  exact hp.steady.not_conflict hord hs hmem hmem' hne
    (.of_write hwrites huse rfl (hp.steady.proper hord hs hmem' huse))

section

variable {i : Nat} {mail : Mail}

/-- A computation that has run sends and receives nothing. -/
theorem mail_of_worker (hfound : s.openings[i]? = some o) (hopener : o.opener = .worker) :
    (Motion.finish i : Motion α).mail net s mail = mail := by
  obtain ⟨opener, id, operands, opened, phase⟩ := o
  obtain rfl : opener = .worker := hopener
  unfold Motion.mail
  dsimp only
  rw [hfound]

/-- A task of the scheduler may send. -/
theorem mail_of_scheduler {t : Task α} {rest : List (Task α)} (hfound : s.openings[i]? = some o)
    (hopener : o.opener = .scheduler) (hnext : s.starting = t :: rest) :
    (Motion.finish i : Motion α).mail net s mail =
      { mail with sent := mail.sent ++ s.node.posted net t } := by
  obtain ⟨opener, id, operands, opened, phase⟩ := o
  obtain rfl : opener = .scheduler := hopener
  unfold Motion.mail
  dsimp only
  rw [hfound, hnext]

/-- A receive takes what has come. -/
theorem mail_of_receiver {j : Nat} (hfound : s.openings[i]? = some o)
    (hopener : o.opener = .receiver)
    (hplace : j = s.node.arrivals.findIdx fun a => a.id == o.id) :
    (Motion.finish i : Motion α).mail net s mail = Act.mail net s.node mail (.arrive j) := by
  obtain ⟨opener, id, operands, opened, phase⟩ := o
  obtain rfl : opener = .receiver := hopener
  subst hplace
  unfold Motion.mail
  dsimp only
  rw [hfound]

end

omit [Scalar α] in
theorem left_subset (openings : List Opening) (a : Act α) : left openings a ⊆ openings := by
  cases a with
  | release id => exact List.filter_subset_self _
  | _ => exact List.Subset.refl _

end Station

/-! ## One move -/

namespace Coherent

open Station

variable {w₀ : World α} {tiles : List Tensor.Blueprint} {plan : List Line} {net net' : Cluster}
  {V : Nat → Option (List α)} {site : Rank → Site α} {r : Rank} {s s' : Station α} {gives : Bool}
  {mv : Motion α} {hist : List (Entry α)} {mail : Mail} {log : List (Task α)} {done : TaskId → Prop}

theorem ticketed (hc : Coherent w₀ tiles plan net V site) (hr : r < w₀.size)
    (hsite : site r = s.site hist mail log done) : s.Ticketed net := by
  have hissued := hc.wire.issued r hr
  have hdistinct := hc.wire.distinct r hr r hr
  rw [hsite] at hissued hdistinct
  exact ⟨hissued, fun a ha b hb ht => (hdistinct a ha b hb ht).2⟩

/-- Nothing happens on a rank but that openings come and go. -/
theorem same (hc : Coherent w₀ tiles plan net V site) (hsite : site r = s.site hist mail log done) :
    Coherent w₀ tiles plan net V (Function.update site r (s.site hist mail log done)) := by
  rw [← hsite, Function.update_eq_self]
  exact hc

/-- The next task of the scheduler is started, when its buffer has been opened or there is none. -/
theorem goes_start (hw : w₀.Common tiles plan) (hc : Coherent w₀ tiles plan net V site)
    (hr : r < w₀.size) (hsite : site r = s.site hist mail log done)
    (hp : s.Poised (w₀.node r) net hist done) (hu : (w₀.node r).Unfailing hist) {t : Task α}
    {rest : List (Task α)} (hnext : s.starting = t :: rest) {openings : List Opening}
    (hsub : openings.Sublist s.openings) (hnone : ∀ o ∈ openings, o.opener ≠ .scheduler)
    (hfree : ∀ h, t.job = .evict h → ∀ o ∈ openings, ∀ a, (h, a) ∉ o.uses) :
    let s' := ({ s with openings }.resume (Node.start net s.node t).2 rest)
    ∃ V' done', Coherent w₀ tiles plan (Node.start net s.node t).1 V' (Function.update site r
        (s'.site hist { mail with sent := mail.sent ++ s.node.posted net t } log done')) ∧
      s'.Poised (w₀.node r) (Node.start net s.node t).1 hist done' := by
  have hstart : (site r).todo = t :: rest → _ := hc.start_healthy hw hr
  rw [hsite] at hstart
  obtain ⟨halive, V', done', hc', hn'⟩ := hstart hnext hu hp.healthy
  have hst : ({ s with openings }.resume (Node.start net s.node t).2 rest : Station α).Steady _ :=
    hp.steady.start (hc.ticketed hr hsite) halive hsub hnone
  have hs' : ({ s with openings }.resume (Node.start net s.node t).2 rest : Station α) =
      { s with openings, node := (Node.start net s.node t).2, starting := rest } := if_pos halive
  refine ⟨V', done', ?_, ?_⟩
  · rw [hs']
    exact hc'
  · refine hp.sub ?_ hst ?_ ?_ id
    · rw [hs']
      exact hn'
    · rw [hs']
      exact hsub.subset
    · rw [hs']
      intro o ho h a hreach _
      have hspares : Node.Spares True h s.node (Node.start net s.node t).2 :=
        (Node.starts_of_start net s.node t).spares fun hj =>
          hfree h hj o ho a hreach.mem_uses
      exact hspares.lasts

/-- Something happens on a rank besides its scheduler's turns. -/
theorem goes_act (hw : w₀.Common tiles plan) (hc : Coherent w₀ tiles plan net V site)
    (hr : r < w₀.size) (hsite : site r = s.site hist mail log done)
    (hp : s.Poised (w₀.node r) net hist done) {a : Act α} {n' : Node α} {openings : List Opening}
    (hu : (w₀.node r).Unfailing (a.record s.node hist)) (hf : lines (a.record s.node hist) <+: plan)
    (h : s.node.act net a = some (net', n')) (htake : a ≠ .take) (hsub : openings ⊆ s.openings)
    (hst : Steady net' { s with node := n', openings }) :
    let s' := ({ s with node := n', openings } : Station α)
    ∃ V' log' done', Coherent w₀ tiles plan net' V' (Function.update site r
        (s'.site (a.record s.node hist) (a.mail net s.node mail) log' done')) ∧
      s'.Poised (w₀.node r) net' (a.record s.node hist) done' := by
  have hl := hc.ledger r hr
  have hact : (site r).node.act net a = some (net', n') → _ := hc.act_of_ne_take hw hr
  have hopened : ∀ j (c : Arrival), Node.takeArrival net (site r).node j = some (net', n') →
      (site r).node.arrivals[j]? = some c → n'.Opened c.handle :=
    fun j c => hc.opened_of_arrive hw hr
  rw [hsite] at hl hact hopened
  obtain ⟨log', done', hc', hg⟩ := hact h htake hf
  have harrive : ∀ j c, a = .arrive j → s.node.arrivals[j]? = some c → n'.Opened c.handle := by
    rintro j c rfl hj
    exact hopened j c h hj
  refine ⟨V, log', done', hc', hp.sub ?_ hst hsub ?_ Node.Primed.of_record⟩
  · exact hp.healthy.act hl hu.of_record h htake hg harrive
  · exact fun _ _ _ _ _ _ => Node.opened_of_act h htake harrive

/-- What is next to open a buffer concerns no other rank. -/
theorem goes_lock (hw : w₀.Common tiles plan) (hc : Coherent w₀ tiles plan net V site)
    (hr : r < w₀.size) (hsite : site r = s.site hist mail log done)
    (hp : s.Poised (w₀.node r) net hist done) (hu : (w₀.node r).Unfailing hist) {o : Opening}
    {openings : List Opening} (ho : o ∈ s.openings) :
    Coherent w₀ tiles plan net V (Function.update site r
      (({ s with node := (o.step s.node).1, openings } : Station α).site hist mail log done)) ∧
    (w₀.node r).Healthy (o.step s.node).1 hist done := by
  rcases (o.steps_of_step s.node).node with heq | ⟨h, a, hnext, heq⟩
  · rw [heq]
    exact ⟨hc.same hsite, hp.healthy⟩
  · rw [heq]
    have hl := hc.ledger r hr
    have hopen := hc.open_healthy hw hr (h := h)
    rw [hsite] at hl hopen
    obtain ⟨scheduler, hs⟩ := Option.isSome_iff_exists.mp hp.healthy.alive
    exact hopen ((hp.steady.placed o ho).room hl hs hu (List.mem_of_getElem? hnext)) hp.healthy

/-- A rank makes a move, the ranks stay coherent, and the rank is poised for its next one. -/
theorem goes (hw : w₀.Common tiles plan) (hc : Coherent w₀ tiles plan net V site)
    (hr : r < w₀.size) (hsite : site r = s.site hist mail log done)
    (hp : s.Poised (w₀.node r) net hist done) (hu : (w₀.node r).Unfailing (mv.record s hist))
    (hf : lines (mv.record s hist) <+: plan) (hg : s.Goes gives net mv net' s') :
    ∃ V' log' done', Coherent w₀ tiles plan net' V' (Function.update site r
        (s'.site (mv.record s hist) (mv.mail net s mail) log' done')) ∧
      s'.Poised (w₀.node r) net' (mv.record s hist) done' := by
  have hl := hc.ledger r hr
  rw [hsite] at hl
  cases hg with
  | @act a net' n' allowed ok =>
    refine hc.goes_act hw hr hsite hp hu hf ok ?_ (left_subset _ a) (hp.steady.act hl allowed ok)
    rintro rfl
    cases allowed
  | @stop scheduler e events f idle running oldest fault =>
    have hreact : (site r).todo = [] → (site r).node.scheduler = some scheduler →
        (site r).node.events = e :: events → scheduler.react e ≠ .error f :=
      fun htodo => hc.react_ne_error hr htodo
    rw [hsite] at hreact
    exact absurd fault (hreact idle running oldest)
  | @take scheduler e events p idle running oldest ok =>
    have htake : (site r).todo = [] → (site r).node.scheduler = some scheduler →
        (site r).node.events = e :: events → scheduler.react e = .ok p → _ :=
      fun htodo => hc.take_healthy hw hr htodo
    rw [hsite] at htake
    obtain ⟨hc', hn'⟩ := htake idle running oldest ok hp.healthy
    exact ⟨V, log, done, hc', hp.sub hn' (hp.steady.take idle events p) (List.Subset.refl _)
      (fun _ _ _ _ _ _ hh => hh) id⟩
  | @start t rest next opens =>
    have hnot := not_of_opening opens next
    obtain ⟨V', done', hc', hp'⟩ := hc.goes_start hw hr hsite hp hu next (.refl _)
      (hp.steady.not_scheduler_of_opening opens) fun h hj => absurd hj (hnot h).2
    rw [Node.posted_of_job fun h => (hnot h).1, List.append_nil] at hc'
    exact ⟨V', log, done', hc', hp'⟩
  | @begin c i o opens ready new =>
    obtain ⟨hnew, hphase⟩ := begins_of_opening opens
    have hlack : ¬o.Lacking := by
      rintro ⟨h, a, -, hlacks⟩
      rcases hphase with heq | ⟨heq, -⟩ <;> simp [heq] at hlacks
    refine ⟨V, log, done, ?_, hp.healthy, hp.steady.begin opens new, ?_, ?_⟩
    · exact hc.same hsite
    · refine hp.staggered.begin (Opening.held_eq_nil hnew) hlack ?_
      rintro h a (hheld | ⟨hnext, henter⟩)
      · rw [Opening.held_eq_nil hnew] at hheld
        cases hheld
      · rcases hphase with heq | ⟨-, b, hops⟩
        · cases heq.symm.trans henter
        · rw [hops, hnew] at hnext
          cases hnext
          rfl
    · intro hprimed o' ho' h a hlacks
      rcases List.mem_append.mp ho' with ho' | ho'
      · exact hp.lacking hprimed o' ho' h a hlacks
      · obtain rfl := List.mem_singleton.mp ho'
        exact absurd ⟨h, a, hlacks⟩ hlack
  | @lock i o found more free =>
    have hmem := List.mem_of_getElem? found
    obtain ⟨hc', hn'⟩ := hc.goes_lock hw hr hsite hp hu hmem
    refine ⟨V, log, done, hc', hn', hp.steady.lock found (hp.step_phase hl hu hmem), ?_, ?_⟩
    · exact hp.staggered.step hp.steady.distinct found (o.steps_of_step s.node)
        fun h a => hp.bound hl hmem
    · intro hprimed o' ho' h a hlacks
      rcases List.mem_or_eq_of_mem_set ho' with ho' | rfl
      · exact hp.lacking hprimed o' ho' h a hlacks
      · exact hp.step_lacking hl hprimed hmem hlacks
  | @run i j o w n' found opener ended ready id ok =>
    have hact : s.node.act net (.work j) = some (net, n') :=
      congrArg (Option.map fun n => (net, n)) ok
    rw [mail_of_worker found opener]
    exact hc.goes_act hw hr hsite hp (a := .work j) hu hf hact (by simp)
      (List.eraseIdx_sublist _ _).subset (hp.steady.run found ready id ok)
  | @dispatch i o t rest found opener ended next =>
    obtain ⟨V', done', hc', hp'⟩ := hc.goes_start hw hr hsite hp hu next
      (List.eraseIdx_sublist s.openings i) (hp.steady.not_scheduler_of_mem_eraseIdx found opener)
      fun h hj o' ho' a => hp.not_uses_of_evict hl found opener next hj ho'
    rw [mail_of_scheduler found opener next]
    exact ⟨V', log, done', hc', hp'⟩
  | @receive i j o a net' n' found opener ended place ready id ok =>
    rw [mail_of_receiver found opener place]
    exact hc.goes_act hw hr hsite hp (a := .arrive j) hu hf ok (by simp)
      (List.eraseIdx_sublist _ _).subset
      (hp.steady.receive (hc.ticketed hr hsite) found ready id ok)
  | @giveUp i o found opener ended failed =>
    have hgoing := hp.steady.going o (List.mem_of_getElem? found)
    unfold Opening.ended at ended
    rw [failed, Bool.false_or, decide_eq_true_iff] at ended
    exact absurd ended hgoing

end Coherent

/-! ## Runs of a world -/

namespace Station.Motion

variable {mv : Motion α} {s : Station α} {hist : List (Entry α)} {n₀ : Node α}

omit [Scalar α] in
/-- The lines that a rank has come past stay. -/
theorem lines_record (mv : Motion α) (s : Station α) (hist : List (Entry α)) :
    lines hist <+: lines (mv.record s hist) := by
  cases mv with
  | act a => exact TiledTensor.lines_record _ _ a
  | take => exact List.prefix_refl _
  | start => exact List.prefix_refl _
  | begin c i => exact List.prefix_refl _
  | lock i => exact List.prefix_refl _
  | finish i => exact List.prefix_refl _

theorem unfailing_of_record (hu : n₀.Unfailing (mv.record s hist)) : n₀.Unfailing hist := by
  cases mv with
  | act a => exact hu.of_record
  | take => exact hu
  | start => exact hu
  | begin c i => exact hu
  | lock i => exact hu
  | finish i => exact hu

end Station.Motion

namespace World

open Station

/-- What is known of all ranks between two moves. -/
structure Poised (w₀ : World α) (tiles : List Tensor.Blueprint) (plan : List Line)
    (V : Nat → Option (List α)) (hist : Rank → List (Entry α)) (mail : Rank → Mail) (net : Cluster)
    (st : Rank → Station α) (log : Rank → List (Task α)) (done : Rank → TaskId → Prop) : Prop where
  coherent : Coherent w₀ tiles plan net V fun r => (st r).site (hist r) (mail r) (log r) (done r)
  ranks : ∀ r < w₀.size, (st r).Poised (w₀.node r) net (hist r) (done r)

variable {w₀ : World α} {tiles : List Tensor.Blueprint} {plan : List Line} {gives : Bool}
  {more : Rank → Nat} {V : Nat → Option (List α)} {hist : Rank → List (Entry α)}
  {mail : Rank → Mail} {net net' : Cluster} {st : Rank → Station α} {log : Rank → List (Task α)}
  {done : Rank → TaskId → Prop}

/-- Nothing has been asked of the ranks yet. -/
theorem poised_nil (hw : w₀.Common tiles plan)
    (hu : ∀ r < w₀.size, ∀ h, ((w₀.node r).handle h).Intact) :
    w₀.Poised tiles plan (fun _ => none) (fun _ => []) (fun _ => {}) w₀.cluster (w₀.stations more)
      (fun _ => []) fun _ _ => False := by
  refine ⟨.fresh hw, fun r hr =>
    ⟨(hw.fresh r hr).healthy (hu r hr), ⟨?_, List.nodup_nil, ?_⟩, .nil _, ?_⟩⟩
  · intro o ho
    cases ho
  · intro o ho
    cases ho
  · intro _ o ho
    cases ho

/-- One rank makes a move. -/
theorem Poised.move (hw : w₀.Common tiles plan)
    (hp : w₀.Poised tiles plan V hist mail net st log done) {r : Rank} (hr : r < w₀.size)
    {mv : Motion α} {s' : Station α} (hu : (w₀.node r).Unfailing (mv.record (st r) (hist r)))
    (hf : lines (mv.record (st r) (hist r)) <+: plan)
    (h : (st r).move gives net mv = some (net', s')) : ∃ V' log' done',
      w₀.Poised tiles plan V' (Function.update hist r (mv.record (st r) (hist r)))
        (Function.update mail r (mv.mail net (st r) (mail r))) net' (Function.update st r s')
        log' done' := by
  have hgoes := goes_of_move h
  obtain ⟨V', log', done', hc, hs'⟩ := hp.coherent.goes hw hr rfl (hp.ranks r hr) hu hf hgoes
  refine ⟨V', Function.update log r log', Function.update done r done', ?_, ?_⟩
  · refine Eq.mp (congrArg (Coherent w₀ tiles plan net' V') ?_) hc
    funext q
    by_cases hq : q = r
    · subst hq
      simp only [Function.update_self]
    · simp only [Function.update_of_ne hq]
  · intro q hq
    by_cases hqr : q = r
    · subst hqr
      simp only [Function.update_self]
      exact hs'
    · simp only [Function.update_of_ne hqr]
      obtain ⟨hhealthy, hsteady, hstaggered, hlacking⟩ := hp.ranks q hq
      refine ⟨hhealthy, hsteady.mono fun a ha => ?_, hstaggered, hlacking⟩
      refine hgoes.answered (hp.coherent.wire.issued q hq a ha) ?_
      intro b hb hticket
      exact hqr (hp.coherent.wire.distinct q hq r hr a ha b hb hticket).1

/-- Whatever moves the ranks make, in whatever order, all that is known of them stays true. -/
theorem LockRun.poised (hw : w₀.Common tiles plan) (run : w₀.LockRun gives more hist mail net st)
    (hf : ∀ r < w₀.size, lines (hist r) <+: plan)
    (hu : ∀ r < w₀.size, (w₀.node r).Unfailing (hist r)) :
    ∃ V log done, w₀.Poised tiles plan V hist mail net st log done := by
  induction run with
  | nil => exact ⟨_, _, _, poised_nil hw fun r hr => (hu r hr).intact⟩
  | @snoc hist mail net st net' s' r mv hr run step ih =>
    have hf' := hf r hr
    have hu' := hu r hr
    rw [Function.update_self] at hf' hu'
    obtain ⟨V, log, done, hp⟩ := ih
      (fun q hq => by
        by_cases hqr : q = r
        · subst hqr
          exact (mv.lines_record (st q) (hist q)).trans hf'
        · simpa only [Function.update_of_ne hqr] using hf q hq)
      (fun q hq => by
        by_cases hqr : q = r
        · subst hqr
          exact Motion.unfailing_of_record hu'
        · simpa only [Function.update_of_ne hqr] using hu q hq)
    exact hp.move hw hr hu' hf' step

end World

end TiledTensor
