import TiledTensor.Proofs.Ownership

/-!
# What an action queues

An action of a rank, or of its callers, queues at most one task, on buffers that it names, and
numbers it in turn (`Node.queueing_of_call`).  What the rank does by itself queues none: the tasks
that it has been given, those that its scheduler has taken and those on their way, stay the same
(`Node.given_of_own`).
-/

namespace TiledTensor

variable {α : Type}

/-- What an action is among all that can happen. -/
def Act.happening : Act α → Happening α
  | .call (.submit op) => .submit op .cpu
  | .call (.transfer h t) => .transfer h t
  | .call (.flush h) => .flush h
  | .acquire h a => .acquire h a
  | .release k => .release k
  | .look k => .look k
  | .put k block => .put k block
  | .take => .take
  | .work i => .work i
  | .arrive i => .arrive i

/-- The tasks that a rank has been given: those that the scheduler has taken, and those on their
way. -/
def Node.given (n : Node α) (b : Scheduler.Record α) : List (Task α) := b.submitted ++ submits n.events

namespace Node

variable {n n' : Node α} {net net' : Cluster} {a : Act α} {h : HandleId}

/-! ## What an action queues -/

/-- The task that a call of a rank queues. -/
structure Orders (n : Node α) (a : Act α) (u : Task α) : Prop where
  id : u.id = n.nextTask
  uses : ∀ x ∈ u.uses, x.1 ∈ a.happening.names
  job : ∀ tags, u.job ≠ .retire tags
  tagged : ∀ h r tag, u.job = .send h r tag ∨ u.job = .receive h r tag →
    (n.handle h).tag = some tag
  /-- The target of a transfer queues a receive. -/
  asks : ∀ h, a = .call (.transfer h n.rank) → ∃ src tag, u.job = .receive h src tag

/-- A task that neither sends nor receives. -/
theorem Orders.of_job {name : String} {uses : List (HandleId × Access)} {job : Job α}
    (ha : ∀ h r, a ≠ .call (.transfer h r)) (hu : ∀ x ∈ uses, x.1 ∈ a.happening.names)
    (hretire : ∀ tags, job ≠ .retire tags)
    (hjob : ∀ h r tag, job ≠ .send h r tag ∧ job ≠ .receive h r tag) :
    n.Orders a ⟨n.nextTask, name, uses, job⟩ :=
  ⟨rfl, hu, hretire, fun h r tag hor => (hor.elim (hjob h r tag).1 (hjob h r tag).2).elim,
    fun h heq => absurd heq (ha h _)⟩

/-- What an action of the rank or of its callers adds to the tasks on their way. -/
inductive Queueing (n : Node α) (a : Act α) (n' : Node α) : Prop
  | nothing (submits : submits n'.events = submits n.events) (nextTask : n'.nextTask = n.nextTask)
  | task (u : Task α) (orders : n.Orders a u)
      (submits : TiledTensor.submits n'.events = TiledTensor.submits n.events ++ [u])
      (nextTask : n'.nextTask = n.nextTask + 1)

theorem Queueing.of_enqueue {m : Node α} {name : String} {uses : List (HandleId × Access)} {job : Job α}
    (hm : n.OnlyBuffers m) (hs : n.scheduler.isSome)
    (ho : n.Orders a ⟨n.nextTask, name, uses, job⟩) :
    n.Queueing a (m.enqueue name uses job).1 := by
  have hid : m.nextTask = n.nextTask := by rw [hm.eq]
  refine .task _ ho ?_ ?_
  · rw [enqueue_events (hm.scheduler.symm ▸ hs), submits_append, hm.events, hid]
    rfl
  · rw [enqueue_nextTask, hid]

theorem Queueing.of_same (he : n'.events = n.events) (hn : n'.nextTask = n.nextTask) :
    n.Queueing a n' :=
  .nothing (by rw [he]) hn

variable [Scalar α]

/-- An action is something that can happen. -/
theorem undergo_of_act (h : n.act net a = some (net', n')) :
    n.undergo net a.happening = some (net', n') := by
  cases a with
  | call c =>
    obtain ⟨-, rfl, hok⟩ := call_of_act h
    cases c with
    | submit op => exact congrArg (fun p => some (_, p.1)) hok
    | transfer b t => exact congrArg (fun p => some (_, p.1)) hok
    | flush b => exact congrArg (fun p => some (_, p.1)) hok
  | acquire b c =>
    cases acts_of_act h with
    | acquire bound ok => exact congrArg (fun p => some (_, p.1)) ok
  | release k => exact h
  | look k => exact h
  | put k block => exact h
  | take => exact h
  | work i => exact h
  | arrive i => exact h

/-- A call queues at most one task, on buffers that it names. -/
theorem queueing_of_call (hs : n.scheduler.isSome) (ha : a.happening.isCall = true)
    (hok : n.act net a = some (net', n')) : n.Queueing a n' := by
  cases acts_of_act hok with
  | @submit op _ bounds ok =>
    obtain ⟨id, hqueued⟩ := submit_eq_ok ok
    have hone : n.Queueing (.call (.submit op))
        ((n.markWritten op.uses).enqueue op.name op.uses (.compute op)).1 :=
      .of_enqueue (onlyBuffers_markWritten n op.uses) hs
        (.of_job (fun _ _ h => by cases h) (fun x hx => List.mem_map_of_mem hx) (fun _ h => by cases h)
          fun _ _ _ => ⟨(fun h => by cases h), (fun h => by cases h)⟩)
    rw [hqueued] at hone
    exact hone
  | @transfer b t _ bound ok =>
    have htransfers := transfers n b t
    rw [ok] at htransfers
    cases htransfers with
    | skips nothing => exact .of_same rfl rfl
    | asks tag name asks =>
      refine .of_enqueue (onlyBuffers_setHandle fun hp => hp) hs ⟨rfl, ?_, (fun _ h => by cases h), ?_, ?_⟩
      · exact List.forall_mem_singleton.mpr List.mem_cons_self
      · intro h r tag' hjob
        rcases hjob with hjob | hjob
        · cases hjob
        · cases hjob
          exact asks.tagged
      · rintro h ⟨⟩
        exact ⟨_, _, rfl⟩
    | sends tag name sends =>
      refine .of_enqueue (onlyBuffers_setHandle fun hp => hp) hs ⟨rfl, ?_, (fun _ h => by cases h), ?_, ?_⟩
      · exact List.forall_mem_singleton.mpr List.mem_cons_self
      · intro h r tag' hjob
        rcases hjob with hjob | hjob
        · cases hjob
          exact sends.tagged
        · cases hjob
      · rintro h ⟨⟩
        exact absurd rfl sends.other
  | @flush b _ bound ok =>
    have hedits := edits_flush n b
    rw [ok] at hedits
    cases hedits with
    | idle flush transfer handles => exact absurd rfl (flush b)
    | writes uses own flush transfer handles => exact absurd rfl (flush b)
    | forgets _ nothing => exact .of_same rfl rfl
    | drops _ foreign held =>
      exact .of_enqueue (onlyBuffers_setHandle fun hp => hp) hs
        (.of_job (fun _ _ h => by cases h) (List.forall_mem_singleton.mpr List.mem_cons_self)
          (fun _ h => by cases h) fun _ _ _ => ⟨(fun h => by cases h), (fun h => by cases h)⟩)
  | @acquire b c _ id bound ok =>
    obtain ⟨-, -, -, -, rfl⟩ := acquire_eq_ok ok
    exact .task ⟨n.nextTask, "acquire", [(b, c)], .grant⟩
      (.of_job (fun _ _ h => by cases h) (List.forall_mem_singleton.mpr List.mem_cons_self)
        (fun _ h => by cases h) fun _ _ _ => ⟨(fun h => by cases h), (fun h => by cases h)⟩)
      (submits_append _ _) rfl
  | @release k c found =>
    refine .nothing ?_ ?_
    · unfold release
      rw [post_events { n with accessors := n.accessors.erase k } _ hs, submits_append]
      exact List.append_nil _
    · unfold release
      rw [post_nextTask]
  | @look k c held =>
    have hm := onlyMemory_openHandle n c.handle
    exact .of_same hm.events (by rw [hm.toOnlyBuffers.eq])
  | @put k c block _ held ok =>
    have hm := onlyMemory_enterWrite ok
    exact .of_same hm.events (by rw [hm.toOnlyBuffers.eq])
  | take ok => cases ha
  | work ok => cases ha
  | arrive ok => cases ha

/-! ## The tasks that a rank has been given -/

section

variable {b : Scheduler.Record α} {s s' : Scheduler α} {x : Happening α} {m : Node α}

omit [Scalar α] in
theorem submits_append_of_ended {events more : List (Event α)} (h : ∀ e ∈ more, e.ended? ≠ none) :
    submits (events ++ more) = submits events := by
  rw [submits_append]
  refine (congrArg _ (List.filterMap_eq_nil_iff.mpr fun e he => ?_)).trans (List.append_nil _)
  cases e with
  | submit t => exact absurd rfl (h _ he)
  | complete k => rfl
  | fail k f => rfl
  | wait b => rfl

/-- Starting tasks submits none. -/
theorem submits_startAll {tasks : List (Task α)} (halive : (startAll net n tasks).2.scheduler.isSome) :
    submits (startAll net n tasks).2.events = submits n.events := by
  refine startAll_of_alive (P := fun _ m => submits m.events = submits n.events) rfl ?_ halive
  intro net net' m m' t todo hs hgo hm
  rcases hs.events hgo with he | he
  · rw [he]
    exact hm
  · rw [he, ← hm]
    exact submits_append_of_ended fun e h => by
      rw [List.mem_singleton.mp h]
      exact Option.some_ne_none _

/-- What a rank does by itself gives it no tasks. -/
theorem given_of_own (hk : Kept b [] n s) (hx : x.isCall = false)
    (h : n.undergo net x = some (net', n')) (hs : n'.scheduler = some s') :
    n'.given (Scene.note b ⟨net, n, x, n'⟩) = n.given b := by
  cases undergoes_of_undergo h with
  | calls call calls edits => cases hx.symm.trans call
  | takes takes =>
    obtain ⟨e, events, p, queue, react, rfl, rfl⟩ := takes.reacts_of_alive hk.scheduler (hs ▸ rfl)
    rw [Scene.note_of_react hk.scheduler queue react]
    show (b.add e p.2).submitted ++ submits (startAll net _ p.2.started).2.events = _
    rw [submits_startAll (Option.isSome_iff_exists.mpr ⟨s', hs⟩)]
    exact (Kept.log_add b e events p.2).trans (queue ▸ rfl)
  | works i w queued =>
    have hrun := onlyMemory_run { n with work := n.work.eraseIdx i } w.op
    show b.submitted ++ submits _ = _
    rw [post_events _ _ (by rw [hrun.scheduler]; exact hk.scheduler ▸ rfl), hrun.events]
    exact congrArg _ (submits_append_of_ended fun e h => by
      rw [List.mem_singleton.mp h]
      exact Option.some_ne_none _)
  | arrives i c r pending receipt finishes =>
    refine congrArg (b.submitted ++ ·) ?_
    rcases finishes.events (hk.scheduler ▸ rfl) with he | he | ⟨f, he⟩
    · rw [he]
    · rw [he]
      exact submits_append_of_ended fun e h => by
        rw [List.mem_singleton.mp h]
        exact Option.some_ne_none _
    · rw [he]
      exact submits_append_of_ended fun e h => by
        rw [List.mem_singleton.mp h]
        exact Option.some_ne_none _

omit [Scalar α] in
theorem nextTask_of_given {b' : Scheduler.Record α} (hk : Kept b [] n s) (hk' : Kept b' [] m s')
    (h : m.given b' = n.given b) : m.nextTask = n.nextTask := by
  have hlen := congrArg List.length h
  unfold given at hlen
  rw [List.length_append, List.length_append, hk'.length_log, hk.length_log] at hlen
  exact hlen

omit [Scalar α] in
/-- More buffers may be made. -/
theorem Kept.append (hk : Kept b [] n s) (own : List (Handle α))
    (hb : ∀ t ∈ n.given b, ∀ u ∈ t.uses, u.1 < n.handles.length)
    (ha : ∀ k c, n.accessors.find? k = some c → c.handle < n.handles.length) :
    Kept b [] { n with handles := n.handles ++ own } s := by
  have hsame : ∀ {j}, j < n.handles.length →
      handle { n with handles := n.handles ++ own } j = n.handle j := handle_append_left own
  have hpoisoned : ∀ {j}, (n.handle j).memory = .poisoned → j < n.handles.length := by
    intro j hj
    refine Nat.lt_of_not_le fun hle => ?_
    unfold handle at hj
    rw [List.getD_eq_getElem?_getD, List.getElem?_eq_none hle] at hj
    cases hj
  refine ⟨hk.scheduler, hk.fits, hk.queued, hk.numbered, fun t ht => ?_, hk.starting, hk.ends, hk.fails,
    hk.work, hk.arrivals, fun k c hc => ?_, fun t ht hj => ?_⟩
  · have hsanctions : n.Sanctions t := ⟨Or.inr (hk.may t ht), hb t ht⟩
    refine (hsanctions.append own).1.resolve_left fun hw => ?_
    have hmay := hk.may t ht
    unfold May at hmay
    rw [hw] at hmay
    exact hmay
  · obtain ⟨hadm, h⟩ := hk.accessors k c hc
    refine ⟨fun hw => ?_, h⟩
    rw [hsame (ha k c hc)]
    exact hadm hw
  · refine (hk.dues t ht hj).imp_right ?_
    rintro ⟨hzero, h, src, tag, hjob, hp⟩
    refine ⟨hzero, h, src, tag, hjob, ?_⟩
    rw [hsame (hpoisoned hp)]
    exact hp

end

end Node

end TiledTensor
