import TiledTensor.Proofs.Marks

/-!
# Courses

A run is made of what succeeds.  A *course* is made of everything that can happen to a rank: calls
that are accepted and calls that are rejected, tags that are given back, barriers that are given up,
and the steps of the rank by itself, whatever they meet.  The messages between the ranks are left
entirely to others: from one happening to the next the cluster may be any.

Every happening is kept together with what was before it and what is after it, as a `Scene`.  What
is said about a course is read off its scenes.
-/

namespace TiledTensor

variable {α : Type}

/-- Something that happens to a rank, by a call or by itself. -/
inductive Happening (α : Type)
  | submit (op : Op α) (device : Device)
  | acquire (h : HandleId) (a : Access)
  /-- The accessor is given up, granted or not. -/
  | release (k : TaskId)
  /-- The holder of an accessor opens the buffer. -/
  | look (k : TaskId)
  /-- The holder of an accessor opens the buffer and writes its first elements. -/
  | put (k : TaskId) (block : List α)
  | wait
  | leave (b : BarrierId)
  | transfer (h : HandleId) (target : Rank)
  | flush (h : HandleId)
  | retire (hs : List HandleId) (tags : TagRange)
  /-- The scheduler takes an event. -/
  | take
  /-- A computation runs. -/
  | work (i : Nat)
  /-- A receive finishes. -/
  | arrive (i : Nat)

/-- What happens by a call. -/
def Happening.isCall : Happening α → Bool
  | .take | .work _ | .arrive _ => false
  | _ => true

/-- The line that a call is, if all ranks make it alike. -/
def Happening.line? : Happening α → Option Line
  | .transfer h t => some (.transfer h t)
  | .flush h => some (.flush h)
  | _ => none

/-- A happening with what was before it and the rank after it. -/
structure Scene (α : Type) where
  net : Cluster
  before : Node α
  happening : Happening α
  after : Node α

theorem World.node_setNode {w : World α} {r : Rank} (hr : r < w.size) (n : Node α) (j : Rank) :
    (w.setNode r n).node j = if j = r then n else w.node j := by
  unfold World.node World.setNode
  rw [List.getD_eq_getElem?_getD, List.getD_eq_getElem?_getD, List.getElem?_set]
  by_cases hj : r = j
  · subst hj
    rw [if_pos rfl, if_pos rfl, if_pos (show r < w.nodes.length from hr)]
    rfl
  · rw [if_neg hj, if_neg (Ne.symm hj)]

section

variable [Scalar α]

/-- What a happening does.  A call that is rejected happens as well; only an accessor that is held
can be used, and only what is there can be taken. -/
def Node.undergo (n : Node α) (net : Cluster) : Happening α → Option (Cluster × Node α)
  | .submit op device => some (net, (n.submitOn op device).1)
  | .acquire h a => some (net, (n.acquire h a).1)
  | .release k => if n.accessors.has k then some (net, n.release k) else none
  | .look k => (n.held k).map fun a => (net, (n.enter a).1)
  | .put k block => ((n.held k).bind fun a => n.enterWrite a block).map fun n => (net, n)
  | .wait => some (net, n.wait.1)
  | .leave b => some (net, n.leave b)
  | .transfer h target => some (net, (n.transfer h target).1)
  | .flush h => some (net, (n.flush h).1)
  | .retire hs tags => some (net, n.retire hs tags)
  | .take => n.takeEvent net
  | .work i => (n.runWork i).map fun n => (net, n)
  | .arrive i => n.takeArrival net i

/-- The courses of a rank. -/
inductive Node.Course (n₀ : Node α) : List (Scene α) → Node α → Prop
  | nil : Course n₀ [] n₀
  | snoc {scenes n net net' n'} (a : Happening α) (course : Course n₀ scenes n)
      (step : n.undergo net a = some (net', n')) : Course n₀ (scenes ++ [⟨net, n, a, n'⟩]) n'

/-! ## Courses of a world -/

/-- The courses of a world: happenings on its ranks, and other operations on the messages between
them. -/
inductive World.Course (w₀ : World α) : (Rank → List (Scene α)) → World α → Prop
  | nil : Course w₀ (fun _ => []) w₀
  | rank {scenes w net n} (r : Rank) (a : Happening α) (course : Course w₀ scenes w)
      (exists_rank : r < w.size) (step : (w.node r).undergo w.cluster a = some (net, n)) :
      Course w₀ (Function.update scenes r (scenes r ++ [⟨w.cluster, w.node r, a, n⟩]))
        { w.setNode r n with cluster := net }
  | cluster {scenes w} (a : Cluster.Action) (course : Course w₀ scenes w) :
      Course w₀ scenes { w with cluster := (w.cluster.act a).1 }

namespace World

variable {w₀ w : World α} {scenes : Rank → List (Scene α)}

theorem Course.size (course : w₀.Course scenes w) : w.size = w₀.size := by
  induction course with
  | nil => rfl
  | rank r a course hr step ih =>
    rw [← ih]
    exact List.length_set
  | cluster a course ih => exact ih

/-- Each rank of a world goes through a course of its own. -/
theorem Course.node (course : w₀.Course scenes w) (r : Rank) :
    (w₀.node r).Course (scenes r) (w.node r) := by
  induction course with
  | nil => exact .nil
  | @rank scenes w net n q a course hq step ih =>
    show (w₀.node r).Course _ ((w.setNode q n).node r)
    rw [World.node_setNode hq]
    by_cases hr : r = q
    · subst hr
      rw [Function.update_self, if_pos rfl]
      exact ih.snoc a step
    · rw [Function.update_of_ne hr, if_neg hr]
      exact ih
  | cluster a course ih => exact ih

/-- Lets ranks and messages undergo one thing after the other, and keeps the scenes. -/
def play (scenes : Rank → List (Scene α)) (w : World α) :
    List ((Rank × Happening α) ⊕ Cluster.Action) → Option ((Rank → List (Scene α)) × World α)
  | [] => some (scenes, w)
  | .inl (r, a) :: rest =>
    if r < w.size then
      ((w.node r).undergo w.cluster a).bind fun p =>
        play (Function.update scenes r (scenes r ++ [⟨w.cluster, w.node r, a, p.2⟩]))
          { w.setNode r p.2 with cluster := p.1 } rest
    else none
  | .inr a :: rest => play scenes { w with cluster := (w.cluster.act a).1 } rest

theorem Course.play {w' : World α} {scenes' : Rank → List (Scene α)}
    {acts : List ((Rank × Happening α) ⊕ Cluster.Action)} (course : w₀.Course scenes w)
    (h : w.play scenes acts = some (scenes', w')) : w₀.Course scenes' w' := by
  induction acts generalizing scenes w with
  | nil =>
    cases h
    exact course
  | cons act acts ih =>
    cases act with
    | inl p =>
      unfold World.play at h
      split at h
      · rename_i hr
        obtain ⟨q, hstep, hrest⟩ := Option.bind_eq_some_iff.mp h
        exact ih (course.rank p.1 p.2 hr hstep) hrest
      · cases h
    | inr a => exact ih (course.cluster a) h

/-- What holds when a world has undergone some things holds at the end of one of its courses. -/
theorem exists_of_play (w₀ : World α) (acts : List ((Rank × Happening α) ⊕ Cluster.Action))
    (p : (Rank → List (Scene α)) → World α → Prop) [∀ scenes w, Decidable (p scenes w)]
    (h : (w₀.play (fun _ => []) acts).any (fun q => decide (p q.1 q.2)) = true) :
    ∃ scenes w, w₀.Course scenes w ∧ p scenes w := by
  obtain ⟨q, hplay, hp⟩ := (Option.any_eq_true _ _).mp h
  exact ⟨q.1, q.2, Course.nil.play hplay, of_decide_eq_true hp⟩

end World

end

/-! ## What stays the same -/

/-- The buffer that a job receives or frees a copy of. -/
def Job.copy? : Job α → Option HandleId
  | .receive h _ _ | .evict h => some h
  | _ => none

/-- What is settled when a handle is made. -/
def Handle.label (e : Handle α) : Option Tag × Rank × Nat := (e.tag, e.owner, e.count)

namespace Node

/-- What is settled when a rank is set up. -/
def setting (n : Node α) : Rank × Nat × List (Option Tag × Rank × Nat) :=
  (n.rank, n.size, n.handles.map Handle.label)

variable {n n' : Node α} {h : HandleId}

theorem rank_of_setting (hn : n'.setting = n.setting) : n'.rank = n.rank := (Prod.mk.inj hn).1

theorem size_of_setting (hn : n'.setting = n.setting) : n'.size = n.size :=
  (Prod.mk.inj (Prod.mk.inj hn).2).1

theorem length_of_setting (hn : n'.setting = n.setting) :
    n'.handles.length = n.handles.length := by
  have := congrArg List.length (Prod.mk.inj (Prod.mk.inj hn).2).2
  rwa [List.length_map, List.length_map] at this

theorem label_of_setting (hn : n'.setting = n.setting) (h : HandleId) :
    (n'.handle h).label = (n.handle h).label := by
  have hmap := (Prod.mk.inj (Prod.mk.inj hn).2).2
  have hget : ∀ m : Node α, (m.handle h).label =
      ((m.handles.map Handle.label)[h]?).getD (default : Handle α).label := by
    intro m
    unfold handle
    rw [List.getD_eq_getElem?_getD, List.getElem?_map, Option.getD_map]
  rw [hget, hget, hmap]

theorem owner_of_setting (hn : n'.setting = n.setting) (h : HandleId) :
    (n'.handle h).owner = (n.handle h).owner :=
  (Prod.mk.inj (Prod.mk.inj (label_of_setting hn h)).2).1

theorem tag_of_setting (hn : n'.setting = n.setting) (h : HandleId) :
    (n'.handle h).tag = (n.handle h).tag :=
  (Prod.mk.inj (label_of_setting hn h)).1

theorem count_of_setting (hn : n'.setting = n.setting) (h : HandleId) :
    (n'.handle h).count = (n.handle h).count :=
  (Prod.mk.inj (Prod.mk.inj (label_of_setting hn h)).2).2

@[simp] theorem setting_post (n : Node α) (e : Event α) : (n.post e).setting = n.setting := by
  unfold setting
  rw [post_rank, post_size, post_handles]

theorem setting_setHandle {e : Handle α} (he : e.label = (n.handle h).label) :
    (n.setHandle h e).setting = n.setting := by
  show (n.rank, n.size, (n.handles.set h e).map Handle.label) = _
  have hsame : (n.handles.set h e).map Handle.label = n.handles.map Handle.label := by
    refine List.ext_getElem? fun i => ?_
    rw [List.getElem?_map, List.getElem?_map, List.getElem?_set]
    by_cases hi : h = i
    · subst hi
      rw [if_pos rfl]
      unfold handle at he
      rw [List.getD_eq_getElem?_getD] at he
      split
      · rename_i hh
        rw [List.getElem?_eq_getElem hh] at he ⊢
        exact congrArg some he
      · rename_i hh
        rw [List.getElem?_eq_none (Nat.le_of_not_lt hh)]
    · rw [if_neg hi]
  rw [hsame]
  rfl

theorem setting_markWritten (n : Node α) (uses : List (HandleId × Access)) :
    (n.markWritten uses).setting = n.setting := by
  induction uses generalizing n with
  | nil => rfl
  | cons u uses ih =>
    rw [markWritten, List.foldl_cons]
    split
    · exact (ih _).trans (setting_setHandle rfl)
    · exact ih n

theorem OnlyMemory.setting (hm : n.OnlyMemory n') : n'.setting = n.setting := by
  have hlabel : ∀ e e' : Handle α, e.bare = e'.bare → e.label = e'.label := by
    intro e e' he
    show e.bare.label = e'.bare.label
    rw [he]
  unfold Node.setting
  rw [hm.rank, hm.size]
  congr 2
  refine List.ext_getElem (by simpa using hm.length) ?_
  intro i hi hi'
  rw [List.length_map] at hi hi'
  rw [List.getElem_map, List.getElem_map]
  have hi := hm.bare i
  unfold handle at hi
  rw [List.getD_eq_getElem?_getD, List.getD_eq_getElem?_getD, List.getElem?_eq_getElem ‹_›,
    List.getElem?_eq_getElem ‹_›] at hi
  exact hlabel _ _ hi

/-! ## What calls leave for the scheduler -/

/-- The tasks that can be queued on a rank: only buffers of the rank itself are written and sent,
and only copies of other ranks' buffers are received and freed. -/
def May (n : Node α) (t : Task α) : Prop :=
  match t.job with
  | .compute op => t.uses = op.uses ∧ ∀ u ∈ op.uses, u.2.writes = true → (n.handle u.1).owner = n.rank
  | .send h _ _ => t.uses = [(h, .read)] ∧ (n.handle h).owner = n.rank
  | .receive h _ _ | .evict h => t.uses = [(h, .write)] ∧ (n.handle h).owner ≠ n.rank
  | .grant | .retire _ => True
  | .withdrawn => False

/-- What an accessor of a rank may do: it writes only buffers of the rank itself. -/
def Admits (n : Node α) (a : Accessor) : Prop :=
  a.access.writes = true → (n.handle a.handle).owner = n.rank

theorem May.of_setting {t : Task α} (ht : n.May t) (hn : n'.setting = n.setting) : n'.May t := by
  have hr := rank_of_setting hn
  have ho := owner_of_setting hn
  unfold May at ht ⊢
  simp only [hr, ho]
  exact ht

theorem Admits.of_setting {a : Accessor} (ha : n.Admits a) (hn : n'.setting = n.setting) :
    n'.Admits a := by
  intro hw
  rw [owner_of_setting hn, rank_of_setting hn]
  exact ha hw

/-- What a call queues, with what it changes beside buffers and barriers.  A task that makes or
frees a copy is queued as the rank begins or ceases to know of it. -/
inductive Books (n n' : Node α) : List (Event α) → Prop
  /-- The scheduler has stopped. -/
  | closed (dead : n.scheduler = none) : Books n n' []
  | nothing (nextTask : n'.nextTask = n.nextTask) (nextBarrier : n'.nextBarrier = n.nextBarrier)
      (accessors : n'.accessors = n.accessors) : Books n n' []
  | task (t : Task α) (id : t.id = n.nextTask) (may : n.May t)
      (nextTask : n'.nextTask = n.nextTask + 1) (nextBarrier : n'.nextBarrier = n.nextBarrier)
      (accessors : n'.accessors = n.accessors ∨
        ∃ a, t.job = .grant ∧ n.Admits a ∧ n'.accessors = n.accessors.put t.id a)
      (copies : ∀ h, t.job.copy? = some h →
        ((n.handle h).state = .remoteCached ↔ (n'.handle h).state ≠ .remoteCached)) :
      Books n n' [.submit t]
  | release (k : TaskId) (held : n.accessors.has k = true) (nextTask : n'.nextTask = n.nextTask)
      (nextBarrier : n'.nextBarrier = n.nextBarrier)
      (accessors : n'.accessors = n.accessors.erase k) : Books n n' [.complete k]
  | barrier (nextTask : n'.nextTask = n.nextTask) (nextBarrier : n'.nextBarrier = n.nextBarrier + 1)
      (accessors : n'.accessors = n.accessors) : Books n n' [.wait n.nextBarrier]

/-- What a call changes. -/
structure Calls (n n' : Node α) : Prop where
  setting : n'.setting = n.setting
  codelets : n'.codelets = n.codelets
  scheduler : n'.scheduler = n.scheduler
  work : n'.work = n.work
  arrivals : n'.arrivals = n.arrivals
  /-- What is poisoned stays so. -/
  poisoned : ∀ h, (n.handle h).memory = .poisoned → (n'.handle h).memory = .poisoned
  books : ∃ new, n'.events = n.events ++ new ∧ n.Books n' new

namespace Calls

variable {m : Node α}

/-- A call that changes nothing but buffers. -/
theorem of_onlyBuffers (hm : n.OnlyBuffers n') (hset : n'.setting = n.setting) : n.Calls n' := by
  refine ⟨hset, hm.codelets, hm.scheduler, hm.work, hm.arrivals, hm.poisoned, [], ?_,
    .nothing ?_ ?_ hm.accessors⟩
  · rw [hm.events, List.append_nil]
  · rw [hm.eq]
  · rw [hm.eq]

theorem refl (n : Node α) : n.Calls n := of_onlyBuffers (.refl n) rfl

theorem of_onlyMemory (hm : n.OnlyMemory n') : n.Calls n' :=
  of_onlyBuffers hm.toOnlyBuffers hm.setting

/-- A call queues a task after it has changed buffers. -/
theorem enqueue {name : String} {uses : List (HandleId × Access)} {job : Job α}
    (hm : n.OnlyBuffers m) (hset : m.setting = n.setting)
    (ht : n.May ⟨n.nextTask, name, uses, job⟩)
    (hc : ∀ h, job.copy? = some h →
      ((n.handle h).state = .remoteCached ↔ (m.handle h).state ≠ .remoteCached)) :
    n.Calls (m.enqueue name uses job).1 := by
  have hid : m.nextTask = n.nextTask := by rw [hm.eq]
  unfold Node.enqueue
  dsimp only
  split
  · rename_i hs
    have hpost : ({ m with nextTask := m.nextTask + 1 } : Node α).post
        (.submit ⟨m.nextTask, name, uses, job⟩) =
        { m with
          nextTask := m.nextTask + 1
          events := m.events ++ [.submit ⟨m.nextTask, name, uses, job⟩] } :=
      if_pos hs
    rw [hpost]
    refine ⟨hset, hm.codelets, hm.scheduler, hm.work, hm.arrivals, hm.poisoned,
      [.submit ⟨m.nextTask, name, uses, job⟩], ?_, .task _ hid ?_ ?_ ?_ (Or.inl hm.accessors) hc⟩
    · rw [← hm.events]
    · rw [hid]
      exact ht
    · rw [← hid]
    · show m.nextBarrier = n.nextBarrier
      rw [hm.eq]
  · rename_i hs
    rw [hm.scheduler] at hs
    refine ⟨hset, hm.codelets, hm.scheduler, hm.work, hm.arrivals, hm.poisoned, [], ?_, .closed ?_⟩
    · rw [List.append_nil]
      exact hm.events
    · exact Option.not_isSome_iff_eq_none.mp hs

end Calls

theorem writes_ne_scratch {a : Access} (ha : a.writes = true) : a ≠ .scratch := by
  rintro rfl
  cases ha

/-- What is written without an obstacle is the rank's own. -/
theorem owner_of_obstacle {a : Access} (h₀ : n.obstacle h a = none) (ha : a.writes = true) :
    (n.handle h).owner = n.rank :=
  (obstacle_eq_none h₀ (writes_ne_scratch ha)).resolve_right fun hc => hc.1 ha

/-- An operation that is not rejected writes buffers of the rank itself. -/
theorem owner_of_rejection {op : Op α} {device : Device} (h₀ : n.rejection op device = none) :
    ∀ u ∈ op.uses, u.2.writes = true → (n.handle u.1).owner = n.rank := by
  intro u hu hw
  unfold rejection at h₀
  split at h₀
  · cases h₀
  · split at h₀
    · have hall := List.findSome?_eq_none_iff.mp (Option.or_eq_none_iff.mp h₀).2
      exact owner_of_obstacle (hall u hu) hw
    · cases h₀

@[simp] theorem enqueue_handles (n : Node α) (name : String) (uses : List (HandleId × Access))
    (job : Job α) : (n.enqueue name uses job).1.handles = n.handles := by
  unfold enqueue
  dsimp only
  split
  · exact post_handles _ _
  · rfl

theorem calls_submitOn (n : Node α) (op : Op α) (device : Device) :
    n.Calls (n.submitOn op device).1 := by
  unfold submitOn
  split
  · exact .refl n
  · rename_i h₀
    exact .enqueue (onlyBuffers_markWritten n op.uses) (setting_markWritten n op.uses)
      ⟨rfl, owner_of_rejection h₀⟩ nofun

theorem calls_acquire (n : Node α) (h : HandleId) (a : Access) : n.Calls (n.acquire h a).1 := by
  unfold acquire
  split
  · exact .refl n
  · split
    · exact .refl n
    · rename_i h₀
      have hm := onlyBuffers_markWritten n [(h, a)]
      have hset := setting_markWritten n [(h, a)]
      have hcalls : n.Calls ((n.markWritten [(h, a)]).enqueue "acquire" [(h, a)] .grant).1 :=
        .enqueue hm hset trivial nofun
      split
      · rename_i m id hok
        obtain ⟨hs, rfl, rfl⟩ := enqueue_eq_ok hok
        have hid : (n.markWritten [(h, a)]).nextTask = n.nextTask := by rw [hm.eq]
        refine ⟨hset, hm.codelets, hm.scheduler, hm.work, hm.arrivals, hm.poisoned,
          [.submit ⟨_, "acquire", [(h, a)], .grant⟩], ?_, .task _ hid trivial ?_ ?_
          (Or.inr ⟨⟨h, a, .waiting⟩, rfl, owner_of_obstacle h₀, ?_⟩) nofun⟩
        · rw [← hm.events]
        · rw [← hid]
        · show (n.markWritten [(h, a)]).nextBarrier = n.nextBarrier
          rw [hm.eq]
        · show Table.put _ _ _ = _
          rw [hm.accessors]
      · rename_i m e hok
        rw [hok] at hcalls
        exact hcalls

theorem calls_release (n : Node α) {k : TaskId} (hk : n.accessors.has k = true) :
    n.Calls (n.release k) := by
  unfold release post
  dsimp only
  split
  · exact ⟨rfl, rfl, rfl, rfl, rfl, fun _ hp => hp, _, rfl, .release k hk rfl rfl rfl⟩
  · rename_i hs
    refine ⟨rfl, rfl, rfl, rfl, rfl, fun _ hp => hp, [], (List.append_nil _).symm, .closed ?_⟩
    exact Option.not_isSome_iff_eq_none.mp hs

theorem calls_wait (n : Node α) : n.Calls n.wait.1 := by
  unfold wait post
  split
  · rename_i hs
    dsimp only
    rw [if_pos hs]
    exact ⟨rfl, rfl, rfl, rfl, rfl, fun _ hp => hp, _, rfl, .barrier rfl rfl rfl⟩
  · exact .refl n

theorem calls_leave (n : Node α) (b : BarrierId) : n.Calls (n.leave b) :=
  ⟨rfl, rfl, rfl, rfl, rfl, fun _ hp => hp, [], (List.append_nil _).symm, .nothing rfl rfl rfl⟩

theorem handle_of_handles (hh : n'.handles = n.handles) (h : HandleId) :
    n'.handle h = n.handle h := by
  unfold handle
  rw [hh]

theorem state_of_bare {e e' : Handle α} (he : e'.bare = e.bare) : e'.state = e.state := by
  show e'.bare.state = e.bare.state
  rw [he]

theorem sent_of_bare {e e' : Handle α} (he : e'.bare = e.bare) : e'.sent = e.sent := by
  show e'.bare.sent = e.bare.sent
  rw [he]

theorem sent_markWritten (n : Node α) (uses : List (HandleId × Access)) (h : HandleId) :
    ((n.markWritten uses).handle h).sent = (n.handle h).sent := by
  induction uses generalizing n with
  | nil => rfl
  | cons u uses ih =>
    rw [Node.markWritten, List.foldl_cons]
    split
    · refine (ih _).trans ?_
      rw [handle_setHandle]
      split
      · rename_i hu
        rw [hu.1]
        rfl
      · rfl
    · exact ih n

/-- Only buffers that are written are marked as written. -/
theorem handle_markWritten_of_ne {uses : List (HandleId × Access)}
    (hw : ∀ u ∈ uses, u.2.writes = true → u.1 ≠ h) : (n.markWritten uses).handle h = n.handle h := by
  induction uses generalizing n with
  | nil => rfl
  | cons u uses ih =>
    rw [Node.markWritten, List.foldl_cons]
    have hrest := fun v hv => hw v (List.mem_cons_of_mem u hv)
    split
    · rename_i hu
      refine (ih hrest).trans ?_
      rw [handle_setHandle, if_neg fun hh => hw u List.mem_cons_self hu hh.1.symm]
    · exact ih hrest

@[simp] theorem enqueue_nextTask (n : Node α) (name : String) (uses : List (HandleId × Access))
    (job : Job α) : (n.enqueue name uses job).1.nextTask = n.nextTask + 1 := by
  unfold enqueue
  dsimp only
  split
  · exact post_nextTask _ _
  · rfl

theorem enqueue_events {name : String} {uses : List (HandleId × Access)} {job : Job α}
    (hn : n.scheduler.isSome) : (n.enqueue name uses job).1.events =
      n.events ++ [.submit ⟨n.nextTask, name, uses, job⟩] := by
  unfold enqueue
  dsimp only
  rw [if_pos hn]
  exact post_events _ _ hn

/-- Beyond the handles of a rank there is none with a tag. -/
theorem lt_of_tag {tag : Tag} (ht : (n.handle h).tag = some tag) : h < n.handles.length := by
  refine Nat.lt_of_not_le fun hle => ?_
  unfold handle at ht
  rw [List.getD_eq_getElem?_getD, List.getElem?_eq_none hle] at ht
  cases ht

theorem lt_of_cached (hs : (n.handle h).state = .remoteCached) : h < n.handles.length := by
  refine Nat.lt_of_not_le fun hle => ?_
  unfold handle at hs
  rw [List.getD_eq_getElem?_getD, List.getElem?_eq_none hle] at hs
  cases hs

theorem calls_transfer (n : Node α) (h : HandleId) (t : Rank) : n.Calls (n.transfer h t).1 := by
  unfold transfer
  dsimp only
  split
  · exact .refl n
  · split
    · exact .refl n
    · rename_i ho
      split
      · exact .refl n
      · rename_i tag htag
        split
        · rename_i hr
          split
          · exact .refl n
          · rename_i hvacant
            refine .enqueue ?_ ?_ ⟨rfl, fun h => ho (h.trans hr)⟩ ?_
            · exact onlyBuffers_setHandle fun hp => hp
            · exact setting_setHandle rfl
            · rintro j ⟨⟩
              rw [handle_setHandle, if_pos ⟨rfl, lt_of_tag htag⟩]
              exact iff_of_false hvacant fun hne => hne rfl
        · split
          · rename_i hr
            split
            · exact .refl n
            · rename_i e he
              have hmark : e.memory = (n.handle h).memory ∧ e.label = (n.handle h).label := by
                unfold Handle.markSent at he
                split at he
                · cases he
                · cases he
                  exact ⟨rfl, rfl⟩
              refine .enqueue ?_ ?_ ⟨rfl, hr.symm⟩ nofun
              · exact onlyBuffers_setHandle fun hp => hmark.1.trans hp
              · exact setting_setHandle hmark.2
          · exact .refl n

theorem flush_of_owner {e : Handle α} {r : Rank} (h : r = e.owner) : e.flush r =
    ({ e with sent := [], state := if e.state = .localValid then .globallyVisible else e.state },
      false) :=
  if_pos h

theorem flush_of_ne_owner {e : Handle α} {r : Rank} (h : r ≠ e.owner) :
    e.flush r = ({ e with state := .uninitialized }, e.state == .remoteCached) :=
  if_neg h

theorem calls_flush (n : Node α) (h : HandleId) : n.Calls (n.flush h).1 := by
  unfold Node.flush
  by_cases ho : n.rank = (n.handle h).owner
  · rw [flush_of_owner ho]
    exact .of_onlyBuffers (onlyBuffers_setHandle fun hp => hp) (setting_setHandle rfl)
  · rw [flush_of_ne_owner ho]
    have hm : n.OnlyBuffers (n.setHandle h { n.handle h with state := .uninitialized }) :=
      onlyBuffers_setHandle fun hp => hp
    split
    · rename_i he
      cases (Prod.mk.inj he).1
      exact .of_onlyBuffers hm (setting_setHandle rfl)
    · rename_i he
      cases (Prod.mk.inj he).1
      refine .enqueue hm (setting_setHandle rfl) ⟨rfl, Ne.symm ho⟩ ?_
      rintro j ⟨⟩
      have hs : (n.handle h).state = .remoteCached := beq_iff_eq.mp (Prod.mk.inj he).2
      rw [handle_setHandle, if_pos ⟨rfl, lt_of_cached hs⟩]
      exact iff_of_true hs nofun

theorem calls_retire (n : Node α) (hs : List HandleId) (tags : TagRange) :
    n.Calls (n.retire hs tags) :=
  .enqueue (.refl n) rfl trivial nofun

section

variable [Scalar α]

theorem onlyMemory_enterWrite {a : Accessor} {block : List α} (h : n.enterWrite a block = some n') :
    n.OnlyMemory n' := by
  unfold enterWrite enter at h
  split at h
  · rename_i m old hm
    have hopen : n.OnlyMemory m := by
      have := onlyMemory_openHandle n a.handle
      rwa [hm] at this
    unfold write at h
    split at h
    · cases h
      exact hopen.trans (onlyMemory_store m a.handle block)
    · cases h
  · cases h

/-- What a call does is one thing for all calls. -/
theorem calls_of_undergo {net net' : Cluster} {a : Happening α} (ha : a.isCall = true)
    (h : n.undergo net a = some (net', n')) : net' = net ∧ n.Calls n' := by
  cases a with
  | submit op device =>
    cases h
    exact ⟨rfl, calls_submitOn n op device⟩
  | acquire b a =>
    cases h
    exact ⟨rfl, calls_acquire n b a⟩
  | release k =>
    unfold undergo at h
    dsimp only at h
    split at h
    · rename_i hk
      cases h
      exact ⟨rfl, calls_release n hk⟩
    · cases h
  | look k =>
    obtain ⟨a, -, heq⟩ := Option.map_eq_some_iff.mp h
    cases heq
    exact ⟨rfl, .of_onlyMemory (onlyMemory_openHandle n a.handle)⟩
  | put k block =>
    obtain ⟨m, hm, heq⟩ := Option.map_eq_some_iff.mp h
    cases heq
    obtain ⟨a, -, hw⟩ := Option.bind_eq_some_iff.mp hm
    exact ⟨rfl, .of_onlyMemory (onlyMemory_enterWrite hw)⟩
  | wait =>
    cases h
    exact ⟨rfl, calls_wait n⟩
  | leave b =>
    cases h
    exact ⟨rfl, calls_leave n b⟩
  | transfer b t =>
    cases h
    exact ⟨rfl, calls_transfer n b t⟩
  | flush b =>
    cases h
    exact ⟨rfl, calls_flush n b⟩
  | retire hs tags =>
    cases h
    exact ⟨rfl, calls_retire n hs tags⟩
  | take => cases ha
  | work i => cases ha
  | arrive i => cases ha

/-! ## What calls do to buffers -/

/-- The rank is to receive a buffer when a transfer is called. -/
structure Asks (n : Node α) (h : HandleId) (t : Rank) (tag : Tag) : Prop where
  target : n.rank = t
  within : t < n.size
  foreign : (n.handle h).owner ≠ n.rank
  tagged : (n.handle h).tag = some tag
  vacant : (n.handle h).state ≠ .remoteCached

/-- The rank is to send a buffer when a transfer is called. -/
structure Sends (n : Node α) (h : HandleId) (t : Rank) (tag : Tag) : Prop where
  owned : (n.handle h).owner = n.rank
  within : t < n.size
  other : t ≠ n.rank
  tagged : (n.handle h).tag = some tag
  unsent : t ∉ (n.handle h).sent

/-- What a call does to the buffers of a rank. -/
inductive Edits (n : Node α) : Happening α → Node α → Prop
  | idle {a : Happening α} {n' : Node α} (flush : ∀ h, a ≠ .flush h)
      (transfer : ∀ h t tag, a = .transfer h t → ¬n.Asks h t tag ∧ ¬n.Sends h t tag)
      (handles : n'.handles = n.handles) : Edits n a n'
  | writes {a : Happening α} {n' : Node α} (uses : List (HandleId × Access))
      (own : ∀ u ∈ uses, u.2.writes = true → (n.handle u.1).owner = n.rank)
      (flush : ∀ h, a ≠ .flush h) (transfer : ∀ h t, a ≠ .transfer h t)
      (handles : n'.handles = (n.markWritten uses).handles) : Edits n a n'
  | opens (k : TaskId) (c : Accessor) (held : n.held k = some c) :
      Edits n (.look k) (n.openHandle c.handle).1
  | stores (k : TaskId) (c : Accessor) (block : List α) (held : n.held k = some c)
      (writes : c.access.writes = true) :
      Edits n (.put k block) ((n.openHandle c.handle).1.setHandle c.handle
        (((n.openHandle c.handle).1.handle c.handle).store block))
  | asks (h : HandleId) (t : Rank) (tag : Tag) (name : String) (asks : n.Asks h t tag) :
      Edits n (.transfer h t) ((n.setHandle h (n.handle h).markCached).enqueue name [(h, .write)]
        (.receive h (n.handle h).owner tag)).1
  | sends (h : HandleId) (t : Rank) (tag : Tag) (name : String) (sends : n.Sends h t tag) :
      Edits n (.transfer h t) ((n.setHandle h
        { n.handle h with sent := (n.handle h).sent ++ [t] }).enqueue name [(h, .read)]
          (.send h t tag)).1
  | forgets (h : HandleId)
      (nothing : (n.handle h).owner = n.rank ∨ (n.handle h).state ≠ .remoteCached) :
      Edits n (.flush h) (n.setHandle h ((n.handle h).flush n.rank).1)
  | drops (h : HandleId) (foreign : (n.handle h).owner ≠ n.rank)
      (held : (n.handle h).state = .remoteCached) :
      Edits n (.flush h) ((n.setHandle h { n.handle h with state := .uninitialized }).enqueue "evict"
        [(h, .write)] (.evict h)).1

/-- A call that is no line and leaves the buffers as they are. -/
theorem Edits.of_handles {a : Happening α} (ha : a.line? = none) (handles : n'.handles = n.handles) :
    n.Edits a n' := by
  refine .idle ?_ ?_ handles
  · rintro h rfl
    cases ha
  · rintro h t tag rfl
    cases ha

theorem edits_submitOn (n : Node α) (op : Op α) (device : Device) :
    n.Edits (.submit op device) (n.submitOn op device).1 := by
  unfold submitOn
  split
  · exact .of_handles rfl rfl
  · rename_i h₀
    exact .writes op.uses (owner_of_rejection h₀) nofun nofun (enqueue_handles _ _ _ _)

theorem edits_acquire (n : Node α) (h : HandleId) (a : Access) :
    n.Edits (.acquire h a) (n.acquire h a).1 := by
  unfold acquire
  split
  · exact .of_handles rfl rfl
  · split
    · exact .of_handles rfl rfl
    · rename_i h₀
      have hhandles := enqueue_handles (n.markWritten [(h, a)]) "acquire" [(h, a)] .grant
      have hown : ∀ u ∈ [(h, a)], u.2.writes = true → (n.handle u.1).owner = n.rank := by
        intro u hu hw
        obtain rfl := List.mem_singleton.mp hu
        exact owner_of_obstacle h₀ hw
      split
      · rename_i m id hok
        rw [hok] at hhandles
        exact .writes _ hown nofun nofun hhandles
      · rename_i m e hok
        rw [hok] at hhandles
        exact .writes _ hown nofun nofun hhandles

/-- What a transfer comes to. -/
inductive Transfers (n : Node α) (h : HandleId) (t : Rank) : Node α → Prop
  | skips (nothing : ∀ tag, ¬n.Asks h t tag ∧ ¬n.Sends h t tag) : Transfers n h t n
  | asks (tag : Tag) (name : String) (asks : n.Asks h t tag) :
      Transfers n h t ((n.setHandle h (n.handle h).markCached).enqueue name [(h, .write)]
        (.receive h (n.handle h).owner tag)).1
  | sends (tag : Tag) (name : String) (sends : n.Sends h t tag) :
      Transfers n h t ((n.setHandle h
        { n.handle h with sent := (n.handle h).sent ++ [t] }).enqueue name [(h, .read)]
          (.send h t tag)).1

omit [Scalar α] in
theorem transfers (n : Node α) (h : HandleId) (t : Rank) : n.Transfers h t (n.transfer h t).1 := by
  unfold transfer
  dsimp only
  split
  · rename_i hsize
    exact .skips fun tag => ⟨fun ha => Nat.not_lt.mpr hsize ha.within,
      fun hs => Nat.not_lt.mpr hsize hs.within⟩
  · rename_i hsize
    split
    · rename_i ho
      exact .skips fun tag => ⟨fun ha => ha.foreign (ho.trans ha.target.symm),
        fun hs => hs.other (ho.symm.trans hs.owned)⟩
    · rename_i ho
      split
      · rename_i htag
        exact .skips fun tag => ⟨fun ha => (nomatch htag.symm.trans ha.tagged),
          fun hs => (nomatch htag.symm.trans hs.tagged)⟩
      · rename_i tag htag
        split
        · rename_i hr
          split
          · rename_i hcached
            exact .skips fun tag => ⟨fun ha => ha.vacant hcached, fun hs => hs.other hr.symm⟩
          · rename_i hvacant
            exact .asks tag _ ⟨hr, Nat.lt_of_not_le hsize, fun h => ho (h.trans hr), htag, hvacant⟩
        · rename_i hr
          split
          · rename_i hro
            by_cases hmem : t ∈ (n.handle h).sent
            · rw [Handle.markSent, if_pos hmem]
              exact .skips fun tag => ⟨fun ha => hr ha.target, fun hs => hs.unsent hmem⟩
            · rw [Handle.markSent, if_neg hmem]
              exact .sends tag _ ⟨hro.symm, Nat.lt_of_not_le hsize, Ne.symm hr, htag, hmem⟩
          · rename_i hro
            exact .skips fun tag => ⟨fun ha => hr ha.target, fun hs => hro hs.owned.symm⟩

theorem edits_transfer (n : Node α) (h : HandleId) (t : Rank) :
    n.Edits (.transfer h t) (n.transfer h t).1 := by
  have ht := transfers n h t
  generalize (n.transfer h t).1 = n' at ht
  cases ht with
  | skips nothing =>
    refine .idle nofun ?_ rfl
    rintro k u tag ⟨⟩
    exact nothing tag
  | asks tag name asks => exact .asks h t tag name asks
  | sends tag name sends => exact .sends h t tag name sends

theorem edits_flush (n : Node α) (h : HandleId) : n.Edits (.flush h) (n.flush h).1 := by
  have hforgets : (n.handle h).owner = n.rank ∨ (n.handle h).state ≠ .remoteCached →
      n.Edits (.flush h) (n.setHandle h ((n.handle h).flush n.rank).1) := .forgets h
  unfold Node.flush
  by_cases ho : n.rank = (n.handle h).owner
  · rw [flush_of_owner ho] at hforgets ⊢
    exact hforgets (Or.inl ho.symm)
  · rw [flush_of_ne_owner ho] at hforgets ⊢
    by_cases hs : (n.handle h).state = .remoteCached
    · rw [beq_iff_eq.mpr hs]
      exact .drops h (Ne.symm ho) hs
    · rw [beq_eq_false_iff_ne.mpr hs]
      exact hforgets (Or.inr hs)

omit [Scalar α] in
theorem handle_transfer_of_ne (n : Node α) {k : HandleId} (t : Rank) (hk : k ≠ h) :
    (n.transfer k t).1.handle h = n.handle h := by
  have ht := transfers n k t
  generalize (n.transfer k t).1 = n' at ht
  cases ht with
  | skips nothing => rfl
  | asks tag name asks =>
    rw [handle_of_handles (enqueue_handles _ _ _ _), handle_setHandle, if_neg fun hc => hk hc.1.symm]
  | sends tag name sends =>
    rw [handle_of_handles (enqueue_handles _ _ _ _), handle_setHandle, if_neg fun hc => hk hc.1.symm]

omit [Scalar α] in
/-- A transfer leaves what is known of every buffer as it is, or it notes that the copy is to
come. -/
theorem state_transfer (n : Node α) (k h : HandleId) (t : Rank) :
    ((n.transfer k t).1.handle h).state = (n.handle h).state ∨
      ((n.transfer k t).1.handle h).state = .remoteCached := by
  by_cases hk : k = h
  · subst hk
    have ht := transfers n k t
    generalize (n.transfer k t).1 = n' at ht
    cases ht with
    | skips nothing => exact Or.inl rfl
    | asks tag name asks =>
      rw [handle_of_handles (enqueue_handles _ _ _ _), handle_setHandle]
      split
      · exact Or.inr rfl
      · exact Or.inl rfl
    | sends tag name sends =>
      rw [handle_of_handles (enqueue_handles _ _ _ _), handle_setHandle]
      split <;> exact Or.inl rfl
  · exact Or.inl (congrArg Handle.state (handle_transfer_of_ne n t hk))

omit [Scalar α] in
/-- A transfer leaves to whom every buffer has been sent as it is, or the owner notes the target. -/
theorem sent_transfer (n : Node α) (k h : HandleId) (t : Rank) :
    ((n.transfer k t).1.handle h).sent = (n.handle h).sent ∨
      (n.handle h).owner = n.rank ∧ t ≠ n.rank ∧
        ((n.transfer k t).1.handle h).sent = (n.handle h).sent ++ [t] := by
  by_cases hk : k = h
  · subst hk
    have ht := transfers n k t
    generalize (n.transfer k t).1 = n' at ht
    cases ht with
    | skips nothing => exact Or.inl rfl
    | asks tag name asks =>
      rw [handle_of_handles (enqueue_handles _ _ _ _), handle_setHandle]
      split <;> exact Or.inl rfl
    | sends tag name sends =>
      rw [handle_of_handles (enqueue_handles _ _ _ _), handle_setHandle]
      split
      · exact Or.inr ⟨sends.owned, sends.other, rfl⟩
      · exact Or.inl rfl
  · exact Or.inl (congrArg Handle.sent (handle_transfer_of_ne n t hk))

omit [Scalar α] in
theorem handle_flush (n : Node α) (k h : HandleId) : (n.flush k).1.handle h =
    (n.setHandle k ((n.handle k).flush n.rank).1).handle h := by
  unfold Node.flush
  split
  · rename_i e he
    rw [he]
  · rename_i e he
    rw [he]
    exact handle_of_handles (enqueue_handles _ _ _ _) h

omit [Scalar α] in
theorem handle_flush_of_ne (n : Node α) {k : HandleId} (hk : k ≠ h) :
    (n.flush k).1.handle h = n.handle h := by
  rw [handle_flush, handle_setHandle, if_neg fun hc => hk hc.1.symm]

omit [Scalar α] in
/-- The owner of a buffer forgets by a flush to whom it has sent it. -/
theorem sent_flush (owned : (n.handle h).owner = n.rank) (hh : h < n.handles.length) :
    ((n.flush h).1.handle h).sent = [] := by
  rw [handle_flush, handle_setHandle, if_pos ⟨rfl, hh⟩, flush_of_owner owned.symm]

omit [Scalar α] in
/-- Another rank forgets by a flush that it has a copy. -/
theorem state_flush (foreign : (n.handle h).owner ≠ n.rank) (hh : h < n.handles.length) :
    ((n.flush h).1.handle h).state = .uninitialized := by
  rw [handle_flush, handle_setHandle, if_pos ⟨rfl, hh⟩, flush_of_ne_owner foreign.symm]

theorem edits_put {n' : Node α} {k : TaskId} {c : Accessor} {block : List α}
    (hk : n.held k = some c) (h : n.enterWrite c block = some n') : n.Edits (.put k block) n' := by
  unfold enterWrite enter at h
  split at h
  · rename_i m old hm
    obtain rfl : m = (n.openHandle c.handle).1 := by rw [hm]
    unfold write at h
    split at h
    · rename_i hw
      cases h
      exact .stores k c block hk hw
    · cases h
  · cases h

/-- What a call does to buffers is one of few things for all calls. -/
theorem edits_of_undergo {net net' : Cluster} {a : Happening α} (ha : a.isCall = true)
    (h : n.undergo net a = some (net', n')) : n.Edits a n' := by
  cases a with
  | submit op device =>
    cases h
    exact edits_submitOn n op device
  | acquire b a =>
    cases h
    exact edits_acquire n b a
  | release k =>
    unfold undergo at h
    dsimp only at h
    split at h
    · cases h
      exact .of_handles rfl (post_handles _ _)
    · cases h
  | look k =>
    obtain ⟨c, hc, heq⟩ := Option.map_eq_some_iff.mp h
    cases heq
    exact .opens k c hc
  | put k block =>
    obtain ⟨m, hm, heq⟩ := Option.map_eq_some_iff.mp h
    cases heq
    obtain ⟨c, hc, hw⟩ := Option.bind_eq_some_iff.mp hm
    exact edits_put hc hw
  | wait =>
    cases h
    refine .of_handles rfl ?_
    unfold wait
    split
    · exact post_handles _ _
    · rfl
  | leave b =>
    cases h
    exact .of_handles rfl rfl
  | transfer b t =>
    cases h
    exact edits_transfer n b t
  | flush b =>
    cases h
    exact edits_flush n b
  | retire hs tags =>
    cases h
    exact .of_handles rfl (enqueue_handles _ _ _ _)
  | take => cases ha
  | work i => cases ha
  | arrive i => cases ha

/-- A call that is no transfer and no flush changes neither to whom a buffer has been sent nor what
is known of another rank's buffer. -/
theorem Edits.marks {a : Happening α} (he : n.Edits a n') (ha : a.line? = none) :
    (n'.handle h).sent = (n.handle h).sent ∧
      ((n.handle h).owner ≠ n.rank → (n'.handle h).state = (n.handle h).state) := by
  have hbare : ∀ {m : Node α}, n.OnlyMemory m → (m.handle h).sent = (n.handle h).sent ∧
      ((n.handle h).owner ≠ n.rank → (m.handle h).state = (n.handle h).state) :=
    fun hm => ⟨sent_of_bare (hm.bare h), fun _ => state_of_bare (hm.bare h)⟩
  cases he with
  | idle flush transfer handles =>
    rw [handle_of_handles handles]
    exact ⟨rfl, fun _ => rfl⟩
  | writes uses own flush transfer handles =>
    rw [handle_of_handles handles]
    refine ⟨sent_markWritten n uses h, fun hf => ?_⟩
    rw [handle_markWritten_of_ne]
    exact fun u hu hw heq => hf (heq ▸ own u hu hw)
  | opens k c held => exact hbare (onlyMemory_openHandle n c.handle)
  | stores k c block held writes =>
    exact hbare ((onlyMemory_openHandle n c.handle).trans (onlyMemory_store _ c.handle block))
  | asks h t tag name asks => cases ha
  | sends h t tag name sends => cases ha
  | forgets h nothing => cases ha
  | drops h foreign held => cases ha

end

end Node

end TiledTensor
