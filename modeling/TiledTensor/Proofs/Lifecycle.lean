import TiledTensor.Node.Progress
import TiledTensor.Proofs.Completion

/-!
# The life of a task

A rank numbers its tasks in the order of submission.  The *log* of a rank lists all of them, and a
task is *done* once everything that it does to memory and to messages has happened.  In between it
waits in the queue of events, then in the scheduler for earlier conflicting tasks, and then it is
*active*: its computation is ready, its receive is on its way, or its accessor is granted.

`Node.Sound` is what holds of the log at all times: a task that is active or done comes after every
earlier task that it conflicts with, and all of those are done.  `Node.Running` ties the log to the
graph, the queue and the waiting tasks of a scheduler that has not stopped; `todo` lists the tasks
that the scheduler has taken out of the graph's waiting ones but has not started yet.
-/

namespace TiledTensor

variable {α : Type}

/-! ## The log -/

/-- Task `j` was submitted before task `k` and conflicts with it. -/
def Precedes (log : List (Task α)) (j k : TaskId) : Prop :=
  ∃ s t, log[j]? = some s ∧ log[k]? = some t ∧ j < k ∧ Conflict s.uses t.uses

theorem lt_of_getElem?_eq_some {β : Type} {l : List β} {i : Nat} {x : β} (h : l[i]? = some x) :
    i < l.length :=
  (List.getElem?_eq_some_iff.mp h).1

/-- What a longer list holds at a place is in the list already, or is the new element. -/
theorem getElem?_append_singleton_eq_some {β : Type} {l : List β} {x y : β} {i : Nat}
    (h : (l ++ [x])[i]? = some y) : l[i]? = some y ∨ (i = l.length ∧ x = y) := by
  rcases Nat.lt_trichotomy i l.length with hi | rfl | hi
  · rw [List.getElem?_append_left hi] at h
    exact Or.inl h
  · rw [List.getElem?_concat_length, Option.some.injEq] at h
    exact Or.inr ⟨rfl, h⟩
  · have := lt_of_getElem?_eq_some h
    rw [List.length_append, List.length_singleton] at this
    exact absurd hi (Nat.not_lt_of_le (Nat.le_of_lt_succ this))

/-- A later task changes nothing about the order of earlier ones. -/
theorem precedes_append {log : List (Task α)} {t : Task α} {j k : TaskId} (hk : k < log.length) :
    Precedes (log ++ [t]) j k ↔ Precedes log j k := by
  constructor
  · rintro ⟨s, u, hs, hu, hjk, hc⟩
    rw [List.getElem?_append_left (Nat.lt_trans hjk hk)] at hs
    rw [List.getElem?_append_left hk] at hu
    exact ⟨s, u, hs, hu, hjk, hc⟩
  · rintro ⟨s, u, hs, hu, hjk, hc⟩
    refine ⟨s, u, ?_, ?_, hjk, hc⟩
    · rwa [List.getElem?_append_left (Nat.lt_trans hjk hk)]
    · rwa [List.getElem?_append_left hk]

/-- The accesses of a task are those of its job, and none is to scratch memory. -/
def Task.Proper (t : Task α) : Prop :=
  (∀ u ∈ t.uses, u.2 ≠ .scratch) ∧
    match t.job with
    | .compute op => t.uses = op.uses
    | .send h _ _ => t.uses = [(h, .read)]
    | .receive h _ _ | .evict h => t.uses = [(h, .write)]
    | .grant => ∃ h a, t.uses = [(h, a)]
    | .retire _ | .withdrawn => False

/-! ## The queue -/

/-- The task that an event reports the end of. -/
def Event.ended? : Event α → Option TaskId
  | .complete id | .fail id _ => some id
  | .submit _ | .wait _ => none

/-- The events that wait submit exactly the given tasks, in order, and report the end of a task only
after its submission; the tasks below `m` have been submitted before. -/
def Queued : Nat → List (Task α) → List (Event α) → Prop
  | _, rest, [] => rest = []
  | m, rest, .submit t :: events => ∃ rest', rest = t :: rest' ∧ Queued (m + 1) rest' events
  | m, rest, .complete k :: events => k < m ∧ Queued m rest events
  | m, rest, .fail k _ :: events => k < m ∧ Queued m rest events
  | m, rest, .wait _ :: events => Queued m rest events

theorem Queued.submit {m : Nat} {rest : List (Task α)} {events : List (Event α)}
    (h : Queued m rest events) (t : Task α) : Queued m (rest ++ [t]) (events ++ [.submit t]) := by
  induction events generalizing m rest with
  | nil =>
    obtain rfl : rest = [] := h
    exact ⟨[], rfl, rfl⟩
  | cons e events ih =>
    cases e with
    | submit u =>
      obtain ⟨rest', rfl, h⟩ := h
      exact ⟨rest' ++ [t], rfl, ih h⟩
    | complete k => exact ⟨h.1, ih h.2⟩
    | fail k e => exact ⟨h.1, ih h.2⟩
    | wait b => exact @ih m rest h

/-- Where no submission waits, no task does. -/
theorem Queued.eq_nil {m : Nat} {rest : List (Task α)} {events : List (Event α)}
    (h : Queued m rest events) (hn : ∀ t, .submit t ∉ events) : rest = [] := by
  induction events with
  | nil => exact h
  | cons e events ih =>
    have hrest := fun t ht => hn t (List.mem_cons_of_mem _ ht)
    cases e with
    | submit t => exact absurd List.mem_cons_self (hn t)
    | complete k => exact ih h.2 hrest
    | fail k e => exact ih h.2 hrest
    | wait b => exact ih h hrest

theorem Queued.reports {m k : Nat} {rest : List (Task α)} {events more : List (Event α)}
    (h : Queued m rest events) (hk : k < m + rest.length) (hmore : ∀ e ∈ more, e.ended? = some k) :
    Queued m rest (events ++ more) := by
  induction events generalizing m rest with
  | nil =>
    obtain rfl : rest = [] := h
    induction more with
    | nil => rfl
    | cons e more ih =>
      have he := hmore e List.mem_cons_self
      have hrest := ih fun e he => hmore e (List.mem_cons_of_mem _ he)
      cases e with
      | submit u => cases he
      | complete i =>
        obtain rfl : i = k := Option.some.inj he
        exact ⟨hk, hrest⟩
      | fail i f =>
        obtain rfl : i = k := Option.some.inj he
        exact ⟨hk, hrest⟩
      | wait b => cases he
  | cons e events ih =>
    cases e with
    | submit u =>
      obtain ⟨rest', rfl, h⟩ := h
      exact ⟨rest', rfl, ih h (by simp only [List.length_cons] at hk; omega)⟩
    | complete i => exact ⟨h.1, ih h.2 hk⟩
    | fail i f => exact ⟨h.1, ih h.2 hk⟩
    | wait b => exact @ih m rest h hk

namespace Node

variable {n n' : Node α} {log : List (Task α)} {done : TaskId → Prop} {k : TaskId}

/-! ## Active tasks -/

/-- The computation of the task is ready, its receive is on its way, or its accessor is granted. -/
def Active (n : Node α) (k : TaskId) : Prop :=
  (∃ w ∈ n.work, w.id = k) ∨ (∃ a ∈ n.arrivals, a.id = k) ∨
    ∃ a, n.accessors.find? k = some a ∧ a.phase = .granted

/-- A receive that has ended without an event, since its buffer cannot be opened. -/
def Lost (n : Node α) (log : List (Task α)) (k : TaskId) : Prop :=
  ∃ t h src tag, log[k]? = some t ∧ t.job = .receive h src tag ∧ (n.handle h).memory = .poisoned

/-- What a rank may rely on about its log, whether or not its scheduler has stopped. -/
structure Sound (n : Node α) (log : List (Task α)) (done : TaskId → Prop) : Prop where
  next : n.nextTask = log.length
  proper : ∀ (k : TaskId) (t : Task α), log[k]? = some t → t.id = k ∧ t.Proper
  lt : ∀ k, done k → k < log.length
  /-- Nothing is done before the earlier tasks that it conflicts with. -/
  closed : ∀ j k, Precedes log j k → done k → done j
  /-- Nothing is active before the earlier tasks that it conflicts with are done. -/
  first : ∀ j k, Precedes log j k → n.Active k → done j
  undone : ∀ k, n.Active k → ¬done k
  work : ∀ w ∈ n.work, ∃ t, log[w.id]? = some t ∧ t.job = .compute w.op
  arrivals : ∀ a ∈ n.arrivals, ∃ t src tag, log[a.id]? = some t ∧ t.job = .receive a.handle src tag
  accessors : ∀ k a, n.accessors.find? k = some a →
    ∃ t, log[k]? = some t ∧ t.job = .grant ∧ t.uses = [(a.handle, a.access)]
  work_nodup : (n.work.map (·.id)).Nodup
  arrivals_nodup : (n.arrivals.map (·.id)).Nodup

/-- What the scheduler keeps of a task of the log: the task, or nothing to do if its accessor has
been given up. -/
def Plan (n : Node α) (log : List (Task α)) (t : Task α) : Prop :=
  ∃ u, log[t.id]? = some u ∧ (t = u ∨
    (u.job = .grant ∧ n.accessors.find? t.id = none ∧ t = { u with job := .withdrawn }))

/-- How the log stands to the scheduler: the first `m` tasks have been taken, and those of them in
the roster have not been reported as finished. -/
structure Running (n : Node α) (s : Scheduler α) (log : List (Task α)) (done : TaskId → Prop)
    (todo : List (Task α)) (m : Nat) (roster : Roster) : Prop where
  tracks : s.graph.Tracks roster
  sorted : (roster.map (·.1)).Pairwise (· < ·)
  entries : ∀ e ∈ roster, e.1 < m ∧ ∃ t, log[e.1]? = some t ∧ t.uses = e.2
  gone : ∀ k < m, k ∉ roster.map (·.1) → done k
  taken : m ≤ log.length
  queued : Queued m (log.drop m) n.events
  reported : ∀ k ∈ n.events.filterMap Event.ended?, done k ∨
    ((∃ t, log[k]? = some t ∧ t.job = .grant) ∧ n.accessors.find? k = none)
  announced : ∀ e ∈ roster, done e.1 → e.1 ∈ n.events.filterMap Event.ended?
  parked : ∀ k t, s.pending.find? k = some t → t.id = k ∧ 0 < s.graph.waitingOf k ∧ n.Plan log t
  waiting : ∀ e ∈ roster, 0 < s.graph.waitingOf e.1 →
    e.1 ∈ s.pending.keys ∧ ¬done e.1 ∧ ¬n.Active e.1
  fresh : ∀ k, m ≤ k → ¬done k ∧ ¬n.Active k
  todo_sorted : (todo.map (·.id)).Pairwise (· < ·)
  starting : ∀ t ∈ todo, t.id ∈ roster.map (·.1) ∧ s.graph.waitingOf t.id = 0 ∧ ¬done t.id ∧
    ¬n.Active t.id ∧ n.Plan log t
  ready : ∀ e ∈ roster, s.graph.waitingOf e.1 = 0 →
    done e.1 ∨ n.Active e.1 ∨ e.1 ∈ todo.map (·.id) ∨ n.Lost log e.1

/-- The log accounts for everything on the rank. -/
structure Orderly (n : Node α) (log : List (Task α)) (done : TaskId → Prop)
    (todo : List (Task α)) : Prop where
  sound : n.Sound log done
  running : ∀ s, n.scheduler = some s → ∃ m roster, n.Running s log done todo m roster

/-! ## What follows at once -/

namespace Sound

/-- What a rank may rely on does not depend on its buffers, its queue or its scheduler. -/
theorem congr (hs : n.Sound log done) (hnext : n'.nextTask = n.nextTask) (hw : n'.work = n.work)
    (ha : n'.arrivals = n.arrivals) (hc : n'.accessors = n.accessors) : n'.Sound log done := by
  have hactive : ∀ k, n'.Active k → n.Active k := by
    intro k hk
    rwa [Active, hw, ha, hc] at hk
  refine ⟨hnext.trans hs.next, hs.proper, hs.lt, hs.closed, fun j k hp hk => ?_, fun k hk => ?_,
    hw ▸ hs.work, ha ▸ hs.arrivals, hc ▸ hs.accessors, hw ▸ hs.work_nodup, ha ▸ hs.arrivals_nodup⟩
  · exact hs.first j k hp (hactive k hk)
  · exact hs.undone k (hactive k hk)

theorem lt_of_active (hs : n.Sound log done) (hk : n.Active k) : k < log.length := by
  rcases hk with ⟨w, hw, rfl⟩ | ⟨a, ha, rfl⟩ | ⟨a, ha, -⟩
  · obtain ⟨t, ht, -⟩ := hs.work w hw
    exact lt_of_getElem?_eq_some ht
  · obtain ⟨t, src, tag, ht, -⟩ := hs.arrivals a ha
    exact lt_of_getElem?_eq_some ht
  · obtain ⟨t, ht, -⟩ := hs.accessors k a ha
    exact lt_of_getElem?_eq_some ht

/-- A computation is active only while it is ready. -/
theorem not_active_of_compute (hs : n.Sound log done) {t : Task α} (ht : log[k]? = some t)
    {op : Op α} (hj : t.job = .compute op) (hw : ∀ w ∈ n.work, w.id ≠ k) : ¬n.Active k := by
  rintro (⟨w, hw', rfl⟩ | ⟨a, ha, rfl⟩ | ⟨a, ha, -⟩)
  · exact hw w hw' rfl
  · obtain ⟨u, src, tag, hu, hju⟩ := hs.arrivals a ha
    rw [← Option.some.inj (ht.symm.trans hu), hj] at hju
    cases hju
  · obtain ⟨u, hu, hju, -⟩ := hs.accessors k a ha
    rw [← Option.some.inj (ht.symm.trans hu), hj] at hju
    cases hju

/-- A receive is active only while it is on its way. -/
theorem not_active_of_receive (hs : n.Sound log done) {t : Task α} (ht : log[k]? = some t)
    {h : HandleId} {src : Rank} {tag : Tag} (hj : t.job = .receive h src tag)
    (ha : ∀ a ∈ n.arrivals, a.id ≠ k) : ¬n.Active k := by
  rintro (⟨w, hw, rfl⟩ | ⟨a, ha', rfl⟩ | ⟨a, ha', -⟩)
  · obtain ⟨u, hu, hju⟩ := hs.work w hw
    rw [← Option.some.inj (ht.symm.trans hu), hj] at hju
    cases hju
  · exact ha a ha' rfl
  · obtain ⟨u, hu, hju, -⟩ := hs.accessors k a ha'
    rw [← Option.some.inj (ht.symm.trans hu), hj] at hju
    cases hju

/-- A task with a grant to give is active only through its accessor. -/
theorem not_active_of_grant (hs : n.Sound log done) {t : Task α} (ht : log[k]? = some t)
    (hj : t.job = .grant) (hv : ∀ a, n.accessors.find? k = some a → a.phase ≠ .granted) :
    ¬n.Active k := by
  rintro (⟨w, hw, rfl⟩ | ⟨a, ha, rfl⟩ | ⟨a, ha, hg⟩)
  · obtain ⟨u, hu, hju⟩ := hs.work w hw
    rw [← Option.some.inj (ht.symm.trans hu), hj] at hju
    cases hju
  · obtain ⟨u, src, tag, hu, hju⟩ := hs.arrivals a ha
    rw [← Option.some.inj (ht.symm.trans hu), hj] at hju
    cases hju
  · exact hv a ha hg

end Sound

namespace Running

variable {s : Scheduler α} {todo : List (Task α)} {m : Nat} {roster : Roster}

/-- An active task has been taken and waits for none. -/
theorem entry_of_active (hr : n.Running s log done todo m roster) (hs : n.Sound log done)
    (hk : n.Active k) : ∃ e ∈ roster, e.1 = k ∧ s.graph.waitingOf k = 0 := by
  have hkm : k < m := Nat.lt_of_not_le fun h => (hr.fresh k h).2 hk
  have hmem : k ∈ roster.map (·.1) := Decidable.byContradiction fun h =>
    hs.undone k hk (hr.gone k hkm h)
  obtain ⟨e, he, rfl⟩ := List.mem_map.mp hmem
  refine ⟨e, he, rfl, Nat.eq_zero_of_not_pos fun hw => ?_⟩
  exact (hr.waiting e he hw).2.2 hk

/-- The scheduler keeps a task only while it waits in the graph. -/
theorem entry_of_parked (hr : n.Running s log done todo m roster) {t : Task α}
    (ht : s.pending.find? k = some t) : ∃ e ∈ roster, e.1 = k ∧ 0 < s.graph.waitingOf k := by
  obtain ⟨-, hw, -⟩ := hr.parked k t ht
  have hk : k ∈ s.graph.nodes.keys := Decidable.byContradiction fun h => by
    rw [TaskGraph.waitingOf, Table.find?_eq_none_iff.mpr h] at hw
    exact Nat.lt_irrefl 0 hw
  obtain ⟨e, he, rfl⟩ := hr.tracks.mem_ids_iff.mp hk
  exact ⟨e, he, rfl, hw⟩

/-- The roster stands in the order of the log. -/
theorem before_of_lt (hr : n.Running s log done todo m roster)
    {x y : TaskId × List (HandleId × Access)} (hx : x ∈ roster) (hy : y ∈ roster)
    (h : x.1 < y.1) : Before roster x y := by
  rcases Before.total hx hy with rfl | hxy | hyx
  · exact absurd h (Nat.lt_irrefl _)
  · exact hxy
  · exact absurd (hyx.rel (List.pairwise_map.mp hr.sorted)) (Nat.lt_asymm h)

/-- All earlier tasks that a task conflicts with are done, once the task waits for none. -/
theorem done_of_precedes (hr : n.Running s log done todo m roster)
    {e : TaskId × List (HandleId × Access)} (he : e ∈ roster) (hw : s.graph.waitingOf e.1 = 0)
    {j : TaskId} (hp : Precedes log j e.1) : done j := by
  obtain ⟨u, t, hu, ht, hj, hc⟩ := hp
  obtain ⟨hem, t', ht', huses⟩ := hr.entries e he
  obtain rfl : t = t' := Option.some.inj (ht.symm.trans ht')
  refine hr.gone j (Nat.lt_trans hj hem) fun hmem => ?_
  obtain ⟨x, hx, rfl⟩ := List.mem_map.mp hmem
  obtain ⟨-, u', hu', huses'⟩ := hr.entries x hx
  obtain rfl : u = u' := Option.some.inj (hu.symm.trans hu')
  exact (hr.tracks.waitingOf_eq_zero_iff he).mp hw x (hr.before_of_lt hx he hj)
    (huses' ▸ huses ▸ hc)

/-- A task that waits for none has no earlier task of the same uses that waits. -/
theorem waitingOf_of_same_uses (hr : n.Running s log done todo m roster)
    {x y : TaskId × List (HandleId × Access)} (hx : x ∈ roster) (hy : y ∈ roster)
    (hxy : x.1 < y.1) (huses : x.2 = y.2) (hw : s.graph.waitingOf y.1 = 0) :
    s.graph.waitingOf x.1 = 0 := by
  rw [hr.tracks.waitingOf_eq_zero_iff hx]
  intro z hz
  have hlt : z.1 < x.1 :=
    hz.rel (r := fun x y : TaskId × List (HandleId × Access) => x.1 < y.1)
      (List.pairwise_map.mp hr.sorted)
  rw [huses]
  exact (hr.tracks.waitingOf_eq_zero_iff hy).mp hw z
    (hr.before_of_lt hz.mem_left hy (Nat.lt_trans hlt hxy))

end Running

end Node

end TiledTensor
