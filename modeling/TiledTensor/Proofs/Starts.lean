import TiledTensor.Proofs.Steps

/-!
# Starting tasks

The scheduler takes an event and starts, one after the other, the tasks whose turn has come.  What
starting one task does to the log is said job by job.  `Node.startAll_induction` and
`Node.takeEvent_induction` then carry any property along that is kept by each start; if the
scheduler has to stop in between, the tasks that are left are never started.
-/

namespace TiledTensor

namespace Node

variable {α : Type} {n n' : Node α} {log : List (Task α)} {done : TaskId → Prop}
  {todo : List (Task α)} {t : Task α} {s : Scheduler α}

/-! ## The next task to start -/

namespace Orderly

/-- The next task to start comes from the log, and its turn has come. -/
theorem next (ho : n.Orderly log done (t :: todo)) (hs : n.scheduler = some s) :
    n.Plan log t ∧ ¬done t.id ∧ ¬n.Active t.id ∧ ∀ j, Precedes log j t.id → done j := by
  obtain ⟨m, roster, hr⟩ := ho.running s hs
  obtain ⟨hmem, hw, hd, ha, hplan⟩ := hr.starting t List.mem_cons_self
  refine ⟨hplan, hd, ha, ?_⟩
  obtain ⟨e, he, hid⟩ := List.mem_map.mp hmem
  intro j hj
  exact hr.done_of_precedes he (hid ▸ hw) (hid ▸ hj)

/-- The next task is the one of the log unless it is withdrawn. -/
theorem next_eq (ho : n.Orderly log done (t :: todo)) (hs : n.scheduler = some s)
    (hj : ∀ u : Task α, t ≠ { u with job := .withdrawn }) : log[t.id]? = some t := by
  obtain ⟨⟨u, hu, rfl | ⟨-, -, h⟩⟩, -⟩ := ho.next hs
  · exact hu
  · exact absurd h (hj u)

/-- Messages are sent in the order in which they were asked for: when a task is the next to start,
every earlier send with the same uses is done. -/
theorem done_of_earlier_send (ho : n.Orderly log done (t :: todo)) (hs : n.scheduler = some s)
    {j : TaskId} {u v : Task α} {h : HandleId} {dst : Rank} {tag : Tag} (hu : log[j]? = some u)
    (hv : log[t.id]? = some v) (hj : j < t.id) (huses : u.uses = v.uses)
    (hjob : u.job = .send h dst tag) : done j := by
  obtain ⟨m, roster, hr⟩ := ho.running s hs
  obtain ⟨hmem, hw, -, -, -⟩ := hr.starting t List.mem_cons_self
  obtain ⟨y, hy, hid⟩ := List.mem_map.mp hmem
  obtain ⟨hym, v', hv', hyuses⟩ := hr.entries y hy
  obtain rfl : v = v' := Option.some.inj (hv.symm.trans (hid ▸ hv'))
  by_cases hjr : j ∈ roster.map (·.1)
  · obtain ⟨x, hx, rfl⟩ := List.mem_map.mp hjr
    obtain ⟨-, u', hu', hxuses⟩ := hr.entries x hx
    obtain rfl : u = u' := Option.some.inj (hu.symm.trans hu')
    have hwx := hr.waitingOf_of_same_uses hx hy (hid ▸ hj) (hxuses ▸ hyuses ▸ huses) (hid ▸ hw)
    rcases hr.ready x hx hwx with hd | ha | ht | ⟨u', h', src, tag', hu', hj', -⟩
    · exact hd
    · exfalso
      rcases ha with ⟨w, hw, he⟩ | ⟨a, ha, he⟩ | ⟨a, ha, -⟩
      · obtain ⟨u', hu', hj'⟩ := ho.sound.work w hw
        obtain rfl : u = u' := Option.some.inj (hu.symm.trans (he ▸ hu'))
        exact absurd (hjob.symm.trans hj') (by simp)
      · obtain ⟨u', src, tag', hu', hj'⟩ := ho.sound.arrivals a ha
        obtain rfl : u = u' := Option.some.inj (hu.symm.trans (he ▸ hu'))
        exact absurd (hjob.symm.trans hj') (by simp)
      · obtain ⟨u', hu', hj', -⟩ := ho.sound.accessors x.1 a ha
        obtain rfl : u = u' := Option.some.inj (hu.symm.trans hu')
        exact absurd (hjob.symm.trans hj') (by simp)
    · -- what is to start later has a higher number
      exfalso
      have hsorted := hr.todo_sorted
      rw [List.map_cons, List.pairwise_cons] at hsorted
      rw [List.map_cons, List.mem_cons] at ht
      rcases ht with ht | ht
      · rw [ht] at hj
        exact Nat.lt_irrefl _ hj
      · exact Nat.lt_asymm hj (hsorted.1 x.1 ht)
    · obtain rfl : u = u' := Option.some.inj (hu.symm.trans hu')
      exact absurd (hjob.symm.trans hj') (by simp)
  · exact hr.gone j (Nat.lt_trans hj (hid ▸ hym)) hjr

/-- The next task becomes active. -/
theorem activate (ho : n.Orderly log done (t :: todo)) (hsound : n'.Sound log done)
    (hsched : n'.scheduler = n.scheduler) (he : n'.events = n.events)
    (hactive : ∀ j, n'.Active j ↔ n.Active j ∨ j = t.id)
    (hv : ∀ j, n.accessors.find? j = none → n'.accessors.find? j = none)
    (hl : ∀ j, n.Lost log j → n'.Lost log j) : n'.Orderly log done todo := by
  refine ⟨hsound, ?_⟩
  intro s hs
  rw [hsched] at hs
  obtain ⟨m, roster, hr⟩ := ho.running s hs
  obtain ⟨hmem, hw, hd, -, -⟩ := hr.starting t List.mem_cons_self
  obtain ⟨e, hem, hid⟩ := List.mem_map.mp hmem
  have hsorted := hr.todo_sorted
  rw [List.map_cons, List.pairwise_cons] at hsorted
  have hevents : n'.events = n.events ++ ([] : List (Event α)) := by rw [he, List.append_nil]
  refine ⟨m, roster, hr.advance ⟨e, hem, hid, hw⟩ rfl rfl hevents (by simp) ?_ (fun _ _ => Iff.rfl)
    (by simp) id (Or.inr (Or.inl ((hactive _).mpr (Or.inr rfl)))) (fun j _ => hv j) hl
    (List.sublist_cons_self _ _) ?_ ?_⟩
  · intro j hj
    exact (hactive j).trans (or_iff_left hj)
  · intro u hu h
    have := hsorted.1 u.id (List.mem_map_of_mem hu)
    rw [h] at this
    exact Nat.lt_irrefl _ this
  · intro j hj
    exact List.mem_cons.mp hj

/-- The next task is done as soon as it is started. -/
theorem finishFirst {s' : Scheduler α} {e : Event α} (ho : n.Orderly log done (t :: todo))
    (hs : n.scheduler = some s) (hsound : n'.Sound log done) (hsched : n'.scheduler = some s')
    (hg : s'.graph = s.graph) (hp : s'.pending = s.pending)
    (he : n'.events = n.events ++ [e]) (hend : e.ended? = some t.id)
    (hactive : ∀ j, n'.Active j ↔ n.Active j)
    (hv : ∀ j, n.accessors.find? j = none → n'.accessors.find? j = none)
    (hl : ∀ j, n.Lost log j → n'.Lost log j) :
    n'.Orderly log (fun j => done j ∨ j = t.id) todo := by
  obtain ⟨⟨u, hu, -⟩, hd, ha, hfirst⟩ := ho.next hs
  refine ⟨hsound.insert (lt_of_getElem?_eq_some hu) hfirst (mt (hactive _).mp ha), ?_⟩
  intro s'' hs''
  obtain rfl : s' = s'' := Option.some.inj (hsched.symm.trans hs'')
  obtain ⟨m, roster, hr⟩ := ho.running s hs
  obtain ⟨hmem, hw, -, -, -⟩ := hr.starting t List.mem_cons_self
  obtain ⟨x, hx, hid⟩ := List.mem_map.mp hmem
  have hsorted := hr.todo_sorted
  rw [List.map_cons, List.pairwise_cons] at hsorted
  refine ⟨m, roster, hr.advance ⟨x, hx, hid, hw⟩ hg hp he ?_ (fun j _ => hactive j) ?_ ?_ Or.inl
    (Or.inl (Or.inr rfl)) (fun j _ => hv j) hl (List.sublist_cons_self _ _) ?_ ?_⟩
  · intro e' he'
    exact List.mem_singleton.mp he' ▸ hend
  · intro j hj
    exact or_iff_left hj
  · simp [hd]
  · intro u hu h
    have := hsorted.1 u.id (List.mem_map_of_mem hu)
    rw [h] at this
    exact Nat.lt_irrefl _ this
  · intro j hj
    exact List.mem_cons.mp hj

/-- The next task is done as soon as it is started, and only buffers have changed. -/
theorem finishFirst_post {m : Node α} (ho : n.Orderly log done (t :: todo))
    (hs : n.scheduler = some s) (hm : n.OnlyBuffers m) :
    (m.post (.complete t.id)).Orderly log (fun j => done j ∨ j = t.id) todo := by
  have heq := hm.eq
  have hsched : m.scheduler = some s := by rw [heq, hs]
  refine ho.finishFirst (e := .complete t.id) hs ((ho.onlyBuffers hm).sound.congr ?_ ?_ ?_ ?_)
    ((post_scheduler m _).trans hsched) rfl rfl ?_ rfl ?_ ?_ ?_
  · rw [post_nextTask]
  · rw [post_work]
  · rw [post_arrivals]
  · rw [post_accessors]
  · rw [post_events m _ (by rw [hsched]; rfl), heq]
  · intro j
    rw [active_post, hm.active_iff]
  · intro j hj
    rw [post_accessors, heq]
    exact hj
  · intro j hj
    exact lost_post.mpr (hm.lost hj)

/-! ## Job by job -/

/-- A computation becomes ready. -/
theorem startCompute {op : Op α} (ho : n.Orderly log done (t :: todo)) (hs : n.scheduler = some s)
    (hj : t.job = .compute op) :
    Orderly { n with work := n.work ++ [⟨t.id, op⟩] } log done todo := by
  have ht : log[t.id]? = some t := ho.next_eq hs fun u h => by
    rw [h] at hj
    cases hj
  obtain ⟨-, hd, ha, hfirst⟩ := ho.next hs
  have hactive : ∀ j, Active { n with work := n.work ++ [⟨t.id, op⟩] } j ↔ n.Active j ∨ j = t.id := by
    intro j
    unfold Active
    simp only [List.mem_append, List.mem_singleton, or_and_right, exists_or, exists_eq_left]
    constructor
    · rintro ((h | rfl) | h)
      · exact Or.inl (Or.inl h)
      · exact Or.inr rfl
      · exact Or.inl (Or.inr h)
    · rintro ((h | h) | rfl)
      · exact Or.inl (Or.inl h)
      · exact Or.inr h
      · exact Or.inl (Or.inr rfl)
  refine ho.activate ?_ rfl rfl hactive (fun _ h => h) (fun _ h => h)
  refine ho.sound.start ht hd hfirst rfl (fun j => (hactive j).mp) ?_ (fun a h => Or.inl h)
    (fun j a h => ⟨a, h, rfl, rfl⟩) ?_ ho.sound.arrivals_nodup
  · intro w hw
    rcases List.mem_append.mp hw with hw | hw
    · exact Or.inl hw
    · rw [List.mem_singleton.mp hw]
      exact Or.inr ⟨rfl, hj⟩
  · rw [List.map_append, List.nodup_append]
    refine ⟨ho.sound.work_nodup, by simp, ?_⟩
    rintro i hi j hj' rfl
    obtain ⟨w, hw, rfl⟩ := List.mem_map.mp hi
    rw [List.map_singleton, List.mem_singleton] at hj'
    exact ha (Or.inl ⟨w, hw, hj'⟩)

/-- A receive is on its way. -/
theorem startReceive {h : HandleId} {src : Rank} {tag : Tag} {ticket : Ticket}
    (ho : n.Orderly log done (t :: todo)) (hs : n.scheduler = some s)
    (hj : t.job = .receive h src tag) :
    Orderly { n with arrivals := n.arrivals ++ [⟨t.id, t.name, h, ticket⟩] } log done todo := by
  have ht : log[t.id]? = some t := ho.next_eq hs fun u h => by
    rw [h] at hj
    cases hj
  obtain ⟨-, hd, ha, hfirst⟩ := ho.next hs
  have hactive : ∀ j, Active { n with arrivals := n.arrivals ++ [⟨t.id, t.name, h, ticket⟩] } j ↔
      n.Active j ∨ j = t.id := by
    intro j
    unfold Active
    simp only [List.mem_append, List.mem_singleton, or_and_right, exists_or, exists_eq_left]
    constructor
    · rintro (h | (h | rfl) | h)
      · exact Or.inl (Or.inl h)
      · exact Or.inl (Or.inr (Or.inl h))
      · exact Or.inr rfl
      · exact Or.inl (Or.inr (Or.inr h))
    · rintro ((h | h | h) | rfl)
      · exact Or.inl h
      · exact Or.inr (Or.inl (Or.inl h))
      · exact Or.inr (Or.inr h)
      · exact Or.inr (Or.inl (Or.inr rfl))
  refine ho.activate ?_ rfl rfl hactive (fun _ h => h) (fun _ h => h)
  refine ho.sound.start ht hd hfirst rfl (fun j => (hactive j).mp) (fun w h => Or.inl h) ?_
    (fun j a h => ⟨a, h, rfl, rfl⟩) ho.sound.work_nodup ?_
  · intro a ha'
    rcases List.mem_append.mp ha' with ha' | ha'
    · exact Or.inl ha'
    · rw [List.mem_singleton.mp ha']
      exact Or.inr ⟨rfl, src, tag, hj⟩
  · rw [List.map_append, List.nodup_append]
    refine ⟨ho.sound.arrivals_nodup, by simp, ?_⟩
    rintro i hi j hj' rfl
    obtain ⟨a, ha', rfl⟩ := List.mem_map.mp hi
    rw [List.map_singleton, List.mem_singleton] at hj'
    exact ha (Or.inr (Or.inl ⟨a, ha', hj'⟩))

/-- An accessor is granted. -/
theorem startGrant (ho : n.Orderly log done (t :: todo)) (hs : n.scheduler = some s)
    (hj : t.job = .grant) (hhas : n.accessors.has t.id = true) :
    Orderly { n with accessors := n.accessors.adjust t.id fun a => { a with phase := .granted } }
      log done todo := by
  have ht : log[t.id]? = some t := ho.next_eq hs fun u h => by
    rw [h] at hj
    cases hj
  obtain ⟨-, hd, ha, hfirst⟩ := ho.next hs
  obtain ⟨a, ha'⟩ := Table.exists_find?_of_mem_keys (Table.has_iff.mp hhas)
  have hfind : ∀ j, (n.accessors.adjust t.id fun a => { a with phase := .granted }).find? j =
      if j = t.id then (n.accessors.find? j).map fun a => { a with phase := .granted }
      else n.accessors.find? j := fun j => Table.find?_adjust _ _ _ _
  have hactive : ∀ j, Active { n with
      accessors := n.accessors.adjust t.id fun a => { a with phase := .granted } } j ↔
        n.Active j ∨ j = t.id := by
    intro j
    unfold Active
    dsimp only
    rw [hfind]
    by_cases hjt : j = t.id
    · rw [if_pos hjt, hjt, ha']
      simp
    · simp [hjt]
  refine ho.activate ?_ rfl rfl hactive ?_ (fun _ h => h)
  · refine ho.sound.start ht hd hfirst rfl (fun j => (hactive j).mp) (fun w h => Or.inl h)
      (fun a h => Or.inl h) ?_ ho.sound.work_nodup ho.sound.arrivals_nodup
    intro j b hb
    rw [hfind] at hb
    split at hb
    · obtain ⟨c, hc, rfl⟩ := Option.map_eq_some_iff.mp hb
      exact ⟨c, hc, rfl, rfl⟩
    · exact ⟨b, hb, rfl, rfl⟩
  · intro j hjn
    rw [hfind, hjn]
    simp

end Orderly

/-! ## The scheduler stops -/

/-- Closing accessors changes only those that wait. -/
theorem find?_close (n : Node α) (ids : List TaskId) (k : TaskId) :
    (n.close ids).accessors.find? k = if k ∈ ids then
      (n.accessors.find? k).map fun a => if a.phase = .waiting then { a with phase := .closed } else a
      else n.accessors.find? k := by
  refine Table.find?_foldl_adjust_of_idem ?_ ids n.accessors k
  intro a
  by_cases ha : a.phase = .waiting
  · simp [ha]
  · simp [ha]

/-- An accessor that has been closed was there before, and it has not been granted. -/
theorem exists_of_find?_close {ids : List TaskId} {k : TaskId} {a : Accessor}
    (ha : (n.close ids).accessors.find? k = some a) :
    ∃ b, n.accessors.find? k = some b ∧ b.handle = a.handle ∧ b.access = a.access ∧
      (a.phase = .granted → b.phase = .granted) := by
  rw [find?_close] at ha
  split at ha
  · obtain ⟨b, hb, rfl⟩ := Option.map_eq_some_iff.mp ha
    refine ⟨b, hb, ?_⟩
    by_cases hw : b.phase = .waiting
    · simp [hw]
    · simp [hw]
  · exact ⟨a, ha, rfl, rfl, id⟩

/-- Closing accessors leaves those that are granted as they are. -/
theorem granted_close_iff {ids : List TaskId} {k : TaskId} :
    (∃ a, (n.close ids).accessors.find? k = some a ∧ a.phase = .granted) ↔
      ∃ a, n.accessors.find? k = some a ∧ a.phase = .granted := by
  constructor
  · rintro ⟨a, ha, hg⟩
    obtain ⟨b, hb, -, -, h⟩ := exists_of_find?_close ha
    exact ⟨b, hb, h hg⟩
  · rintro ⟨a, ha, hg⟩
    refine ⟨a, ?_, hg⟩
    rw [find?_close, ha]
    simp [hg]

namespace Sound

theorem close (hs : n.Sound log done) (ids : List TaskId) : (n.close ids).Sound log done :=
  hs.shrink rfl (List.Sublist.refl _) (List.Sublist.refl _) fun _ _ ha => exists_of_find?_close ha

theorem stop (hs : n.Sound log done) : n.stop.Sound log done := by
  unfold Node.stop
  split
  · exact hs
  · refine Sound.close ?_ _
    exact hs.congr rfl rfl rfl rfl

end Sound

@[simp] theorem close_scheduler (n : Node α) (ids : List TaskId) :
    (n.close ids).scheduler = n.scheduler := rfl

@[simp] theorem stop_scheduler (n : Node α) : n.stop.scheduler = none := by
  unfold stop
  split
  · assumption
  · rfl

@[simp] theorem stop_handles (n : Node α) : n.stop.handles = n.handles := by
  unfold stop
  split <;> rfl

theorem granted_stop_iff {k : TaskId} :
    (∃ a, n.stop.accessors.find? k = some a ∧ a.phase = .granted) ↔
      ∃ a, n.accessors.find? k = some a ∧ a.phase = .granted := by
  unfold stop
  split
  · exact Iff.rfl
  · exact granted_close_iff

/-- Once the scheduler has stopped, the log only has to be sound. -/
theorem Sound.orderly (hs : n.Sound log done) (h : n.scheduler = none) :
    n.Orderly log done todo := by
  refine ⟨hs, ?_⟩
  intro s hs'
  rw [h] at hs'
  cases hs'

/-! ## From one start to all of them -/

section

variable [Scalar α]

/-- What every start keeps, and what the end of the scheduler leaves, holds when no task is left to
start. -/
theorem startAll_induction {P : List (Task α) → Cluster → Node α → Prop}
    (hgo : ∀ t todo net n, P (t :: todo) net n → n.scheduler.isSome →
      (start net n t).2.scheduler.isSome → P todo (start net n t).1 (start net n t).2)
    (hstop : ∀ t todo net n, P (t :: todo) net n → n.scheduler.isSome →
      ¬(start net n t).2.scheduler.isSome →
        P [] (start net n t).1 ((start net n t).2.close (todo.map (·.id))))
    (tasks : List (Task α)) (net : Cluster) (n : Node α) (hs : n.scheduler.isSome)
    (h : P tasks net n) : P [] (startAll net n tasks).1 (startAll net n tasks).2 := by
  induction tasks generalizing net n with
  | nil => exact h
  | cons t tasks ih =>
    unfold startAll
    dsimp only
    split
    · rename_i halive
      exact ih _ _ halive (hgo t tasks net n h hs halive)
    · rename_i hdead
      exact hstop t tasks net n h hs hdead

/-- Taking an event never faults: the scheduler reacts to it and starts what is to be started. -/
theorem Orderly.takeEvent {net net' : Cluster} (ho : n.Orderly log done [])
    (h : takeEvent net n = some (net', n')) :
    ∃ s e events p, n.scheduler = some s ∧ n.events = e :: events ∧ s.react e = .ok p ∧
      Orderly { n with events, scheduler := some p.1 } log done p.2.started ∧
      net' = (startAll net { n with events, scheduler := some p.1 } p.2.started).1 ∧
      n' = ((startAll net { n with events, scheduler := some p.1 } p.2.started).2).pass
        p.2.passed := by
  unfold Node.takeEvent at h
  split at h
  · rename_i s e events hs he
    obtain ⟨m, roster, hr⟩ := ho.running s hs
    obtain ⟨p, m', roster', hok, hrun⟩ := hr.react ho.sound he
    rw [hok] at h
    simp only [Option.some.injEq, Prod.mk.injEq] at h
    refine ⟨s, e, events, p, hs, he, hok, ⟨?_, ?_⟩, h.1.symm, h.2.symm⟩
    · exact ho.sound.congr rfl rfl rfl rfl
    · intro s' hs'
      obtain rfl := Option.some.inj hs'
      exact ⟨m', roster', hrun _ rfl⟩
  · cases h

end

/-- Barriers do not concern the log. -/
theorem Orderly.pass (ho : n.Orderly log done todo)
    (passed : List (BarrierId × Option TaskError)) : (n.pass passed).Orderly log done todo := by
  refine ⟨ho.sound.congr rfl rfl rfl rfl, ?_⟩
  intro s hs
  obtain ⟨m, roster, hr⟩ := ho.running s hs
  refine ⟨m, roster, hr.congr rfl rfl rfl ?_ ?_ ?_⟩
  · intro j
    exact Iff.rfl
  · intro j _ hj
    exact hj
  · intro j hj
    exact hj

end Node

end TiledTensor
