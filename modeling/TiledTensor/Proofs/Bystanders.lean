import Mathlib.Data.List.Sort
import TiledTensor.Proofs.Jobs

/-!
# Tasks that nobody waits for

A task that comes last on its buffers is in nobody's way.  `Roster.Spares` says so of some tasks of
a roster: no later task conflicts with one of them.  What a graph answers about the other tasks then
does not depend on them, and neither does what a scheduler starts.

`Scheduler.Twin` relates two schedulers that have been given the same tasks, apart from tasks that
nobody waits for.  Of an event that concerns another task both make the same: they start the same
tasks in the same order (`Scheduler.Twin.react`).  The other events, the *hidden* ones, each takes
by itself.
-/

namespace TiledTensor

variable {α : Type}

/-- A task with its accesses. -/
def Task.entry (t : Task α) : TaskId × List (HandleId × Access) := (t.id, t.uses)

namespace Roster

/-- A roster without some tasks. -/
def without (R : List TaskId) (roster : Roster) : Roster := roster.filter fun x => decide (x.1 ∉ R)

/-- No task waits for one of the tasks `R`. -/
def Spares (R : List TaskId) (roster : Roster) : Prop :=
  ∀ x y, Before roster x y → x.1 ∈ R → ¬Conflict x.2 y.2

variable {R : List TaskId} {roster more : Roster} {x y : TaskId × List (HandleId × Access)}

theorem mem_without_iff : x ∈ roster.without R ↔ x ∈ roster ∧ x.1 ∉ R := by
  rw [without, List.mem_filter, decide_eq_true_iff]

theorem before_without_iff :
    Before (roster.without R) x y ↔ Before roster x y ∧ x.1 ∉ R ∧ y.1 ∉ R := by
  rw [without, Before.filter_iff, decide_eq_true_iff, decide_eq_true_iff]

theorem without_append (R : List TaskId) (roster more : Roster) :
    without R (roster ++ more) = roster.without R ++ more.without R :=
  List.filter_append ..

theorem without_of_mem (h : x.1 ∈ R) : without R [x] = [] :=
  List.filter_cons_of_neg (by simpa using h)

theorem Spares.left (h : Spares R (roster ++ more)) : roster.Spares R := by
  intro x y hxy
  refine h x y ?_
  clear h
  induction roster with
  | nil => exact hxy.elim
  | cons z roster ih =>
    exact hxy.imp (And.imp_right (List.mem_append_left more)) ih

/-- What is in the way of a task that is not one of `R` is no task of `R`. -/
theorem clear_iff_without {g : TaskGraph} (hs : roster.Spares R) (hy : y.1 ∉ R) :
    g.Clear roster y ↔ g.Clear (roster.without R) y := by
  constructor
  · intro h x hxy
    exact h x (before_without_iff.mp hxy).1
  · intro h x hxy hin
    by_cases hx : x.1 ∈ R
    · exact hs x y hxy hx
    · exact h x (before_without_iff.mpr ⟨hxy, hx, hy⟩) hin

end Roster

namespace TaskGraph

variable {g g' : TaskGraph} {tasks tasks' : Roster} {R : List TaskId} {k : TaskId}

theorem waitingOf_of_not_contains (h : g.contains k = false) : g.waitingOf k = 0 := by
  unfold waitingOf
  unfold contains Table.has at h
  rw [Option.isSome_eq_false_iff, Option.isNone_iff_eq_none] at h
  rw [h]

/-- Where the tasks that are spared do not matter, two graphs agree on which tasks wait. -/
theorem Stands.waitingOf_congr (hg : g.Stands tasks) (hg' : g'.Stands tasks')
    (hs : tasks.Spares R) (hs' : tasks'.Spares R) (hsame : tasks.without R = tasks'.without R)
    (hc : ∀ k, k ∉ R → g'.contains k = g.contains k) (hk : k ∉ R) :
    g'.waitingOf k = 0 ↔ g.waitingOf k = 0 := by
  rcases Bool.eq_false_or_eq_true (g.contains k) with hin | hout
  · obtain ⟨y, hy, rfl⟩ := List.mem_map.mp (hg.mem_ids hin)
    have hin' := (hc y.1 hk).trans hin
    have hy' : y ∈ tasks' :=
      (Roster.mem_without_iff.mp (hsame ▸ Roster.mem_without_iff.mpr ⟨hy, hk⟩)).1
    rw [hg.waitingOf_eq_zero_iff hy hin, hg'.waitingOf_eq_zero_iff hy' hin',
      Roster.clear_iff_without hs hk, Roster.clear_iff_without hs' hk, hsame]
    refine forall_congr' fun x => forall_congr' fun hxy => ?_
    rw [hc x.1 (Roster.before_without_iff.mp hxy).2.1]
  · rw [waitingOf_of_not_contains hout, waitingOf_of_not_contains ((hc k hk).trans hout)]

end TaskGraph

/-! ## Schedulers -/

/-- The event is about one of the tasks `R`, or about no task. -/
def Event.hidden (R : List TaskId) : Event α → Bool
  | .submit t => decide (t.id ∈ R)
  | .complete k | .fail k _ => decide (k ∈ R)
  | .wait _ => true

/-- The task that an event submits, with its accesses. -/
def Event.entries (e : Event α) : Roster := (e.task?.map Task.entry).toList

/-- The tasks that are not among `R`. -/
def Task.besides (R : List TaskId) (tasks : List (Task α)) : List (Task α) :=
  tasks.filter fun t => decide (t.id ∉ R)

theorem without_entries {R : List TaskId} {e : Event α} (he : e.hidden R = true) :
    e.entries.without R = [] := by
  cases e with
  | submit t => exact Roster.without_of_mem (x := t.entry) (of_decide_eq_true he)
  | complete k => rfl
  | fail k f => rfl
  | wait b => rfl

namespace Scheduler

variable {R : List TaskId} {s s' : Scheduler α} {tasks tasks' : Roster} {e : Event α} {k : TaskId}
  {t : Task α} {p : Scheduler α × Reaction α}

/-- What is left of a scheduler when the end of a task is reported that does not wait. -/
structure Loses (s : Scheduler α) (tasks : Roster) (k : TaskId) (ready : List TaskId)
    (p : Scheduler α × Reaction α) : Prop where
  stands : p.1.graph.Stands tasks
  contains : ∀ j, p.1.graph.contains j = true ↔
    s.graph.contains j = true ∧ ¬(j = k ∧ s.graph.waitingOf k = 0)
  sub : ready.Sublist (tasks.map (·.1))
  freed : ∀ j, j ∈ ready ↔
    p.1.graph.contains j = true ∧ s.graph.waitingOf j ≠ 0 ∧ p.1.graph.waitingOf j = 0
  pending : ∀ j, p.1.pending.find? j = if j ∈ ready then none else s.pending.find? j
  started : p.2.started = ready.filterMap s.pending.find?

theorem exists_loses (hg : s.graph.Stands tasks) (hk : s.pending.find? k = none) :
    ∃ ready p, s.complete k = .ok p ∧ s.Loses tasks k ready p := by
  obtain ⟨g, ready, hok, hstands, hcontains, hsub, hready⟩ := hg.exists_complete k
  refine ⟨ready, _, complete_of_notParked hk hok, ?_, ?_, hsub, ?_, fun j => ?_, ?_⟩
  · rw [settle_graph]
    exact hstands
  · rw [settle_graph]
    exact hcontains
  · rw [settle_graph]
    exact hready
  · rw [settle_pending]
    exact find?_unpark_snd _ _ _
  · rw [settle_started]
    exact unpark_fst (hsub.nodup hg.nodup)

/-- A task that nobody waits for sets nobody free. -/
theorem Loses.eq_nil {ready : List TaskId} (hl : s.Loses tasks k ready p)
    (hg : s.graph.Stands tasks) (hs : tasks.Spares R) (hk : k ∈ R) : ready = [] := by
  refine List.eq_nil_iff_forall_not_mem.mpr fun j hj => ?_
  obtain ⟨hin, hwaits, hfree⟩ := (hl.freed j).mp hj
  have hold := ((hl.contains j).mp hin).1
  obtain ⟨y, hy, rfl⟩ := List.mem_map.mp (hg.mem_ids hold)
  refine hwaits ((hg.waitingOf_eq_zero_iff hy hold).mpr fun x hxy hx hconflict => ?_)
  refine (hl.stands.waitingOf_eq_zero_iff hy hin).mp hfree x hxy ((hl.contains x.1).mpr ⟨hx, ?_⟩)
    hconflict
  rintro ⟨rfl, -⟩
  exact hs x y hxy hk hconflict

theorem notMem_ids_of_sorted (hsort : ((tasks ++ [t.entry]).map (·.1)).Pairwise (· < ·)) :
    t.id ∉ tasks.map (·.1) := by
  rw [List.map_append] at hsort
  exact fun h => Nat.lt_irrefl _ ((List.pairwise_append.mp hsort).2.2 _ h _ List.mem_cons_self)

theorem stands_submit (hg : s.graph.Stands tasks)
    (hsort : ((tasks ++ [t.entry]).map (·.1)).Pairwise (· < ·)) :
    (s.submit t).1.graph.Stands (tasks ++ [t.entry]) := by
  rw [submit_graph]
  exact hg.insert (notMem_ids_of_sorted hsort)

theorem contains_submit (hg : s.graph.Stands tasks)
    (hsort : ((tasks ++ [t.entry]).map (·.1)).Pairwise (· < ·)) (j : TaskId) :
    (s.submit t).1.graph.contains j = true ↔ s.graph.contains j = true ∨ j = t.id := by
  rw [submit_graph]
  exact hg.contains_insert (notMem_ids_of_sorted hsort) j

/-! ## Events about tasks that nobody waits for -/

/-- A scheduler has taken an event that is about no task but those of `R`. -/
structure Shrugs (R : List TaskId) (s : Scheduler α) (tasks : Roster) (e : Event α)
    (p : Scheduler α × Reaction α) : Prop where
  stands : p.1.graph.Stands (tasks ++ e.entries)
  contains : ∀ k, k ∉ R → p.1.graph.contains k = s.graph.contains k
  pending : ∀ k, k ∉ R → p.1.pending.find? k = s.pending.find? k
  kept : (∀ k t, s.pending.find? k = some t → t.id = k) →
    ∀ k t, p.1.pending.find? k = some t → t.id = k
  started : ∀ t ∈ p.2.started, t.id ∈ R
  /-- Tasks without buffers are started at once. -/
  light : (∀ k ∈ R, s.pending.find? k = none) → (∀ t, e.task? = some t → t.uses = []) →
    (∀ k ∈ R, p.1.pending.find? k = none) ∧ p.2.started = e.task?.toList

theorem shrugs_complete (hg : s.graph.Stands tasks) (hs : tasks.Spares R) (hk : k ∈ R) :
    ∃ p, s.complete k = .ok p ∧ Shrugs R s tasks (.complete k) p := by
  have hnone : tasks ++ (Event.complete k : Event α).entries = tasks := List.append_nil _
  cases hp : s.pending.find? k with
  | some t =>
    refine ⟨_, complete_of_parked hp, hnone.symm ▸ hg, fun _ _ => rfl, fun j hj => ?_,
      fun hkept j u hu => ?_, fun u hu => (List.not_mem_nil hu).elim, fun habsent _ => ?_⟩
    · exact Table.find?_put_of_ne _ _ (ne_of_mem_of_not_mem hk hj).symm
    · dsimp only at hu
      rw [Table.find?_put] at hu
      split at hu
      · rename_i hjk
        exact Option.some.inj hu ▸ (hkept k t hp).trans hjk.symm
      · exact hkept j u hu
    · rw [habsent k hk] at hp
      cases hp
  | none =>
    obtain ⟨ready, p, hok, hl⟩ := exists_loses hg hp
    obtain rfl := hl.eq_nil hg hs hk
    have hpending : ∀ j, p.1.pending.find? j = s.pending.find? j := fun j =>
      (hl.pending j).trans (if_neg List.not_mem_nil)
    refine ⟨p, hok, hnone.symm ▸ hl.stands, fun j hj => ?_, fun j _ => hpending j,
      fun hkept j u hu => hkept j u (hpending j ▸ hu), ?_, fun habsent _ => ⟨?_, hl.started⟩⟩
    · rw [Bool.eq_iff_iff, hl.contains]
      exact and_iff_left fun h => hj (h.1 ▸ hk)
    · rw [hl.started]
      exact fun u hu => (List.not_mem_nil hu).elim
    · exact fun j hj => (hpending j).trans (habsent j hj)

theorem shrugs_submit (hg : s.graph.Stands tasks) (ht : t.id ∈ R)
    (hsort : ((tasks ++ [t.entry]).map (·.1)).Pairwise (· < ·)) :
    Shrugs R s tasks (.submit t) (s.submit t) := by
  refine ⟨stands_submit hg hsort, fun k hk => ?_, fun k hk => ?_, fun hkept k u hu => ?_,
    fun u hu => ?_, fun habsent huses => ?_⟩
  · rw [Bool.eq_iff_iff, contains_submit hg hsort]
    exact or_iff_left fun h => hk (h ▸ ht)
  · rw [find?_pending_submit, if_neg (mt And.left (ne_of_mem_of_not_mem ht hk).symm)]
  · rw [find?_pending_submit] at hu
    split at hu
    · rename_i hkt
      exact Option.some.inj hu ▸ hkt.1.symm
    · exact hkept k u hu
  · exact (mem_started_submit.mp hu).1 ▸ ht
  · have hready : (s.graph.insert t.id t.uses).2 = true := by
      rw [hg.insert_ready_iff (notMem_ids_of_sorted hsort), huses t rfl]
      rintro x - - ⟨h, a, b, -, hb, -⟩
      cases hb
    refine ⟨fun k hk => ?_, ?_⟩
    · rw [submit_pending, if_pos hready]
      exact habsent k hk
    · rw [submit_started, if_pos hready]
      rfl

/-- A scheduler takes what is about no task but those of `R`, and starts no other task. -/
theorem exists_shrugs (hg : s.graph.Stands tasks) (hs : tasks.Spares R)
    (hsort : ((tasks ++ e.entries).map (·.1)).Pairwise (· < ·)) (he : e.hidden R = true) :
    ∃ p, s.react e = .ok p ∧ Shrugs R s tasks e p := by
  cases e with
  | submit t => exact ⟨_, rfl, shrugs_submit hg (of_decide_eq_true he) hsort⟩
  | complete k => exact shrugs_complete hg hs (of_decide_eq_true he)
  | fail k f =>
    obtain ⟨p, hok, h⟩ := shrugs_complete (s := s.note f) hg hs (of_decide_eq_true he)
    exact ⟨p, hok, h.stands, h.contains, h.pending, h.kept, h.started, h.light⟩
  | wait b =>
    refine ⟨_, rfl, ?_⟩
    constructor
    case stands =>
      rw [settle_graph]
      exact (List.append_nil tasks).symm ▸ hg
    case contains =>
      intro k _
      rw [settle_graph]
    case pending =>
      intro k _
      rw [settle_pending]
    case kept =>
      intro hkept
      rw [settle_pending]
      exact hkept
    case started =>
      rw [settle_started]
      exact fun u hu => (List.not_mem_nil hu).elim
    case light =>
      intro habsent _
      rw [settle_pending, settle_started]
      exact ⟨habsent, rfl⟩

/-! ## Twins -/

/-- Two schedulers that have taken the same tasks, apart from tasks `R` that nobody waits for. -/
structure Twin (R : List TaskId) (s s' : Scheduler α) (tasks tasks' : Roster) : Prop where
  stands : s.graph.Stands tasks
  stands' : s'.graph.Stands tasks'
  same : tasks.without R = tasks'.without R
  sorted : (tasks.map (·.1)).Pairwise (· < ·)
  sorted' : (tasks'.map (·.1)).Pairwise (· < ·)
  contains : ∀ k, k ∉ R → s'.graph.contains k = s.graph.contains k
  pending : ∀ k, k ∉ R → s'.pending.find? k = s.pending.find? k
  kept : ∀ k t, s.pending.find? k = some t → t.id = k
  /-- The tasks `R` never wait for the second scheduler. -/
  absent : ∀ k ∈ R, s'.pending.find? k = none

namespace Twin

theorem of_parts (h : Twin R s s' tasks tasks') {u u' : Scheduler α} (hg : u.graph = s.graph)
    (hg' : u'.graph = s'.graph) (hp : u.pending = s.pending) (hp' : u'.pending = s'.pending) :
    Twin R u u' tasks tasks' :=
  ⟨hg ▸ h.stands, hg' ▸ h.stands', h.same, h.sorted, h.sorted', hg ▸ hg' ▸ h.contains,
    hp ▸ hp' ▸ h.pending, hp ▸ h.kept, hp' ▸ h.absent⟩

/-- The tasks that are set free in both schedulers are the same, apart from those of `R`. -/
theorem ready_eq (h : Twin R s s' tasks tasks') (hs : tasks.Spares R) (hs' : tasks'.Spares R)
    {ready ready' : List TaskId} {p p' : Scheduler α × Reaction α} (hk : k ∉ R)
    (hp : s.Loses tasks k ready p) (hp' : s'.Loses tasks' k ready' p') :
    (∀ j, j ∉ R → p'.1.graph.contains j = p.1.graph.contains j) ∧
      ready'.filter (fun j => decide (j ∉ R)) = ready.filter fun j => decide (j ∉ R) := by
  have hwait : ∀ {j}, j ∉ R → (s'.graph.waitingOf j = 0 ↔ s.graph.waitingOf j = 0) :=
    h.stands.waitingOf_congr h.stands' hs hs' h.same h.contains
  have hcontains : ∀ j, j ∉ R → p'.1.graph.contains j = p.1.graph.contains j := by
    intro j hj
    rw [Bool.eq_iff_iff, hp'.contains, hp.contains, h.contains j hj, hwait hk]
  refine ⟨hcontains, ?_⟩
  have hwait' : ∀ {j}, j ∉ R → (p'.1.graph.waitingOf j = 0 ↔ p.1.graph.waitingOf j = 0) :=
    hp.stands.waitingOf_congr hp'.stands hs hs' h.same hcontains
  refine ((h.sorted'.sublist hp'.sub).filter _).eq_of_mem_iff ((h.sorted.sublist hp.sub).filter _)
    fun j => ?_
  rw [List.mem_filter, List.mem_filter, decide_eq_true_iff]
  refine and_congr_left fun hj => ?_
  rw [hp'.freed, hp.freed, hcontains j hj, Ne, Ne, hwait hj, hwait' hj]

/-- The end of a task that is not one of `R`. -/
theorem complete (h : Twin R s s' tasks tasks') (hs : tasks.Spares R) (hs' : tasks'.Spares R)
    (hk : k ∉ R) : ∃ p p', s.complete k = .ok p ∧ s'.complete k = .ok p' ∧
      Twin R p.1 p'.1 tasks tasks' ∧ p'.2.started = Task.besides R p.2.started := by
  cases hp : s.pending.find? k with
  | some t =>
    -- both only note that the accessor was given up
    refine ⟨_, _, complete_of_parked hp, complete_of_parked ((h.pending k hk).trans hp), ?_, rfl⟩
    refine ⟨h.stands, h.stands', h.same, h.sorted, h.sorted', h.contains, fun j hj => ?_,
      fun j u hu => ?_, fun j hj => ?_⟩
    · dsimp only
      rw [Table.find?_put, Table.find?_put, h.pending j hj]
    · dsimp only at hu
      rw [Table.find?_put] at hu
      split at hu
      · rename_i hjk
        obtain rfl := Option.some.inj hu
        exact (h.kept k t hp).trans hjk.symm
      · exact h.kept j u hu
    · dsimp only
      rw [Table.find?_put_of_ne _ _ (ne_of_mem_of_not_mem hj hk)]
      exact h.absent j hj
  | none =>
    obtain ⟨ready, p, hok, hl⟩ := exists_loses h.stands hp
    obtain ⟨ready', p', hok', hl'⟩ := exists_loses h.stands' ((h.pending k hk).trans hp)
    obtain ⟨hcontains, hready⟩ := h.ready_eq hs hs' hk hl hl'
    have hmem : ∀ j, j ∉ R → (j ∈ ready' ↔ j ∈ ready) := by
      intro j hj
      have hmem := Iff.of_eq (congrArg (j ∈ ·) hready)
      rwa [List.mem_filter, List.mem_filter, and_iff_left (decide_eq_true hj),
        and_iff_left (decide_eq_true hj)] at hmem
    refine ⟨p, p', hok, hok', ⟨hl.stands, hl'.stands, h.same, h.sorted, h.sorted', hcontains,
      fun j hj => ?_, fun j u hu => ?_, fun j hj => ?_⟩, ?_⟩
    · rw [hl'.pending, hl.pending, h.pending j hj]
      simp only [hmem j hj]
    · rw [hl.pending] at hu
      split at hu
      · cases hu
      · exact h.kept j u hu
    · rw [hl'.pending, h.absent j hj, ite_self]
    · have hfind : ∀ j u, s.pending.find? j = some u → (decide (u.id ∉ R) = decide (j ∉ R)) :=
        fun j u hu => by rw [h.kept j u hu]
      have hleft : Task.besides R p.2.started =
          (ready.filter fun j => decide (j ∉ R)).filterMap s.pending.find? := by
        rw [Task.besides, hl.started, List.filter_filterMap, List.filterMap_filter]
        refine List.filterMap_congr fun j _ => ?_
        cases hu : s.pending.find? j with
        | none => simp
        | some u => simp [hfind j u hu, Option.filter]
      have hright : p'.2.started =
          (ready'.filter fun j => decide (j ∉ R)).filterMap s.pending.find? := by
        rw [hl'.started, List.filterMap_filter]
        refine List.filterMap_congr fun j _ => ?_
        by_cases hj : j ∈ R
        · simp [hj, h.absent j hj]
        · simp [hj, h.pending j hj]
      rw [hleft, hright, hready]

/-- A task that is not one of `R` is submitted. -/
theorem submit (h : Twin R s s' tasks tasks') (hs : (tasks ++ [t.entry]).Spares R)
    (hs' : (tasks' ++ [t.entry]).Spares R) (ht : t.id ∉ R)
    (hsort : ((tasks ++ [t.entry]).map (·.1)).Pairwise (· < ·))
    (hsort' : ((tasks' ++ [t.entry]).map (·.1)).Pairwise (· < ·)) :
    Twin R (s.submit t).1 (s'.submit t).1 (tasks ++ [t.entry]) (tasks' ++ [t.entry]) ∧
      (s'.submit t).2.started = (s.submit t).2.started := by
  have hstands := stands_submit h.stands hsort
  have hstands' := stands_submit h.stands' hsort'
  have hsame : (tasks ++ [t.entry]).without R = (tasks' ++ [t.entry]).without R := by
    rw [Roster.without_append, Roster.without_append, h.same]
  have hcontains : ∀ k, k ∉ R →
      (s'.submit t).1.graph.contains k = (s.submit t).1.graph.contains k := by
    intro k hk
    rw [Bool.eq_iff_iff, contains_submit h.stands hsort, contains_submit h.stands' hsort',
      h.contains k hk]
  have hwait := hstands.waitingOf_congr hstands' hs hs' hsame hcontains ht
  refine ⟨⟨hstands, hstands', hsame, hsort, hsort', hcontains, fun k hk => ?_, fun k u hu => ?_,
    fun k hk => ?_⟩, ?_⟩
  · rw [find?_pending_submit, find?_pending_submit, h.pending k hk]
    simp only [Ne, hwait]
  · rw [find?_pending_submit] at hu
    split at hu
    · rename_i hkt
      exact Option.some.inj hu ▸ hkt.1.symm
    · exact h.kept k u hu
  · rw [find?_pending_submit, if_neg (mt And.left (ne_of_mem_of_not_mem hk ht))]
    exact h.absent k hk
  · rw [submit_started, submit_started]
    simp only [insert_ready_iff, hwait]

/-- Of an event about a task that is not one of `R` both schedulers make the same. -/
theorem react (h : Twin R s s' tasks tasks') (he : e.hidden R = false)
    (hs : (tasks ++ e.entries).Spares R) (hs' : (tasks' ++ e.entries).Spares R)
    (hsort : ((tasks ++ e.entries).map (·.1)).Pairwise (· < ·))
    (hsort' : ((tasks' ++ e.entries).map (·.1)).Pairwise (· < ·)) :
    ∃ p p', s.react e = .ok p ∧ s'.react e = .ok p' ∧
      Twin R p.1 p'.1 (tasks ++ e.entries) (tasks' ++ e.entries) ∧
      p'.2.started = Task.besides R p.2.started := by
  cases e with
  | submit t =>
    have ht : t.id ∉ R := of_decide_eq_false he
    obtain ⟨htwin, hstarted⟩ := h.submit hs hs' ht hsort hsort'
    refine ⟨_, _, rfl, rfl, htwin, hstarted.trans (List.filter_eq_self.mpr fun u hu => ?_).symm⟩
    obtain rfl := (mem_started_submit.mp hu).1
    exact decide_eq_true ht
  | complete k =>
    have hnone : ∀ l : Roster, l ++ (Event.complete k : Event α).entries = l := List.append_nil
    rw [hnone] at hs hs' ⊢
    rw [hnone]
    exact h.complete hs hs' (of_decide_eq_false he)
  | fail k f =>
    have hnone : ∀ l : Roster, l ++ (Event.fail k f : Event α).entries = l := List.append_nil
    rw [hnone] at hs hs' ⊢
    rw [hnone]
    have hnote : Twin R (s.note f) (s'.note f) tasks tasks' := h.of_parts rfl rfl rfl rfl
    exact hnote.complete hs hs' (of_decide_eq_false he)
  | wait b => cases he

/-- The first scheduler takes an event about tasks of `R`. -/
theorem left (h : Twin R s s' tasks tasks') (hp : Shrugs R s tasks e p) (he : e.hidden R = true)
    (hsort : ((tasks ++ e.entries).map (·.1)).Pairwise (· < ·)) :
    Twin R p.1 s' (tasks ++ e.entries) tasks' := by
  refine ⟨hp.stands, h.stands', ?_, hsort, h.sorted', fun k hk => ?_, fun k hk => ?_,
    hp.kept h.kept, h.absent⟩
  · rw [Roster.without_append, without_entries he, List.append_nil, h.same]
  · rw [h.contains k hk, hp.contains k hk]
  · rw [h.pending k hk, hp.pending k hk]

/-- The second scheduler takes an event about tasks of `R`, which use no buffers there. -/
theorem right (h : Twin R s s' tasks tasks') (hp : Shrugs R s' tasks' e p) (he : e.hidden R = true)
    (hsort : ((tasks' ++ e.entries).map (·.1)).Pairwise (· < ·))
    (huses : ∀ t, e.task? = some t → t.uses = []) :
    Twin R s p.1 tasks (tasks' ++ e.entries) ∧ p.2.started = e.task?.toList := by
  obtain ⟨habsent, hstarted⟩ := hp.light h.absent huses
  refine ⟨⟨h.stands, hp.stands, ?_, h.sorted, hsort, fun k hk => ?_, fun k hk => ?_, h.kept,
    habsent⟩, hstarted⟩
  · rw [Roster.without_append, without_entries he, List.append_nil, h.same]
  · rw [hp.contains k hk, h.contains k hk]
  · rw [hp.pending k hk, h.pending k hk]

/-- One more task that the second scheduler does not hold back may be left apart. -/
theorem widen (h : Twin R s s' tasks tasks') (hk : s.pending.find? k = none) :
    Twin (R ++ [k]) s s' tasks tasks' := by
  have hout : ∀ {j}, j ∉ R ++ [k] → j ∉ R := fun hj hin => hj (List.mem_append_left _ hin)
  have hwithout : ∀ l : Roster, l.without (R ++ [k]) = (l.without R).without [k] := by
    intro l
    unfold Roster.without
    rw [List.filter_filter]
    refine List.filter_congr fun x _ => ?_
    simp only [List.mem_append, not_or, Bool.decide_and]
    exact Bool.and_comm _ _
  refine ⟨h.stands, h.stands', ?_, h.sorted, h.sorted', fun j hj => h.contains j (hout hj),
    fun j hj => h.pending j (hout hj), h.kept, fun j hj => ?_⟩
  · rw [hwithout, hwithout, h.same]
  · by_cases hin : j ∈ R
    · exact h.absent j hin
    · rw [h.pending j hin, List.mem_singleton.mp ((List.mem_append.mp hj).resolve_left hin), hk]

end Twin

end Scheduler

end TiledTensor
