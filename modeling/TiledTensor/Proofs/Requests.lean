import TiledTensor.Proofs.Completion

/-!
# Histories of the graph

A graph is asked to insert tasks and to complete tasks, in any order, and is told of the completion
of tasks that it does not know or that still wait.  Which tasks are unfinished then follows from the
requests alone (`TaskGraph.unfinished`): an inserted task stays until it is said to be complete at a
time when no unfinished task before it conflicts with it.

Whatever it has been asked for, the graph contains exactly these tasks, and everything that it
answers is read off their list: which tasks wait for none, whether a new task can run at once, and
which tasks a completion sets free (`TaskGraph.Exact`).

Some of those who use a graph keep no such list.  They compare it with all the tasks ever inserted,
of which it stands for those that it still contains: `TaskGraph.Stands`.
-/

namespace TiledTensor

namespace Roster

/-- No task of the list that stands before `y` conflicts with it. -/
def Clear (live : Roster) (y : TaskId × List (HandleId × Access)) : Prop :=
  ∀ x, Before live x y → ¬Conflict x.2 y.2

instance (live : Roster) (y : TaskId × List (HandleId × Access)) : Decidable (live.Clear y) :=
  decidable_of_iff (∀ x ∈ live, Before live x y → ¬Conflict x.2 y.2)
    ⟨fun h x hxy => h x hxy.mem_left hxy, fun h x _ => h x⟩

/-- A task that is said to be complete leaves the unfinished tasks, unless one of those before it
conflicts with it. -/
def finish (live : Roster) (id : TaskId) : Roster :=
  live.filter fun y => decide ¬(y.1 = id ∧ live.Clear y)

variable {live : Roster} {y : TaskId × List (HandleId × Access)} {id : TaskId}

theorem mem_finish_iff : y ∈ live.finish id ↔ y ∈ live ∧ ¬(y.1 = id ∧ live.Clear y) := by
  rw [finish, List.mem_filter, decide_eq_true_iff]

theorem finish_sublist (live : Roster) (id : TaskId) : (live.finish id).Sublist live :=
  List.filter_sublist

theorem finish_eq_self (h : ∀ y ∈ live, y.1 = id → ¬live.Clear y) : live.finish id = live :=
  List.filter_eq_self.mpr fun y hy => decide_eq_true fun hc => h y hy hc.1 hc.2

end Roster

namespace TaskGraph

/-- What a graph can be asked for. -/
inductive Request
  | insert (id : TaskId) (accesses : List (HandleId × Access))
  | complete (id : TaskId)
  deriving DecidableEq

/-- The tasks that are inserted, in order. -/
def inserted : List Request → Roster
  | [] => []
  | .insert id accesses :: reqs => (id, accesses) :: inserted reqs
  | .complete _ :: reqs => inserted reqs

/-- The unfinished tasks in the order of insertion, when those of `live` were unfinished before. -/
def unfinishedFrom (live : Roster) : List Request → Roster
  | [] => live
  | .insert id accesses :: reqs => unfinishedFrom (live ++ [(id, accesses)]) reqs
  | .complete id :: reqs => unfinishedFrom (live.finish id) reqs

/-- The tasks that the requests leave unfinished, in the order of insertion. -/
def unfinished (reqs : List Request) : Roster := unfinishedFrom [] reqs

/-- Does what it is asked for, one request after the other. -/
def serve (g : TaskGraph) : List Request → Except Fault TaskGraph
  | [] => .ok g
  | .insert id accesses :: reqs => (g.insert id accesses).1.serve reqs
  | .complete id :: reqs =>
    match g.complete id with
    | .ok (g, _) => g.serve reqs
    | .error f => .error f

/-- What a graph answers when some tasks are unfinished, as a statement about the list of them. -/
structure Exact (g : TaskGraph) (live : Roster) : Prop where
  known : ∀ id, g.contains id = true ↔ id ∈ live.map (·.1)
  waiting : ∀ y ∈ live, g.waitingOf y.1 = 0 ↔ live.Clear y
  /-- A new task can run at once if it conflicts with no unfinished task; in any case it is in the
  graph from then on, and so are the others. -/
  insert : ∀ id accesses, id ∉ live.map (·.1) →
    ((g.insert id accesses).2 = true ↔ ∀ x ∈ live, ¬Conflict x.2 accesses) ∧
    ∀ j, (g.insert id accesses).1.contains j = true ↔ g.contains j = true ∨ j = id
  /-- A completion never faults, takes the task out unless it still waits, and lists every task that
  it sets free once, in the order of insertion. -/
  complete : ∀ id, ∃ g' ready, g.complete id = .ok (g', ready) ∧
    (∀ j, g'.contains j = true ↔ j ∈ (live.finish id).map (·.1)) ∧
    ready.Nodup ∧ ready.Sublist (live.map (·.1)) ∧
    ∀ y ∈ live, y.1 ∈ ready ↔ y ∈ live.finish id ∧ ¬live.Clear y ∧ (live.finish id).Clear y
  unmoved : ∀ id, g.contains id = false ∨ 0 < g.waitingOf id → g.complete id = .ok (g, [])

/-- No unfinished task that was inserted before `y` conflicts with it. -/
def Clear (g : TaskGraph) (tasks : Roster) (y : TaskId × List (HandleId × Access)) : Prop :=
  ∀ x, Before tasks x y → g.contains x.1 = true → ¬Conflict x.2 y.2

/-- The graph stands for those of the inserted tasks that it contains. -/
structure Stands (g : TaskGraph) (tasks : Roster) : Prop where
  nodup : (tasks.map (·.1)).Nodup
  tracks : g.Tracks (tasks.filter fun e => g.contains e.1)

variable {g : TaskGraph} {tasks : Roster} {id : TaskId} {accesses : List (HandleId × Access)}

/-- A completion that leaves the graph as it is. -/
theorem complete_unmoved (h : g.contains id = false ∨ 0 < g.waitingOf id) :
    g.complete id = .ok (g, []) := by
  rcases h with h | h
  · refine complete_of_notMem fun hmem => ?_
    rw [← Table.has_iff] at hmem
    exact absurd hmem (Bool.eq_false_iff.mp h)
  · exact complete_of_waiting h

/-- A completion leaves the graph as it is unless it is of a task that waits for none. -/
theorem unmoved_or_moves (g : TaskGraph) (id : TaskId) :
    (g.contains id = true ∧ g.waitingOf id = 0) ∨ g.contains id = false ∨ 0 < g.waitingOf id := by
  rcases Bool.eq_false_or_eq_true (g.contains id) with hc | hc
  · rcases Nat.eq_zero_or_pos (g.waitingOf id) with hw | hw
    · exact Or.inl ⟨hc, hw⟩
    · exact Or.inr (Or.inr hw)
  · exact Or.inr (Or.inl hc)

/-- A task that is inserted next is none of those before it. -/
theorem notMem_of_nodup {later : Roster}
    (hn : ((tasks ++ [(id, accesses)] ++ later).map (·.1)).Nodup) : id ∉ tasks.map (·.1) := by
  rw [List.map_append, List.map_append] at hn
  exact fun h => List.disjoint_of_nodup_append hn.of_append_left h List.mem_cons_self

/-- An inserted task is unfinished unless it has been said to be complete when no unfinished task
before it conflicted with it. -/
theorem mem_unfinishedFrom_iff {live : Roster} {reqs : List Request}
    {y : TaskId × List (HandleId × Access)} (hn : ((live ++ inserted reqs).map (·.1)).Nodup) :
    y ∈ unfinishedFrom live reqs ↔ (y ∈ live ∨ y ∈ inserted reqs) ∧
      ∀ earlier later, reqs = earlier ++ .complete y.1 :: later →
        y ∈ unfinishedFrom live earlier → ¬(unfinishedFrom live earlier).Clear y := by
  induction reqs generalizing live with
  | nil => simp [unfinishedFrom, inserted]
  | cons req reqs ih =>
    cases req with
    | insert id accesses =>
      rw [inserted, List.append_cons] at hn
      rw [unfinishedFrom, ih hn, inserted, List.mem_append, List.mem_singleton, List.mem_cons,
        or_assoc]
      apply and_congr_right
      rintro -
      constructor
      · rintro h (_ | ⟨_, earlier⟩) later heq
        · cases heq
        · obtain ⟨rfl, hreqs⟩ := List.cons.inj heq
          exact h earlier later hreqs
      · rintro h earlier later rfl
        exact h (.insert id accesses :: earlier) later rfl
    | complete id =>
      have hsub : (live.finish id ++ inserted reqs).Sublist (live ++ inserted reqs) :=
        (live.finish_sublist id).append_right _
      rw [unfinishedFrom, ih ((hsub.map _).nodup hn), inserted, Roster.mem_finish_iff]
      rw [inserted, List.map_append] at hn
      constructor
      · rintro ⟨hy, h⟩
        refine ⟨hy.imp_left And.left, ?_⟩
        rintro (_ | ⟨_, earlier⟩) later heq
        · -- the first request is the completion of `y`, which was unfinished before
          obtain ⟨hid, -⟩ := List.cons.inj heq
          intro hlive hclear
          rcases hy with ⟨-, hy⟩ | hy
          · exact hy ⟨(Request.complete.inj hid).symm, hclear⟩
          · exact List.disjoint_of_nodup_append hn (List.mem_map_of_mem hlive)
              (List.mem_map_of_mem hy)
        · obtain ⟨rfl, hreqs⟩ := List.cons.inj heq
          exact h earlier later hreqs
      · rintro ⟨hy, h⟩
        constructor
        · rcases hy with hy | hy
          · refine Or.inl ⟨hy, ?_⟩
            rintro ⟨rfl, hclear⟩
            exact h [] reqs rfl hy hclear
          · exact Or.inr hy
        · rintro earlier later rfl
          exact h (.complete id :: earlier) later rfl

/-- A task that is not said to be complete stays. -/
theorem mem_unfinished_of_not_completed {reqs : List Request}
    {y : TaskId × List (HandleId × Access)} (hn : ((inserted reqs).map (·.1)).Nodup)
    (hy : y ∈ inserted reqs) (hreq : .complete y.1 ∉ reqs) : y ∈ unfinished reqs := by
  apply (mem_unfinishedFrom_iff hn).mpr
  refine ⟨Or.inr hy, ?_⟩
  rintro earlier later rfl
  exact absurd (List.mem_append_right earlier List.mem_cons_self) hreq

theorem stands_empty : Stands {} [] := ⟨List.nodup_nil, tracks_empty⟩

namespace Stands

theorem mem_ids (hg : g.Stands tasks) (h : g.contains id = true) : id ∈ tasks.map (·.1) := by
  obtain ⟨e, he, rfl⟩ := hg.tracks.mem_ids_iff.mp (Table.has_iff.mp h)
  exact List.mem_map_of_mem (List.mem_of_mem_filter he)

/-- A task of the graph waits for none exactly if nothing is in its way. -/
theorem waitingOf_eq_zero_iff (hg : g.Stands tasks) {y : TaskId × List (HandleId × Access)}
    (hy : y ∈ tasks) (hc : g.contains y.1 = true) : g.waitingOf y.1 = 0 ↔ g.Clear tasks y := by
  rw [hg.tracks.waitingOf_eq_zero_iff (List.mem_filter.mpr ⟨hy, hc⟩)]
  constructor
  · intro h x hxy hx
    exact h x (Before.filter_iff.mpr ⟨hxy, hx, hc⟩)
  · intro h x hxy
    obtain ⟨hxy, hx, -⟩ := Before.filter_iff.mp hxy
    exact h x hxy hx

/-- A task that waits for none goes on to wait for none when others leave. -/
theorem waitingOf_eq_zero_mono {g' : TaskGraph} (hg : g.Stands tasks) (hg' : g'.Stands tasks)
    (hsub : ∀ j, g'.contains j = true → g.contains j = true) (hc : g'.contains id = true)
    (hw : g.waitingOf id = 0) : g'.waitingOf id = 0 := by
  obtain ⟨y, hy, rfl⟩ := List.mem_map.mp (hg.mem_ids (hsub _ hc))
  rw [hg.waitingOf_eq_zero_iff hy (hsub _ hc)] at hw
  rw [hg'.waitingOf_eq_zero_iff hy hc]
  intro x hxy hx
  exact hw x hxy (hsub _ hx)

theorem tracks_insert (hg : g.Stands tasks) (hid : id ∉ tasks.map (·.1)) :
    (g.insert id accesses).1.Tracks ((tasks.filter fun e => g.contains e.1) ++ [(id, accesses)]) :=
  hg.tracks.insert fun h => hid ((List.filter_sublist.map _).subset h)

theorem contains_insert (hg : g.Stands tasks) (hid : id ∉ tasks.map (·.1)) (j : TaskId) :
    (g.insert id accesses).1.contains j = true ↔ g.contains j = true ∨ j = id := by
  rw [contains, contains, Table.has_iff, Table.has_iff, (hg.tracks_insert hid).keys, hg.tracks.keys,
    List.map_append, List.mem_append, List.map_singleton, List.mem_singleton]

/-- A new task can run at once if it conflicts with no task that is still there. -/
theorem insert_ready_iff (hg : g.Stands tasks) (hid : id ∉ tasks.map (·.1)) :
    (g.insert id accesses).2 = true ↔
      ∀ x ∈ tasks, g.contains x.1 = true → ¬Conflict x.2 accesses := by
  rw [hg.tracks.insert_ready_iff fun h => hid ((List.filter_sublist.map _).subset h)]
  constructor
  · intro h x hx hc
    exact h x (List.mem_filter.mpr ⟨hx, hc⟩)
  · intro h x hx
    obtain ⟨hx, hc⟩ := List.mem_filter.mp hx
    exact h x hx hc

/-- A new task goes to the end. -/
theorem insert (hg : g.Stands tasks) (hid : id ∉ tasks.map (·.1)) :
    (g.insert id accesses).1.Stands (tasks ++ [(id, accesses)]) := by
  have hcontains : ∀ j, (g.insert id accesses).1.contains j = true ↔ g.contains j = true ∨ j = id :=
    hg.contains_insert hid
  refine ⟨?_, ?_⟩
  · rw [List.map_append, List.map_singleton]
    exact hg.nodup.append (List.nodup_singleton _) (List.disjoint_singleton.mpr hid)
  · have hold : (tasks.filter fun e => (g.insert id accesses).1.contains e.1) =
        tasks.filter fun e => g.contains e.1 := by
      refine List.filter_congr fun e he => ?_
      have hne : e.1 ≠ id := fun h => hid (h ▸ List.mem_map_of_mem he)
      rw [Bool.eq_iff_iff, hcontains]
      exact or_iff_left hne
    have hnew : ([(id, accesses)].filter fun e => (g.insert id accesses).1.contains e.1) =
        [(id, accesses)] :=
      List.filter_cons_of_pos (by simp [hcontains])
    rw [List.filter_append, hold, hnew]
    exact hg.tracks_insert hid

/-- Completing a task that waits for none takes it out, and sets free the tasks that nothing else is
in the way of. -/
theorem complete (hg : g.Stands tasks) (hc : g.contains id = true) (hw : g.waitingOf id = 0) :
    ∃ g' ready, g.complete id = .ok (g', ready) ∧ g'.Stands tasks ∧
      (∀ j, g'.contains j = true ↔ g.contains j = true ∧ j ≠ id) ∧
      ready.Sublist (tasks.map (·.1)) ∧
      ∀ j, j ∈ ready ↔ g'.contains j = true ∧ g.waitingOf j ≠ 0 ∧ g'.waitingOf j = 0 := by
  obtain ⟨e, he, rfl⟩ := hg.tracks.mem_ids_iff.mp (Table.has_iff.mp hc)
  obtain ⟨g', ready, hok, htracks, hsub, hbefore, hzero⟩ := hg.tracks.complete he hw
  have hcontains : ∀ j, g'.contains j = true ↔ g.contains j = true ∧ j ≠ e.1 := by
    intro j
    rw [contains, contains, Table.has_iff, Table.has_iff, htracks.mem_ids_iff, hg.tracks.mem_ids_iff]
    constructor
    · rintro ⟨x, hx, rfl⟩
      obtain ⟨hx, hne⟩ := List.mem_filter.mp hx
      exact ⟨⟨x, hx, rfl⟩, of_decide_eq_true hne⟩
    · rintro ⟨⟨x, hx, rfl⟩, hne⟩
      exact ⟨x, List.mem_filter.mpr ⟨hx, decide_eq_true hne⟩, rfl⟩
  refine ⟨g', ready, hok, ⟨hg.nodup, ?_⟩, hcontains, hsub.trans (List.filter_sublist.map _), fun j => ?_⟩
  · have hfilter : (tasks.filter fun x => g'.contains x.1) =
        (tasks.filter fun x => g.contains x.1).filter fun x => decide (x.1 ≠ e.1) := by
      rw [List.filter_filter]
      refine List.filter_congr fun x _ => ?_
      rw [Bool.eq_iff_iff, hcontains, Bool.and_eq_true, decide_eq_true_iff, and_comm]
    rw [hfilter]
    exact htracks
  · constructor
    · intro hj
      obtain ⟨hne, hpos⟩ := hbefore j hj
      have hin : g.contains j = true := Table.has_iff.mpr (hg.tracks.keys ▸ hsub.subset hj)
      exact ⟨(hcontains j).mpr ⟨hin, hne⟩, Nat.ne_of_gt hpos, (hzero j hne).mpr (Or.inr hj)⟩
    · rintro ⟨hin, hwaits, hfree⟩
      exact ((hzero j ((hcontains j).mp hin).2).mp hfree).resolve_left hwaits

/-- Whatever task is said to be complete, the graph goes on to stand for the inserted tasks. -/
theorem exists_complete (hg : g.Stands tasks) (id : TaskId) :
    ∃ g' ready, g.complete id = .ok (g', ready) ∧ g'.Stands tasks ∧
      (∀ j, g'.contains j = true ↔ g.contains j = true ∧ ¬(j = id ∧ g.waitingOf id = 0)) ∧
      ready.Sublist (tasks.map (·.1)) ∧
      ∀ j, j ∈ ready ↔ g'.contains j = true ∧ g.waitingOf j ≠ 0 ∧ g'.waitingOf j = 0 := by
  rcases g.unmoved_or_moves id with ⟨hc, hw⟩ | hstay
  · obtain ⟨g', ready, hok, hg', hcontains, hsub, hready⟩ := hg.complete hc hw
    refine ⟨g', ready, hok, hg', fun j => ?_, hsub, hready⟩
    rw [hcontains]
    simp [hw]
  · refine ⟨g, [], complete_unmoved hstay, hg, fun j => ?_, List.nil_sublist _, fun j => ?_⟩
    · refine (and_iff_left_of_imp ?_).symm
      rintro hj ⟨rfl, hw⟩
      rcases hstay with hc | hpos
      · exact absurd hj (Bool.eq_false_iff.mp hc)
      · exact absurd hw (Nat.ne_of_gt hpos)
    · exact iff_of_false List.not_mem_nil fun h => h.2.1 h.2.2

end Stands

namespace Tracks

variable {live : Roster} {g' : TaskGraph} {ready : List TaskId}

theorem contains_iff (hg : g.Tracks live) : g.contains id = true ↔ id ∈ live.map (·.1) := by
  rw [contains, Table.has_iff, hg.keys]

theorem contains_of_mem (hg : g.Tracks live) {y : TaskId × List (HandleId × Access)}
    (hy : y ∈ live) : g.contains y.1 = true :=
  hg.contains_iff.mpr (List.mem_map_of_mem hy)

theorem contains_insert (hg : g.Tracks live) (hid : id ∉ live.map (·.1)) (j : TaskId) :
    (g.insert id accesses).1.contains j = true ↔ g.contains j = true ∨ j = id := by
  rw [(hg.insert hid).contains_iff, hg.contains_iff, List.map_append, List.mem_append,
    List.map_singleton, List.mem_singleton]

/-- Of a task that no unfinished task before it conflicts with nothing is left. -/
theorem finish_eq (hg : g.Tracks live) {y : TaskId × List (HandleId × Access)} (hy : y ∈ live)
    (hclear : live.Clear y) : live.finish y.1 = live.filter fun x => decide (x.1 ≠ y.1) := by
  apply List.filter_congr
  intro x hx
  rw [decide_eq_decide, Ne, not_iff_not, and_iff_left_iff_imp]
  intro hxy
  obtain rfl := Roster.eq_of_id_eq hg.nodup hx hy hxy
  exact hclear

/-- Whatever task is said to be complete, the graph stands for those that are left then, and the
answer lists those of them that have waited before and wait no more. -/
theorem exists_finish (hg : g.Tracks live) (id : TaskId) :
    ∃ g' ready, g.complete id = .ok (g', ready) ∧ g'.Tracks (live.finish id) ∧
      ready.Sublist (live.map (·.1)) ∧
      ∀ y ∈ live, y.1 ∈ ready ↔ y ∈ live.finish id ∧ g.waitingOf y.1 ≠ 0 ∧ g'.waitingOf y.1 = 0 := by
  rcases g.unmoved_or_moves id with ⟨hc, hw⟩ | hstay
  · obtain ⟨e, he, rfl⟩ := List.mem_map.mp (hg.contains_iff.mp hc)
    obtain ⟨g', ready, hok, htracks, hsub, hbefore, hzero⟩ := hg.complete he hw
    rw [← hg.finish_eq he ((hg.waitingOf_eq_zero_iff he).mp hw)] at htracks
    refine ⟨g', ready, hok, htracks, hsub, fun y hy => ?_⟩
    have hleft : y ∈ live.finish e.1 ↔ y.1 ≠ e.1 := by
      rw [hg.finish_eq he ((hg.waitingOf_eq_zero_iff he).mp hw), List.mem_filter,
        decide_eq_true_iff]
      exact and_iff_right hy
    rw [hleft]
    constructor
    · intro hready
      obtain ⟨hne, hpos⟩ := hbefore y.1 hready
      exact ⟨hne, Nat.ne_of_gt hpos, (hzero y.1 hne).mpr (Or.inr hready)⟩
    · rintro ⟨hne, hwaits, hfree⟩
      exact ((hzero y.1 hne).mp hfree).resolve_left hwaits
  · have hself : live.finish id = live := by
      apply Roster.finish_eq_self
      rintro y hy rfl hclear
      rcases hstay with hc | hpos
      · exact absurd (hg.contains_of_mem hy) (Bool.eq_false_iff.mp hc)
      · exact Nat.ne_of_gt hpos ((hg.waitingOf_eq_zero_iff hy).mpr hclear)
    refine ⟨g, [], complete_unmoved hstay, ?_, List.nil_sublist _, fun y _ => ?_⟩
    · rwa [hself]
    · exact iff_of_false List.not_mem_nil fun h => h.2.1 h.2.2

/-- A graph that stands for the unfinished tasks answers exactly. -/
theorem exact (hg : g.Tracks live) : g.Exact live where
  known id := hg.contains_iff
  waiting y hy := hg.waitingOf_eq_zero_iff hy
  insert id accesses hid := ⟨hg.insert_ready_iff hid, hg.contains_insert hid⟩
  complete id := by
    obtain ⟨g', ready, hok, hg', hsub, hready⟩ := hg.exists_finish id
    refine ⟨g', ready, hok, fun j => hg'.contains_iff, hsub.nodup hg.nodup, hsub, fun y hy => ?_⟩
    rw [hready y hy]
    apply and_congr_right
    intro hleft
    rw [Ne, hg.waitingOf_eq_zero_iff hy, hg'.waitingOf_eq_zero_iff hleft]
    rfl
  unmoved id := complete_unmoved

/-- Whatever is asked for, the graph stands for the tasks that are unfinished then. -/
theorem serve (hg : g.Tracks live) (reqs : List Request)
    (hn : ((live ++ inserted reqs).map (·.1)).Nodup) :
    ∃ g', g.serve reqs = .ok g' ∧ g'.Tracks (unfinishedFrom live reqs) := by
  induction reqs generalizing g live with
  | nil => exact ⟨g, rfl, hg⟩
  | cons req reqs ih =>
    cases req with
    | insert id accesses =>
      rw [inserted, List.append_cons] at hn
      exact ih (hg.insert (notMem_of_nodup hn)) hn
    | complete id =>
      obtain ⟨g', ready, hok, hg', -⟩ := hg.exists_finish id
      rw [TaskGraph.serve, hok]
      have hsub : (live.finish id ++ inserted reqs).Sublist (live ++ inserted reqs) :=
        (live.finish_sublist id).append_right _
      exact ih hg' ((hsub.map _).nodup hn)

end Tracks

/-- However tasks with distinct numbers are inserted and whatever completions are reported, the
graph does not fault and answers exactly as the tasks that are unfinished then say. -/
theorem serve_answers_exactly (reqs : List Request) (hn : ((inserted reqs).map (·.1)).Nodup) :
    ∃ g, serve {} reqs = .ok g ∧ g.Exact (unfinished reqs) := by
  obtain ⟨g, hok, hg⟩ := tracks_empty.serve reqs hn
  exact ⟨g, hok, hg.exact⟩

/-- A task reads and updates the same buffer behind a reader of it, in front of another reader, and
is said to be complete too early.  The first reader finishes; then the task waits for none, the
second reader waits for it, and so does whoever reads the buffer next. -/
theorem serve_answers_exactly_of_reuse :
    ((inserted [.insert 3 [(0, .read)], .insert 1 [(0, .read), (0, .readWrite), (1, .scratch)],
      .complete 7, .insert 2 [(0, .read)], .complete 1, .complete 3]).map (·.1)).Nodup ∧
    ∃ g, serve {} [.insert 3 [(0, .read)], .insert 1 [(0, .read), (0, .readWrite), (1, .scratch)],
      .complete 7, .insert 2 [(0, .read)], .complete 1, .complete 3] = .ok g ∧
      g.Exact [(1, [(0, .read), (0, .readWrite), (1, .scratch)]), (2, [(0, .read)])] ∧
      g.contains 3 = false ∧ g.contains 1 = true ∧ g.waitingOf 1 = 0 ∧ g.waitingOf 2 ≠ 0 ∧
      (g.insert 4 [(0, .read)]).2 = false ∧ (g.insert 4 [(0, .read)]).1.contains 4 = true ∧
      (g.insert 4 [(1, .write)]).2 = true ∧ (g.insert 4 [(1, .write)]).1.contains 4 = true := by
  have hn : ((inserted [.insert 3 [(0, .read)],
      .insert 1 [(0, .read), (0, .readWrite), (1, .scratch)], .complete 7, .insert 2 [(0, .read)],
      .complete 1, .complete 3]).map (·.1)).Nodup := by decide
  obtain ⟨g, hok, hg⟩ := serve_answers_exactly _ hn
  have hleft : unfinished [.insert 3 [(0, .read)],
      .insert 1 [(0, .read), (0, .readWrite), (1, .scratch)], .complete 7, .insert 2 [(0, .read)],
      .complete 1, .complete 3] =
      [(1, [(0, .read), (0, .readWrite), (1, .scratch)]), (2, [(0, .read)])] := by decide
  rw [hleft] at hg
  obtain ⟨hreads, hreader⟩ := hg.insert 4 [(0, .read)] (by decide)
  obtain ⟨hwrites, hwriter⟩ := hg.insert 4 [(1, .write)] (by decide)
  refine ⟨hn, g, hok, hg, ?_, ?_, ?_, ?_, ?_, ?_, ?_, ?_⟩
  · rw [← Bool.not_eq_true, hg.known]
    decide
  · rw [hg.known]
    decide
  · rw [hg.waiting (1, [(0, .read), (0, .readWrite), (1, .scratch)]) (by decide)]
    decide
  · rw [Ne, hg.waiting (2, [(0, .read)]) (by decide)]
    decide
  · rw [← Bool.not_eq_true, hreads]
    decide
  · exact (hreader 4).mpr (Or.inr rfl)
  · rw [hwrites]
    decide
  · exact (hwriter 4).mpr (Or.inr rfl)

end TaskGraph

end TiledTensor
