import Mathlib.Data.List.Perm.Subperm
import TiledTensor.Proofs.Requests

/-!
# Nothing stale stays in the graph

The usage table is kept by many hands: a later writer supersedes the users of a buffer, a task may
enter the same buffer several times, and a finished task removes what is left of it.  Whatever a
graph has been asked for, its tables then speak of the tasks that the requests leave unfinished and
of no other: `TaskGraph.Tidy`.

That the graph stands for its unfinished tasks says what is found under each buffer.  The rest is
that each buffer has one entry only, which every request keeps.
-/

namespace TiledTensor.TaskGraph

variable {g g' : TaskGraph} {live : Roster} {id : TaskId} {usage : Table HandleId Usage}

/-! ## One entry for each buffer -/

theorem nodup_keys_record (hn : usage.keys.Nodup) (id : TaskId)
    (accesses : List (HandleId × Access)) : (record id usage accesses).2.keys.Nodup := by
  induction accesses generalizing usage with
  | nil => exact hn
  | cons e accesses ih =>
    obtain ⟨h, a⟩ := e
    cases a with
    | scratch => exact ih hn
    | read => exact ih (Table.nodup_keys_put hn h _)
    | write => exact ih (Table.nodup_keys_put hn h _)
    | readWrite => exact ih (Table.nodup_keys_put hn h _)

theorem nodup_keys_release (hn : usage.keys.Nodup) (id : TaskId) (h : HandleId) :
    (release id usage h).keys.Nodup := by
  cases hu : usage.find? h with
  | none =>
    unfold release
    rw [hu]
    exact hn
  | some u =>
    rw [release_of_some hu]
    split
    · exact Table.nodup_keys_erase hn h
    · exact Table.nodup_keys_put hn h _

theorem nodup_keys_foldl_release (hn : usage.keys.Nodup) (id : TaskId) (hs : List HandleId) :
    (hs.foldl (release id) usage).keys.Nodup := by
  induction hs generalizing usage with
  | nil => exact hn
  | cons h hs ih => exact ih (nodup_keys_release hn id h)

theorem nodup_keys_complete {ready : List TaskId} (hn : g.usage.keys.Nodup)
    (h : g.complete id = .ok (g', ready)) : g'.usage.keys.Nodup := by
  unfold complete at h
  split at h
  · rename_i dependents handles hf
    cases ha : awaken (g.nodes.erase id) dependents with
    | error f =>
      rw [ha] at h
      cases h
    | ok woken =>
      rw [ha] at h
      cases h
      exact nodup_keys_foldl_release hn id _
  · cases h
    exact hn

theorem nodup_keys_serve (hn : g.usage.keys.Nodup) (reqs : List Request)
    (h : g.serve reqs = .ok g') : g'.usage.keys.Nodup := by
  induction reqs generalizing g with
  | nil =>
    cases h
    exact hn
  | cons req reqs ih =>
    cases req with
    | insert id accesses => exact ih (nodup_keys_record hn id accesses) h
    | complete id =>
      rw [serve] at h
      split at h
      · rename_i g₁ ready hok
        exact ih (nodup_keys_complete hn hok) h
      · cases h

/-! ## Both tables -/

/-- Users that are recorded at all are a writer or a reader. -/
theorem Usage.exists_user_of_ne_empty {u : Usage} (hne : u ≠ {}) :
    ∃ id, u.writer = some id ∨ id ∈ u.readers := by
  obtain ⟨writer, readers⟩ := u
  cases writer with
  | some id => exact ⟨id, Or.inl rfl⟩
  | none =>
    cases readers with
    | nil => exact absurd rfl hne
    | cons id readers => exact ⟨id, Or.inr List.mem_cons_self⟩

/-- The tables speak of the unfinished tasks only, and the counters are those of the edges. -/
structure Tidy (g : TaskGraph) (live : Roster) : Prop where
  /-- There is one node for each unfinished task and no other. -/
  nodes : g.nodes.keys = live.map (·.1) ∧ g.nodes.keys.Nodup
  /-- The node of a task lists the buffers that the task uses. -/
  handles : ∀ id n, (id, n) ∈ g.nodes →
    ∃ accesses, (id, accesses) ∈ live ∧ n.handles = touched accesses
  keys : g.usage.keys.Nodup
  /-- Whoever is recorded with a buffer is unfinished and uses the buffer. -/
  users : ∀ h u, (h, u) ∈ g.usage → ∀ id, u.writer = some id ∨ id ∈ u.readers →
    ∃ accesses, (id, accesses) ∈ live ∧ h ∈ touched accesses
  used : ∀ h u, (h, u) ∈ g.usage → ∃ id, u.writer = some id ∨ id ∈ u.readers
  /-- A buffer that an unfinished task uses has an entry. -/
  entered : ∀ y ∈ live, ∀ h ∈ touched y.2, h ∈ g.usage.keys
  dependents : ∀ id n, (id, n) ∈ g.nodes → n.dependents.Nodup ∧
    ∀ d ∈ n.dependents, Before (live.map (·.1)) id d
  waiting : ∀ id n, (id, n) ∈ g.nodes →
    n.waiting = g.nodes.countP fun e => decide (id ∈ e.2.dependents)
  /-- There are no more entries than buffers that the unfinished tasks use. -/
  bounded : g.usage.length ≤ (live.flatMap fun y => touched y.2).length
  empty : g.isEmpty = true → g.usage = []

namespace Tracks

variable {n : Node} {h : HandleId} {u : Usage}

theorem nodup_nodes (hg : g.Tracks live) : g.nodes.keys.Nodup := hg.keys ▸ hg.nodup

theorem dependentsOf_eq (hg : g.Tracks live) (hn : (id, n) ∈ g.nodes) :
    g.dependentsOf id = n.dependents := by
  rw [dependentsOf, (Table.find?_eq_some_iff hg.nodup_nodes).mpr hn]

theorem waitingOf_eq (hg : g.Tracks live) (hn : (id, n) ∈ g.nodes) : g.waitingOf id = n.waiting := by
  rw [waitingOf, (Table.find?_eq_some_iff hg.nodup_nodes).mpr hn]

/-- A node is that of an unfinished task. -/
theorem exists_task (hg : g.Tracks live) (hn : (id, n) ∈ g.nodes) :
    ∃ accesses, (id, accesses) ∈ live ∧ n.handles = touched accesses := by
  have hid : id ∈ g.nodes.keys := List.mem_map_of_mem hn
  obtain ⟨⟨j, accesses⟩, he, rfl⟩ := hg.mem_ids_iff.mp hid
  exact ⟨accesses, he, hg.handles _ he n ((Table.find?_eq_some_iff hg.nodup_nodes).mpr hn)⟩

/-- What is found under a buffer is what the unfinished tasks leave of it. -/
theorem entry_of_mem (hg : g.Tracks live) (hk : g.usage.keys.Nodup) (hu : (h, u) ∈ g.usage) :
    Usage.of h live = u ∧ u ≠ {} := by
  have hentry := hg.usage h
  rw [(Table.find?_eq_some_iff hk).mpr hu, Usage.entry] at hentry
  split at hentry
  · cases hentry
  · rename_i hne
    obtain rfl := Option.some.inj hentry
    exact ⟨rfl, hne⟩

/-- Whoever is recorded with a buffer is an unfinished task that uses it. -/
theorem exists_user (hg : g.Tracks live) (hk : g.usage.keys.Nodup) (hu : (h, u) ∈ g.usage)
    (hid : u.writer = some id ∨ id ∈ u.readers) :
    ∃ accesses, (id, accesses) ∈ live ∧ h ∈ touched accesses := by
  obtain ⟨rfl, -⟩ := hg.entry_of_mem hk hu
  have huser : ∃ y ∈ live, y.1 = id ∧ ∃ a, (h, a) ∈ y.2 ∧ a ≠ .scratch := by
    rcases hid with hid | hid
    · obtain ⟨y, hy, hyid, a, ha, hw⟩ := Usage.exists_of_writer hid
      exact ⟨y, hy, hyid, a, ha, Access.ne_scratch_of_writes hw⟩
    · exact Usage.exists_of_mem_readers hid
  obtain ⟨y, hy, rfl, huses⟩ := huser
  exact ⟨y.2, hy, mem_touched_iff.mpr huses⟩

/-- A buffer that an unfinished task uses has an entry: of the task, or of a writer behind it. -/
theorem mem_keys_usage (hg : g.Tracks live) {y : TaskId × List (HandleId × Access)} (hy : y ∈ live)
    (hh : h ∈ touched y.2) : h ∈ g.usage.keys := by
  obtain ⟨a, ha, hs⟩ := mem_touched_iff.mp hh
  -- the user itself may have been superseded, but then there is the writer that did so
  have hne : Usage.of h live ≠ {} := by
    intro hempty
    rcases Usage.reader_or_writer hy ha hs with hr | ⟨z, -, hw, -⟩
    · rw [hempty] at hr
      cases hr
    · rw [hempty] at hw
      cases hw
  have hentry := hg.usage h
  rw [Usage.entry, if_neg hne] at hentry
  exact Table.mem_keys_of_find? hentry

/-- A dependent is an unfinished task that was inserted later. -/
theorem later_of_mem_dependents (hg : g.Tracks live) (hn : (id, n) ∈ g.nodes) {d : TaskId}
    (hd : d ∈ n.dependents) : Before (live.map (·.1)) id d := by
  obtain ⟨accesses, he, -⟩ := hg.exists_task hn
  rw [← hg.dependentsOf_eq hn] at hd
  obtain ⟨y, rfl, hbefore, -⟩ := hg.edge _ he d hd
  exact hbefore.map (·.1)

/-- The counter of a task is the number of nodes that list it. -/
theorem waiting_eq (hg : g.Tracks live) (hn : (id, n) ∈ g.nodes) :
    n.waiting = g.nodes.countP fun e => decide (id ∈ e.2.dependents) := by
  obtain ⟨accesses, he, -⟩ := hg.exists_task hn
  calc n.waiting
      = live.countP fun e => decide (id ∈ g.dependentsOf e.1) := by
        rw [← hg.waitingOf_eq hn, hg.waiting _ he]
    _ = g.nodes.keys.countP fun j => decide (id ∈ g.dependentsOf j) := by
        rw [hg.keys, List.countP_map]
        rfl
    _ = g.nodes.countP fun e => decide (id ∈ g.dependentsOf e.1) := by
        rw [Table.keys, List.countP_map]
        rfl
    _ = g.nodes.countP fun e => decide (id ∈ e.2.dependents) :=
        List.countP_congr fun e he => by rw [hg.dependentsOf_eq he]

/-- Every entry is under a buffer that an unfinished task uses, and no two are under the same. -/
theorem length_usage_le (hg : g.Tracks live) (hk : g.usage.keys.Nodup) :
    g.usage.length ≤ (live.flatMap fun y => touched y.2).length := by
  have hsub : g.usage.keys ⊆ live.flatMap fun y => touched y.2 := by
    intro h hh
    obtain ⟨⟨h, u⟩, hu, rfl⟩ := List.mem_map.mp hh
    obtain ⟨-, hne⟩ := hg.entry_of_mem hk hu
    obtain ⟨id, hid⟩ := Usage.exists_user_of_ne_empty hne
    obtain ⟨accesses, he, hmem⟩ := hg.exists_user hk hu hid
    exact List.mem_flatMap.mpr ⟨_, he, hmem⟩
  calc g.usage.length = g.usage.keys.length := (List.length_map _).symm
    _ ≤ _ := (hk.subperm hsub).length_le

theorem tidy (hg : g.Tracks live) (hk : g.usage.keys.Nodup) : g.Tidy live where
  nodes := ⟨hg.keys, hg.nodup_nodes⟩
  handles id n hn := hg.exists_task hn
  keys := hk
  users h u hu id hid := hg.exists_user hk hu hid
  used h u hu := Usage.exists_user_of_ne_empty (hg.entry_of_mem hk hu).2
  entered y hy h hh := hg.mem_keys_usage hy hh
  dependents id n hn := by
    refine ⟨?_, fun d hd => hg.later_of_mem_dependents hn hd⟩
    rw [← hg.dependentsOf_eq hn]
    exact (hg.later id).nodup hg.nodup
  waiting id n hn := hg.waiting_eq hn
  bounded := hg.length_usage_le hk
  empty he := by
    have hle := hg.length_usage_le hk
    rw [hg.isEmpty_iff.mp he, List.flatMap_nil, List.length_nil, Nat.le_zero] at hle
    exact List.length_eq_zero_iff.mp hle

end Tracks

/-- A graph whose tables are tidy contains the unfinished tasks and no other. -/
theorem Tidy.contains_iff (hg : g.Tidy live) : g.contains id = true ↔ id ∈ live.map (·.1) := by
  rw [contains, Table.has_iff, hg.nodes.1]

/-- However tasks with distinct numbers are inserted and whatever completions are reported, the
tables speak of the unfinished tasks and nothing stale stays in them; a task that is not said to be
complete is among these. -/
theorem serve_keeps_tidy (reqs : List Request) (hn : ((inserted reqs).map (·.1)).Nodup) :
    ∃ g, serve {} reqs = .ok g ∧ g.Tidy (unfinished reqs) ∧
      ∀ y ∈ inserted reqs, .complete y.1 ∉ reqs → y ∈ unfinished reqs := by
  obtain ⟨g, hok, hg⟩ := tracks_empty.serve reqs hn
  have hempty : ({} : TaskGraph).usage.keys.Nodup := List.nodup_nil
  refine ⟨g, hok, hg.tidy (nodup_keys_serve hempty reqs hok), fun y hy hreq => ?_⟩
  exact mem_unfinished_of_not_completed hn hy hreq

/-- A task enters the buffer of an unfinished writer twice and is said to be complete too early, so
that it stays when the writer is finished; of the writer nothing is left, though the buffers that it
used are still in use. -/
theorem serve_keeps_tidy_of_overtaken :
    ((inserted [.insert 5 [(0, .write), (1, .write)],
      .insert 2 [(0, .read), (0, .readWrite), (2, .scratch)], .complete 2, .insert 9 [(1, .read)],
      .complete 5]).map (·.1)).Nodup ∧
    ∃ g, serve {} [.insert 5 [(0, .write), (1, .write)],
      .insert 2 [(0, .read), (0, .readWrite), (2, .scratch)], .complete 2, .insert 9 [(1, .read)],
      .complete 5] = .ok g ∧
      g.Tidy [(2, [(0, .read), (0, .readWrite), (2, .scratch)]), (9, [(1, .read)])] ∧
      g.contains 5 = false ∧ g.contains 2 = true ∧ g.contains 9 = true ∧
      g.usage.keys.Perm [0, 1] ∧
      ∀ h u, (h, u) ∈ g.usage → u.writer ≠ some 5 ∧ 5 ∉ u.readers := by
  have hn : ((inserted [.insert 5 [(0, .write), (1, .write)],
      .insert 2 [(0, .read), (0, .readWrite), (2, .scratch)], .complete 2, .insert 9 [(1, .read)],
      .complete 5]).map (·.1)).Nodup := by decide
  obtain ⟨g, hok, htidy, -⟩ := serve_keeps_tidy _ hn
  have hleft : unfinished [.insert 5 [(0, .write), (1, .write)],
      .insert 2 [(0, .read), (0, .readWrite), (2, .scratch)], .complete 2, .insert 9 [(1, .read)],
      .complete 5] = [(2, [(0, .read), (0, .readWrite), (2, .scratch)]), (9, [(1, .read)])] := by
    decide
  rw [hleft] at htidy
  have hgone : ∀ h u, (h, u) ∈ g.usage → ¬(u.writer = some 5 ∨ 5 ∈ u.readers) := by
    intro h u hu hid
    obtain ⟨accesses, hmem, -⟩ := htidy.users h u hu 5 hid
    simp at hmem
  refine ⟨hn, g, hok, htidy, ?_, ?_, ?_, ?_, fun h u hu => not_or.mp (hgone h u hu)⟩
  · rw [← Bool.not_eq_true, htidy.contains_iff]
    decide
  · rw [htidy.contains_iff]
    decide
  · rw [htidy.contains_iff]
    decide
  · have hused : ∀ h ∈ [0, 1], h ∈ g.usage.keys := by
      intro h hh
      rcases List.mem_cons.mp hh with rfl | hh
      · exact htidy.entered _ List.mem_cons_self 0 (by decide)
      · obtain rfl := List.mem_singleton.mp hh
        exact htidy.entered (9, [(1, .read)]) (by decide) 1 (by decide)
    have hsub : g.usage.keys ⊆ [0, 1] := by
      intro h hh
      obtain ⟨⟨h, u⟩, hu, rfl⟩ := List.mem_map.mp hh
      obtain ⟨id, hid⟩ := htidy.used h u hu
      obtain ⟨accesses, hmem, huses⟩ := htidy.users h u hu id hid
      have hall : ∀ k ∈ [(2, [(0, .read), (0, .readWrite), (2, .scratch)]),
          (9, [(1, .read)])].flatMap (fun y : TaskId × List (HandleId × Access) => touched y.2),
          k ∈ [0, 1] := by decide
      exact hall h (List.mem_flatMap.mpr ⟨_, hmem, huses⟩)
    exact (List.perm_ext_iff_of_nodup htidy.keys (by decide)).mpr
      fun h => ⟨fun hh => hsub hh, hused h⟩

end TiledTensor.TaskGraph
