import TiledTensor.Proofs.Conflict

/-!
# The graph is exact about readiness

`TaskGraph.Tracks g roster` says that a graph stands for the unfinished tasks of a roster: the usage
table is what the roster leaves of it, every edge joins two conflicting tasks in their order, and
every conflict is *covered*, that is the later task waits for the earlier one or for one between
them that conflicts with the earlier one.

Inserting a task and completing one that waits for none keep this relation, and from it a task waits
for none exactly if no earlier unfinished task conflicts with it (`Tracks.waitingOf_eq_zero_iff`).
-/

namespace TiledTensor

namespace TaskGraph

/-- The tasks that wait for a task. -/
def dependentsOf (g : TaskGraph) (id : TaskId) : List TaskId :=
  match g.nodes.find? id with
  | some n => n.dependents
  | none => []

/-- Number of unfinished tasks that a task waits for. -/
def waitingOf (g : TaskGraph) (id : TaskId) : Nat :=
  match g.nodes.find? id with
  | some n => n.waiting
  | none => 0

/-- The graph stands for the unfinished tasks of a roster. -/
structure Tracks (g : TaskGraph) (roster : Roster) : Prop where
  nodup : (roster.map (·.1)).Nodup
  keys : g.nodes.keys = roster.map (·.1)
  handles : ∀ e ∈ roster, ∀ n, g.nodes.find? e.1 = some n → n.handles = touched e.2
  usage : ∀ h, g.usage.find? h = (Usage.of h roster).entry
  /-- Dependents are listed once each and in the order of insertion. -/
  later : ∀ id, (g.dependentsOf id).Sublist (roster.map (·.1))
  edge : ∀ x ∈ roster, ∀ d ∈ g.dependentsOf x.1,
    ∃ y, y.1 = d ∧ Before roster x y ∧ Conflict x.2 y.2
  waiting : ∀ y ∈ roster,
    g.waitingOf y.1 = roster.countP fun x => decide (y.1 ∈ g.dependentsOf x.1)
  cover : ∀ x y, Before roster x y → Conflict x.2 y.2 →
    ∃ z ∈ roster, (z = x ∨ Before roster x z ∧ Conflict x.2 z.2) ∧ y.1 ∈ g.dependentsOf z.1

namespace Roster

/-- A roster has one entry for each task. -/
theorem eq_of_id_eq {roster : Roster} (hn : (roster.map (·.1)).Nodup)
    {x y : TaskId × List (HandleId × Access)} (hx : x ∈ roster) (hy : y ∈ roster)
    (h : x.1 = y.1) : x = y :=
  List.inj_on_of_nodup_map hn hx hy h

end Roster

theorem tracks_empty : Tracks {} [] where
  nodup := List.nodup_nil
  keys := rfl
  handles := by simp
  usage h := rfl
  later id := List.Sublist.refl _
  edge := by simp
  waiting := by simp
  cover x y h := h.elim

namespace Tracks

variable {g : TaskGraph} {roster : Roster}

theorem mem_ids_iff (hg : g.Tracks roster) {id : TaskId} :
    id ∈ g.nodes.keys ↔ ∃ e ∈ roster, e.1 = id := by
  rw [hg.keys, List.mem_map]

/-- A task waits for none exactly if no earlier unfinished task conflicts with it. -/
theorem waitingOf_eq_zero_iff (hg : g.Tracks roster) {y : TaskId × List (HandleId × Access)}
    (hy : y ∈ roster) :
    g.waitingOf y.1 = 0 ↔ ∀ x, Before roster x y → ¬Conflict x.2 y.2 := by
  rw [hg.waiting y hy, List.countP_eq_zero]
  constructor
  · intro h x hxy hc
    obtain ⟨z, hz, -, hyz⟩ := hg.cover x y hxy hc
    exact h z hz (by simpa using hyz)
  · intro h x hx hd
    obtain ⟨y', hid, hxy, hc⟩ := hg.edge x hx y.1 (by simpa using hd)
    obtain rfl : y' = y := Roster.eq_of_id_eq hg.nodup hxy.mem_right hy hid
    exact h x hxy hc

theorem isEmpty_iff (hg : g.Tracks roster) : g.isEmpty = true ↔ roster = [] := by
  have hk := hg.keys
  cases hn : g.nodes with
  | nil =>
    rw [hn] at hk
    have hr : roster = [] := List.map_eq_nil_iff.mp hk.symm
    simp [isEmpty, hn, hr]
  | cons e t =>
    rw [hn] at hk
    have hr : roster ≠ [] := fun h => by
      rw [h] at hk
      cases hk
    simp [isEmpty, hn, hr]

end Tracks

/-! ## Insertion -/

theorem nodup_eraseDups : (l : List TaskId) → l.eraseDups.Nodup
  | [] => by simp
  | a :: l => by
    rw [List.eraseDups_cons, List.nodup_cons]
    exact ⟨by simp, nodup_eraseDups _⟩
termination_by l => l.length
decreasing_by exact Nat.lt_succ_of_le (List.length_filter_le _ _)

/-- Entering the accesses of a task changes the users of each buffer as `Usage.after` says. -/
theorem find?_record (id : TaskId) (usage : Table HandleId Usage)
    (accesses : List (HandleId × Access)) {h : HandleId} {u : Usage}
    (hu : usage.find? h = u.entry) :
    (record id usage accesses).2.find? h = (u.after id h accesses).entry := by
  induction accesses generalizing usage u with
  | nil => exact hu
  | cons e accesses ih =>
    obtain ⟨k, a⟩ := e
    rw [Usage.after_cons]
    by_cases hs : a = .scratch
    · subst hs
      rw [if_neg fun hc => hc.2 rfl]
      exact ih usage hu
    · have hrec : (record id usage ((k, a) :: accesses)).2 =
          (record id (usage.put k (((usage.find? k).getD {}).access id a).2) accesses).2 := by
        cases a <;> first | rfl | exact absurd rfl hs
      rw [hrec]
      by_cases hk : k = h
      · subst hk
        rw [if_pos ⟨rfl, hs⟩]
        refine ih _ ?_
        rw [Table.find?_put_self, hu, Usage.getD_entry, Usage.entry,
          if_neg (Usage.access_ne_empty u id hs)]
      · rw [if_neg fun hc => hk hc.1]
        refine ih _ ?_
        rw [Table.find?_put_of_ne _ _ (Ne.symm hk), hu]

/-- A task comes only after others that are recorded as users of a buffer it uses. -/
theorem exists_of_mem_record {id d : TaskId} {usage : Table HandleId Usage}
    {accesses : List (HandleId × Access)} (hd : d ∈ (record id usage accesses).1) (hne : d ≠ id) :
    ∃ h a, (h, a) ∈ accesses ∧ a ≠ .scratch ∧
      (((usage.find? h).getD {}).writer = some d ∨
        (a.writes = true ∧ d ∈ ((usage.find? h).getD {}).readers)) := by
  induction accesses generalizing usage with
  | nil => simp [record] at hd
  | cons e accesses ih =>
    obtain ⟨k, a⟩ := e
    by_cases hs : a = .scratch
    · subst hs
      obtain ⟨h, b, hb, hrest⟩ := @ih usage hd
      exact ⟨h, b, List.mem_cons_of_mem _ hb, hrest⟩
    · have hrec : (record id usage ((k, a) :: accesses)).1 =
          (((usage.find? k).getD {}).access id a).1 ++
            (record id (usage.put k (((usage.find? k).getD {}).access id a).2) accesses).1 := by
        cases a <;> first | rfl | exact absurd rfl hs
      rw [hrec] at hd
      generalize hu : (usage.find? k).getD {} = u at hd
      rcases List.mem_append.mp hd with hd | hd
      · refine ⟨k, a, List.mem_cons_self, hs, ?_⟩
        rw [hu]
        by_cases hw : a.writes = true
        · rw [Usage.access_of_writes u id hw] at hd
          rcases List.mem_append.mp hd with hd | hd
          · exact Or.inl (Option.mem_toList.mp hd)
          · exact Or.inr ⟨hw, hd⟩
        · rw [Usage.eq_read_of_not_writes hs hw, Usage.access_read] at hd
          exact Or.inl (Option.mem_toList.mp hd)
      · obtain ⟨h, b, hb, hbs, hrest⟩ := ih hd
        refine ⟨h, b, List.mem_cons_of_mem _ hb, hbs, ?_⟩
        by_cases hk : h = k
        · subst hk
          rw [Table.find?_put_self, Option.getD_some] at hrest
          rw [hu]
          by_cases hw : a.writes = true
          · rw [Usage.access_of_writes u id hw] at hrest
            rcases hrest with hrest | ⟨-, hrest⟩
            · exact absurd (Option.some.inj hrest).symm hne
            · simp at hrest
          · rw [Usage.eq_read_of_not_writes hs hw, Usage.access_read] at hrest
            refine hrest.imp_right fun hr => ⟨hr.1, ?_⟩
            exact (List.mem_append.mp hr.2).resolve_right fun h' => hne (List.mem_singleton.mp h')
        · rwa [Table.find?_put_of_ne _ _ hk] at hrest

/-- A task comes after the recorded writer of each buffer it uses, and after the recorded readers of
each buffer it writes. -/
theorem mem_record {id d : TaskId} {usage : Table HandleId Usage}
    {accesses : List (HandleId × Access)} {h : HandleId} {a : Access} (ha : (h, a) ∈ accesses)
    (hs : a ≠ .scratch)
    (hd : ((usage.find? h).getD {}).writer = some d ∨
      (a.writes = true ∧ d ∈ ((usage.find? h).getD {}).readers)) :
    d ∈ (record id usage accesses).1 := by
  induction accesses generalizing usage with
  | nil => simp at ha
  | cons e accesses ih =>
    obtain ⟨k, b⟩ := e
    by_cases hbs : b = .scratch
    · subst hbs
      refine ih ((List.mem_cons.mp ha).resolve_left fun he => ?_) hd
      exact hs (congrArg Prod.snd he)
    · have hrec : (record id usage ((k, b) :: accesses)).1 =
          (((usage.find? k).getD {}).access id b).1 ++
            (record id (usage.put k (((usage.find? k).getD {}).access id b).2) accesses).1 := by
        cases b <;> first | rfl | exact absurd rfl hbs
      rw [hrec]
      by_cases hk : h = k
      · subst hk
        generalize hu : (usage.find? h).getD {} = u at hd
        by_cases hbw : b.writes = true
        · -- this access already comes after the writer and after all readers
          rw [Usage.access_of_writes u id hbw]
          refine List.mem_append_left _ ?_
          rcases hd with hd | ⟨-, hd⟩
          · exact List.mem_append_left _ (Option.mem_toList.mpr hd)
          · exact List.mem_append_right _ hd
        · have hbr := Usage.eq_read_of_not_writes hbs hbw
          rw [hbr, Usage.access_read]
          rcases hd with hd | ⟨haw, hd⟩
          · exact List.mem_append_left _ (Option.mem_toList.mpr hd)
          · refine List.mem_append_right _ (ih ?_ ?_)
            · refine (List.mem_cons.mp ha).resolve_left fun he => ?_
              rw [(Prod.mk.inj he).2] at haw
              exact hbw haw
            · rw [Table.find?_put_self, Option.getD_some]
              exact Or.inr ⟨haw, List.mem_append_left _ hd⟩
      · refine List.mem_append_right _ (ih ?_ ?_)
        · exact (List.mem_cons.mp ha).resolve_left fun he => hk (Prod.mk.inj he).1
        · rwa [Table.find?_put_of_ne _ _ hk]

/-- The unfinished tasks that a new task has to wait for. -/
def depsOf (g : TaskGraph) (id : TaskId) (accesses : List (HandleId × Access)) : List TaskId :=
  ((record id g.usage accesses).1.filter fun d => decide (d ≠ id)).eraseDups.filter g.contains

theorem nodup_depsOf (g : TaskGraph) (id : TaskId) (accesses : List (HandleId × Access)) :
    (g.depsOf id accesses).Nodup :=
  (nodup_eraseDups _).filter _

theorem mem_depsOf_iff {g : TaskGraph} {id d : TaskId} {accesses : List (HandleId × Access)} :
    d ∈ g.depsOf id accesses ↔
      (d ∈ (record id g.usage accesses).1 ∧ d ≠ id) ∧ d ∈ g.nodes.keys := by
  simp [depsOf, contains, Table.has_iff]

theorem insert_snd (g : TaskGraph) (id : TaskId) (accesses : List (HandleId × Access)) :
    (g.insert id accesses).2 = (g.depsOf id accesses).isEmpty := rfl

theorem insert_usage (g : TaskGraph) (id : TaskId) (accesses : List (HandleId × Access)) :
    (g.insert id accesses).1.usage = (record id g.usage accesses).2 := rfl

theorem insert_nodes (g : TaskGraph) (id : TaskId) (accesses : List (HandleId × Access)) :
    (g.insert id accesses).1.nodes =
      ((g.depsOf id accesses).foldl
        (fun nodes d => nodes.adjust d fun n => { n with dependents := n.dependents ++ [id] })
        g.nodes).put id ⟨(g.depsOf id accesses).length, [], touched accesses⟩ := rfl

theorem find?_insert (g : TaskGraph) (id j : TaskId) (accesses : List (HandleId × Access)) :
    (g.insert id accesses).1.nodes.find? j =
      if j = id then some ⟨(g.depsOf id accesses).length, [], touched accesses⟩
      else if j ∈ g.depsOf id accesses then
        (g.nodes.find? j).map fun n => { n with dependents := n.dependents ++ [id] }
      else g.nodes.find? j := by
  rw [insert_nodes, Table.find?_put, Table.find?_foldl_adjust _ (nodup_depsOf g id accesses)]

theorem dependentsOf_insert (g : TaskGraph) (id j : TaskId) (accesses : List (HandleId × Access)) :
    (g.insert id accesses).1.dependentsOf j =
      if j = id then []
      else if j ∈ g.depsOf id accesses then g.dependentsOf j ++ [id] else g.dependentsOf j := by
  unfold dependentsOf
  rw [find?_insert]
  by_cases hj : j = id
  · simp [hj]
  · rw [if_neg hj, if_neg hj]
    by_cases hd : j ∈ g.depsOf id accesses
    · obtain ⟨n, hn⟩ := Table.exists_find?_of_mem_keys (mem_depsOf_iff.mp hd).2
      simp [hd, hn]
    · simp [hd]

theorem waitingOf_insert (g : TaskGraph) (id j : TaskId) (accesses : List (HandleId × Access)) :
    (g.insert id accesses).1.waitingOf j =
      if j = id then (g.depsOf id accesses).length else g.waitingOf j := by
  unfold waitingOf
  rw [find?_insert]
  by_cases hj : j = id
  · simp [hj]
  · rw [if_neg hj, if_neg hj]
    by_cases hd : j ∈ g.depsOf id accesses
    · obtain ⟨n, hn⟩ := Table.exists_find?_of_mem_keys (mem_depsOf_iff.mp hd).2
      simp [hd, hn]
    · simp [hd]

namespace Tracks

variable {g : TaskGraph} {roster : Roster} {id : TaskId} {accesses : List (HandleId × Access)}

theorem getD_usage (hg : g.Tracks roster) (h : HandleId) :
    (g.usage.find? h).getD {} = Usage.of h roster := by
  rw [hg.usage h, Usage.getD_entry]

/-- A new task waits only for tasks that it conflicts with. -/
theorem conflict_of_mem_depsOf (hg : g.Tracks roster) {d : TaskId}
    (hd : d ∈ g.depsOf id accesses) : ∃ x ∈ roster, x.1 = d ∧ Conflict x.2 accesses := by
  obtain ⟨⟨hrec, hne⟩, -⟩ := mem_depsOf_iff.mp hd
  obtain ⟨h, a, ha, hs, hu⟩ := exists_of_mem_record hrec hne
  rw [hg.getD_usage] at hu
  rcases hu with hu | ⟨haw, hu⟩
  · obtain ⟨x, hx, hid, b, hb, hbw⟩ := Usage.exists_of_writer hu
    exact ⟨x, hx, hid, Conflict.of_write hb ha hbw hs⟩
  · obtain ⟨x, hx, hid, b, hb, hbs⟩ := Usage.exists_of_mem_readers hu
    exact ⟨x, hx, hid, (Conflict.of_write ha hb haw hbs).symm⟩

/-- For every task that a new task conflicts with it waits for that task or for a later one that
conflicts with it. -/
theorem exists_dep_of_conflict (hg : g.Tracks roster) (hid : id ∉ roster.map (·.1))
    {x : TaskId × List (HandleId × Access)} (hx : x ∈ roster) (hc : Conflict x.2 accesses) :
    ∃ z ∈ roster, (z = x ∨ Before roster x z ∧ Conflict x.2 z.2) ∧
      z.1 ∈ g.depsOf id accesses := by
  obtain ⟨h, a, b, ha, hb, has, hbs, hw⟩ := hc
  have hdep : ∀ z ∈ roster, z.1 ∈ (record id g.usage accesses).1 → z.1 ∈ g.depsOf id accesses :=
    fun z hz hrec => mem_depsOf_iff.mpr
      ⟨⟨hrec, fun he => hid (he ▸ List.mem_map_of_mem hz)⟩, hg.mem_ids_iff.mpr ⟨z, hz, rfl⟩⟩
  -- a recorded writer that stands at or after `x` is always a dependency
  have hwriter : ∀ y ∈ roster, (Usage.of h roster).writer = some y.1 → (y = x ∨ Before roster x y) →
      (∃ c, (h, c) ∈ y.2 ∧ c.writes = true) →
      ∃ z ∈ roster, (z = x ∨ Before roster x z ∧ Conflict x.2 z.2) ∧
        z.1 ∈ g.depsOf id accesses := by
    intro y hy hyw hyx ⟨c, hc, hcw⟩
    refine ⟨y, hy, hyx.imp_right fun hb => ⟨hb, (Conflict.of_write hc ha hcw has).symm⟩, ?_⟩
    refine hdep y hy (mem_record hb hbs (Or.inl ?_))
    rw [hg.getD_usage, hyw]
  by_cases haw : a.writes = true
  · obtain ⟨y, hy, hyw, hyx, hyc⟩ := Usage.writer_of_write hx ha haw
    exact hwriter y hy hyw hyx hyc
  · have hbw : b.writes = true := hw.resolve_left haw
    rcases Usage.reader_or_writer hx ha has with hr | ⟨y, hy, hyw, hyx, hyc⟩
    · refine ⟨x, hx, Or.inl rfl, hdep x hx (mem_record hb hbs (Or.inr ⟨hbw, ?_⟩))⟩
      rwa [hg.getD_usage]
    · exact hwriter y hy hyw hyx hyc

/-- A new task can run at once exactly if it conflicts with no unfinished task. -/
theorem insert_ready_iff (hg : g.Tracks roster) (hid : id ∉ roster.map (·.1)) :
    (g.insert id accesses).2 = true ↔ ∀ x ∈ roster, ¬Conflict x.2 accesses := by
  rw [insert_snd, List.isEmpty_iff]
  constructor
  · intro h x hx hc
    obtain ⟨z, -, -, hz⟩ := hg.exists_dep_of_conflict hid hx hc
    rw [h] at hz
    simp at hz
  · intro h
    rw [List.eq_nil_iff_forall_not_mem]
    intro d hd
    obtain ⟨x, hx, -, hc⟩ := hg.conflict_of_mem_depsOf hd
    exact h x hx hc

/-- An unfinished task gets the new one as a dependent if the new one waits for it. -/
theorem mem_dependentsOf_insert_iff (hid : id ∉ roster.map (·.1))
    {x : TaskId × List (HandleId × Access)} (hx : x ∈ roster) {d : TaskId} :
    d ∈ (g.insert id accesses).1.dependentsOf x.1 ↔
      d ∈ g.dependentsOf x.1 ∨ (d = id ∧ x.1 ∈ g.depsOf id accesses) := by
  have hne : x.1 ≠ id := fun he => hid (he ▸ List.mem_map_of_mem hx)
  rw [dependentsOf_insert, if_neg hne]
  by_cases hm : x.1 ∈ g.depsOf id accesses
  · rw [if_pos hm, List.mem_append, List.mem_singleton, and_iff_left hm]
  · rw [if_neg hm, or_iff_left fun h => hm h.2]

/-- The tasks that the new one waits for are those that name it as a dependent. -/
theorem length_depsOf (hg : g.Tracks roster) (hid : id ∉ roster.map (·.1)) :
    (g.depsOf id accesses).length =
      roster.countP fun x => decide (id ∈ (g.insert id accesses).1.dependentsOf x.1) := by
  have hcount : roster.countP (fun x => decide (id ∈ (g.insert id accesses).1.dependentsOf x.1))
      = (roster.map (·.1)).countP fun d => decide (d ∈ g.depsOf id accesses) := by
    rw [List.countP_map]
    refine List.countP_congr fun x hx => ?_
    simp only [decide_eq_true_iff, Function.comp_apply, mem_dependentsOf_insert_iff hid hx, true_and]
    exact or_iff_right fun h => hid ((hg.later x.1).subset h)
  rw [hcount, List.countP_eq_length_filter]
  refine List.Perm.length_eq ((List.perm_ext_iff_of_nodup (nodup_depsOf g id accesses)
    (hg.nodup.filter _)).mpr fun d => ?_)
  simp only [List.mem_filter, decide_eq_true_iff]
  exact ⟨fun h => ⟨hg.keys ▸ (mem_depsOf_iff.mp h).2, h⟩, fun h => h.2⟩

/-- An insertion leaves the buffers of a task as they are, and enters those of the new one. -/
theorem handles_insert (hg : g.Tracks roster) (hid : id ∉ roster.map (·.1)) :
    ∀ e ∈ roster ++ [(id, accesses)], ∀ n,
      (g.insert id accesses).1.nodes.find? e.1 = some n → n.handles = touched e.2 := by
  intro e he n hn
  rw [find?_insert] at hn
  rcases List.mem_append.mp he with he | he
  · have hne : e.1 ≠ id := fun h => hid (h ▸ List.mem_map_of_mem he)
    rw [if_neg hne] at hn
    by_cases hm : e.1 ∈ g.depsOf id accesses
    · rw [if_pos hm, Option.map_eq_some_iff] at hn
      obtain ⟨m, hm, rfl⟩ := hn
      exact hg.handles e he m hm
    · rw [if_neg hm] at hn
      exact hg.handles e he n hn
  · rw [List.mem_singleton.mp he, if_pos rfl, Option.some.injEq] at hn
    rw [List.mem_singleton.mp he, ← hn]

/-- After an insertion the graph stands for the roster with the new task at its end. -/
theorem insert (hg : g.Tracks roster) (hid : id ∉ roster.map (·.1)) :
    (g.insert id accesses).1.Tracks (roster ++ [(id, accesses)]) := by
  have hkeys : id ∉ g.nodes.keys := by rwa [hg.keys]
  have hne : ∀ x ∈ roster, x.1 ≠ id := fun x hx he => hid (he ▸ List.mem_map_of_mem hx)
  have hself : (g.insert id accesses).1.dependentsOf id = [] := by
    rw [dependentsOf_insert, if_pos rfl]
  constructor
  case nodup =>
    rw [List.map_append, List.nodup_append]
    refine ⟨hg.nodup, by simp, fun a ha b hb he => ?_⟩
    rw [List.map_singleton, List.mem_singleton] at hb
    subst hb
    exact hid (he ▸ ha)
  case keys =>
    rw [insert_nodes, Table.keys_put_of_notMem _ (by rwa [Table.keys_foldl_adjust]),
      Table.keys_foldl_adjust, hg.keys, List.map_append]
    rfl
  case handles => exact hg.handles_insert hid
  case usage =>
    intro h
    rw [insert_usage, find?_record id g.usage accesses (hg.usage h), Usage.of_append_singleton]
  case later =>
    intro j
    rw [dependentsOf_insert, List.map_append]
    by_cases hj : j = id
    · rw [if_pos hj]
      exact List.nil_sublist _
    · rw [if_neg hj]
      by_cases hm : j ∈ g.depsOf id accesses
      · rw [if_pos hm]
        exact (hg.later j).append (List.Sublist.refl _)
      · rw [if_neg hm]
        exact (hg.later j).trans (List.sublist_append_left _ _)
  case edge =>
    intro x hxr d hd
    rcases List.mem_append.mp hxr with hx | hx
    · rcases (mem_dependentsOf_insert_iff hid hx).mp hd with hd | ⟨hdi, hm⟩
      · obtain ⟨y, hyd, hxy, hc⟩ := hg.edge x hx d hd
        exact ⟨y, hyd, Before.append_singleton_iff.mpr (Or.inl hxy), hc⟩
      · obtain ⟨x', hx', hid', hc⟩ := hg.conflict_of_mem_depsOf hm
        rw [Roster.eq_of_id_eq hg.nodup hx' hx hid'] at hc
        exact ⟨(id, accesses), hdi.symm, Before.append_singleton_iff.mpr (Or.inr ⟨hx, rfl⟩), hc⟩
    · rw [List.mem_singleton.mp hx, hself] at hd
      cases hd
  case waiting =>
    intro y hy
    have hlast : [(id, accesses)].countP
        (fun x => decide (y.1 ∈ (g.insert id accesses).1.dependentsOf x.1)) = 0 := by
      simp [hself]
    rw [waitingOf_insert, List.countP_append, hlast, Nat.add_zero]
    rcases List.mem_append.mp hy with hy | hy
    · rw [if_neg (hne y hy), hg.waiting y hy]
      refine List.countP_congr fun x hx => ?_
      rw [decide_eq_true_iff, decide_eq_true_iff, mem_dependentsOf_insert_iff hid hx]
      exact (or_iff_left fun h => hne y hy h.1).symm
    · rw [List.mem_singleton.mp hy, if_pos rfl, hg.length_depsOf hid]
  case cover =>
    intro x y hxy hc
    rcases Before.append_singleton_iff.mp hxy with hxy | ⟨hx, rfl⟩
    · obtain ⟨z, hz, hzx, hy⟩ := hg.cover x y hxy hc
      exact ⟨z, List.mem_append_left _ hz,
        hzx.imp_right fun h => ⟨Before.append_singleton_iff.mpr (Or.inl h.1), h.2⟩,
        (mem_dependentsOf_insert_iff hid hz).mpr (Or.inl hy)⟩
    · obtain ⟨z, hz, hzx, hm⟩ := hg.exists_dep_of_conflict hid hx hc
      exact ⟨z, List.mem_append_left _ hz,
        hzx.imp_right fun h => ⟨Before.append_singleton_iff.mpr (Or.inl h.1), h.2⟩,
        (mem_dependentsOf_insert_iff hid hz).mpr (Or.inr ⟨rfl, hm⟩)⟩

end Tracks

end TaskGraph

end TiledTensor
