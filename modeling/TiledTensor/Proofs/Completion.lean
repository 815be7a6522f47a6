import TiledTensor.Proofs.Readiness

/-!
# Completing a task

Completing a task that waits for none takes it out of the roster: what is left is the graph that
stands for the other tasks, as if the finished one had never been inserted.  The answer lists, in
the order of insertion, exactly the tasks that waited for the finished task alone.

The counters cannot run below zero, since a dependent of an unfinished task waits at least for that
task.
-/

namespace TiledTensor

namespace TaskGraph

/-! ## The usage table -/

/-- The users of a buffer without one task. -/
def Usage.without (u : Usage) (id : TaskId) : Usage :=
  ⟨if u.writer = some id then none else u.writer, u.readers.filter fun r => decide (r ≠ id)⟩

theorem release_of_some {id : TaskId} {usage : Table HandleId Usage} {h : HandleId} {u : Usage}
    (hu : usage.find? h = some u) :
    release id usage h =
      if u.without id = {} then usage.erase h else usage.put h (u.without id) := by
  unfold release
  rw [hu]
  rfl

theorem find?_release (id : TaskId) (usage : Table HandleId Usage) (h j : HandleId) :
    (release id usage h).find? j =
      if j = h then (usage.find? j).bind fun u => (u.without id).entry else usage.find? j := by
  cases hu : usage.find? h with
  | none =>
    have hrel : release id usage h = usage := by
      unfold release
      rw [hu]
    rw [hrel]
    by_cases hj : j = h
    · subst hj
      simp [hu]
    · rw [if_neg hj]
  | some u =>
    rw [release_of_some hu]
    by_cases hj : j = h
    · subst hj
      rw [if_pos rfl, hu, Option.bind_some, Usage.entry]
      by_cases he : u.without id = {}
      · rw [if_pos he, if_pos he, Table.find?_erase_self]
      · rw [if_neg he, if_neg he, Table.find?_put_self]
    · rw [if_neg hj]
      by_cases he : u.without id = {}
      · rw [if_pos he, Table.find?_erase_of_ne _ hj]
      · rw [if_neg he, Table.find?_put_of_ne _ _ hj]

theorem find?_foldl_release (id : TaskId) {hs : List HandleId} (hn : hs.Nodup)
    (usage : Table HandleId Usage) (j : HandleId) :
    (hs.foldl (release id) usage).find? j =
      if j ∈ hs then (usage.find? j).bind fun u => (u.without id).entry else usage.find? j := by
  induction hs generalizing usage with
  | nil => simp
  | cons h hs ih =>
    rw [List.nodup_cons] at hn
    rw [List.foldl_cons, ih hn.2, find?_release]
    by_cases hj : j = h
    · subst hj
      simp [hn.1]
    · simp [hj]

namespace Usage

theorem without_eq_self {u : Usage} {id : TaskId} (hw : u.writer ≠ some id)
    (hr : id ∉ u.readers) : u.without id = u := by
  have hf : u.readers.filter (fun r => decide (r ≠ id)) = u.readers :=
    List.filter_eq_self.mpr fun r hrm => decide_eq_true fun he => hr (he ▸ hrm)
  rw [without, if_neg hw, hf]

/-- Accesses of other tasks do not notice whether a task has left. -/
theorem without_access {u : Usage} {id y : TaskId} (hy : y ≠ id) (a : Access) :
    ((u.access y a).2).without id = ((u.without id).access y a).2 := by
  by_cases hr : a = .read
  · subst hr
    rw [access_read, access_read, without, without, List.filter_append,
      List.filter_cons_of_pos (by simpa using hy), List.filter_nil]
  · have hacc : ∀ v : Usage, (v.access y a).2 = ⟨some y, []⟩ := by
      intro v
      cases a <;> first | rfl | exact absurd rfl hr
    rw [hacc, hacc, without, if_neg fun he => hy (Option.some.inj he)]
    rfl

theorem without_after {u : Usage} {id y : TaskId} (hy : y ≠ id) (h : HandleId)
    (accesses : List (HandleId × Access)) :
    (u.after y h accesses).without id = (u.without id).after y h accesses := by
  induction accesses generalizing u with
  | nil => rfl
  | cons e accesses ih =>
    rw [after_cons, after_cons, ih]
    by_cases hc : e.1 = h ∧ e.2 ≠ .scratch
    · rw [if_pos hc, if_pos hc, without_access hy]
    · rw [if_neg hc, if_neg hc]

/-- The reads of a task go with it. -/
theorem without_after_of_no_write {u : Usage} {id : TaskId} {h : HandleId}
    {accesses : List (HandleId × Access)} (hn : ∀ a, (h, a) ∈ accesses → ¬a.writes = true) :
    (u.after id h accesses).without id = u.without id := by
  have hnone : (List.replicate (accesses.count (h, .read)) id).filter (fun r => decide (r ≠ id)) = [] :=
    List.filter_eq_nil_iff.mpr fun d hd => by simp [List.eq_of_mem_replicate hd]
  rw [after_of_no_write hn, without, without, List.filter_append, hnone, List.append_nil]

theorem without_foldl {u : Usage} {id : TaskId} (h : HandleId) {roster : Roster}
    (hr : ∀ y ∈ roster, y.1 ≠ id) :
    (roster.foldl (fun u e => u.after e.1 h e.2) u).without id =
      roster.foldl (fun u e => u.after e.1 h e.2) (u.without id) := by
  induction roster generalizing u with
  | nil => rfl
  | cons y roster ih =>
    rw [List.foldl_cons, List.foldl_cons, ih fun z hz => hr z (List.mem_cons_of_mem _ hz),
      without_after (hr y List.mem_cons_self)]

/-- A buffer that no task of a roster uses has no users. -/
theorem of_eq_empty {h : HandleId} {roster : Roster}
    (hn : ∀ y ∈ roster, ∀ a, (h, a) ∈ y.2 → a = .scratch) : of h roster = {} := by
  induction roster using List.reverseRecOn with
  | nil => rfl
  | append_singleton roster e ih =>
    rw [of_append_singleton, ih fun y hy => hn y (List.mem_append_left _ hy)]
    exact after_of_untouched (hn e (by simp))

/-- A task that no earlier one conflicts with leaves the users that there were without it. -/
theorem without_after_self {id : TaskId} {h : HandleId} {roster : Roster}
    {accesses : List (HandleId × Access)} (hid : ∀ y ∈ roster, y.1 ≠ id)
    (hc : ∀ y ∈ roster, ¬Conflict y.2 accesses) :
    ((of h roster).after id h accesses).without id = of h roster := by
  have hwr : (of h roster).writer ≠ some id := fun hw => by
    obtain ⟨y, hy, hyid, -⟩ := exists_of_writer hw
    exact hid y hy hyid
  have hrd : id ∉ (of h roster).readers := fun hr => by
    obtain ⟨y, hy, hyid, -⟩ := exists_of_mem_readers hr
    exact hid y hy hyid
  by_cases hw : ∃ a, (h, a) ∈ accesses ∧ a.writes = true
  · -- a writer is alone on its buffer
    obtain ⟨a, ha, haw⟩ := hw
    have hempty : of h roster = {} := of_eq_empty fun y hy b hb => by_contra fun hbs =>
      hc y hy (Conflict.of_write ha hb haw hbs).symm
    have hreaders : ∀ d ∈ ((of h roster).after id h accesses).readers, d = id := fun d hd =>
      (mem_readers_of_mem_after hd).resolve_right fun hr => hr.2 a ha haw
    rw [without, after_writer_of_write (Or.inr ⟨a, ha, haw⟩), if_pos rfl, hempty]
    rw [hempty] at hreaders
    have hf : (((({} : Usage).after id h accesses).readers).filter fun r => decide (r ≠ id)) = [] :=
      List.filter_eq_nil_iff.mpr fun d hd => by simp [hreaders d hd]
    rw [hf]
  · rw [without_after_of_no_write fun a ha haw => hw ⟨a, ha, haw⟩, without_eq_self hwr hrd]

/-- What a roster leaves of a buffer without a task that no earlier one conflicts with. -/
theorem of_filter {h : HandleId} {roster : Roster} {e : TaskId × List (HandleId × Access)}
    (hn : (roster.map (·.1)).Nodup) (he : e ∈ roster)
    (hc : ∀ x, Before roster x e → ¬Conflict x.2 e.2) :
    of h (roster.filter fun x => decide (x.1 ≠ e.1)) = (of h roster).without e.1 := by
  obtain ⟨pre, post, rfl⟩ := List.append_of_mem he
  rw [List.map_append, List.map_cons, List.nodup_middle, List.nodup_cons, ← List.map_append] at hn
  have hne : ∀ y ∈ pre ++ post, y.1 ≠ e.1 := fun y hy he' =>
    hn.1 (he' ▸ List.mem_map.mpr ⟨y, hy, rfl⟩)
  have hpre : ∀ y ∈ pre, y.1 ≠ e.1 := fun y hy => hne y (List.mem_append_left _ hy)
  have hpost : ∀ y ∈ post, y.1 ≠ e.1 := fun y hy => hne y (List.mem_append_right _ hy)
  have hfilter : (pre ++ e :: post).filter (fun x => decide (x.1 ≠ e.1)) = pre ++ post := by
    rw [List.filter_append, List.filter_cons_of_neg (by simp),
      List.filter_eq_self.mpr fun y hy => decide_eq_true (hpre y hy),
      List.filter_eq_self.mpr fun y hy => decide_eq_true (hpost y hy)]
  have hsplit : of h (pre ++ e :: post) =
      post.foldl (fun u e => u.after e.1 h e.2) ((of h pre).after e.1 h e.2) := by
    rw [of, List.foldl_append, List.foldl_cons]
    rfl
  rw [hfilter, hsplit, without_foldl h hpost, without_after_self hpre
    fun y hy => hc y (Before.of_append hy List.mem_cons_self), of, List.foldl_append]
  rfl

end Usage

/-! ## The counters -/

/-- Tells dependents that each wait for some task: every counter goes down by one, and the answer
lists those whose counter was one. -/
theorem awaken_eq_ok {nodes : Table TaskId Node} {ds : List TaskId} (hn : ds.Nodup)
    (hw : ∀ d ∈ ds, ∀ n, nodes.find? d = some n → 0 < n.waiting) :
    ∃ nodes', awaken nodes ds = .ok (nodes', ds.filter fun d =>
        decide ((nodes.find? d).map (·.waiting) = some 1)) ∧
      nodes'.keys = nodes.keys ∧
      ∀ j, nodes'.find? j = if j ∈ ds then
        (nodes.find? j).map fun n => { n with waiting := n.waiting - 1 } else nodes.find? j := by
  induction ds generalizing nodes with
  | nil => exact ⟨nodes, rfl, rfl, fun j => by simp⟩
  | cons d ds ih =>
    rw [List.nodup_cons] at hn
    cases hd : nodes.find? d with
    | none =>
      obtain ⟨nodes', hok, hkeys, hfind⟩ :=
        ih hn.2 fun e he => hw e (List.mem_cons_of_mem _ he)
      refine ⟨nodes', ?_, hkeys, fun j => ?_⟩
      · rw [List.filter_cons_of_neg (by simp [hd])]
        unfold awaken
        rw [hd]
        exact hok
      · rw [hfind j]
        by_cases hj : j = d
        · subst hj
          simp [hn.1, hd]
        · simp [hj]
    | some n =>
      obtain ⟨_ | k, dependents, handles⟩ := n
      · exact absurd (hw d List.mem_cons_self _ hd) (Nat.lt_irrefl 0)
      have hother : ∀ e ∈ ds, (nodes.put d ⟨k, dependents, handles⟩).find? e = nodes.find? e :=
        fun e he => Table.find?_put_of_ne _ _ fun h => hn.1 (h ▸ he)
      obtain ⟨nodes', hok, hkeys, hfind⟩ := @ih (nodes.put d ⟨k, dependents, handles⟩) hn.2
        fun e he => by
          rw [hother e he]
          exact hw e (List.mem_cons_of_mem _ he)
      refine ⟨nodes', ?_, ?_, fun j => ?_⟩
      · have hfilter : (ds.filter fun e => decide (((nodes.put d ⟨k, dependents, handles⟩).find? e).map
            (·.waiting) = some 1)) =
            ds.filter fun e => decide ((nodes.find? e).map (·.waiting) = some 1) :=
          List.filter_congr fun e he => by rw [hother e he]
        unfold awaken
        rw [hd]
        dsimp only
        rw [hok, hfilter]
        by_cases hk : k = 0
        · subst hk
          rw [List.filter_cons_of_pos (by simp [hd])]
          rfl
        · rw [List.filter_cons_of_neg (by simp [hd, hk])]
          simp [hk, bind, Except.bind, pure, Except.pure]
      · rw [hkeys, Table.keys_put_of_mem _ (Table.mem_keys_of_find? hd)]
      · rw [hfind j]
        by_cases hj : j = d
        · subst hj
          simp [hn.1, hd, Table.find?_put_self]
        · simp [hj, Table.find?_put_of_ne _ _ hj]

/-! ## Completion -/

/-- Counting over a roster, one task apart. -/
theorem Roster.countP_eq {roster : Roster} (hn : (roster.map (·.1)).Nodup)
    {e : TaskId × List (HandleId × Access)} (he : e ∈ roster)
    (p : TaskId × List (HandleId × Access) → Bool) :
    roster.countP p =
      roster.countP (fun x => p x && decide (x.1 ≠ e.1)) + if p e then 1 else 0 := by
  induction roster with
  | nil => simp at he
  | cons y roster ih =>
    rw [List.map_cons, List.nodup_cons] at hn
    rw [List.countP_cons, List.countP_cons]
    rcases List.mem_cons.mp he with rfl | he
    · have hrest : roster.countP (fun x => p x && decide (x.1 ≠ e.1)) = roster.countP p := by
        refine List.countP_congr fun x hx => ?_
        have hxe : x.1 ≠ e.1 := fun h => hn.1 (h ▸ List.mem_map_of_mem hx)
        simp [hxe]
      rw [hrest]
      simp
    · have hye : y.1 ≠ e.1 := fun h => hn.1 (h ▸ List.mem_map_of_mem he)
      rw [ih hn.2 he]
      simp [hye]
      omega

/-- A task that still waits for others stays where it is. -/
theorem complete_of_waiting {g : TaskGraph} {id : TaskId} (hw : 0 < g.waitingOf id) :
    g.complete id = .ok (g, []) := by
  unfold waitingOf at hw
  unfold complete
  split
  · rename_i hf
    rw [hf] at hw
    exact absurd hw (Nat.lt_irrefl 0)
  · rfl

/-- A task that is not in the graph cannot leave it. -/
theorem complete_of_notMem {g : TaskGraph} {id : TaskId} (hid : id ∉ g.nodes.keys) :
    g.complete id = .ok (g, []) := by
  unfold complete
  rw [Table.find?_eq_none_iff.mpr hid]

theorem complete_of_find? {g : TaskGraph} {id : TaskId} {dependents ready : List TaskId}
    {handles : List HandleId} {nodes : Table TaskId Node}
    (hf : g.nodes.find? id = some ⟨0, dependents, handles⟩)
    (ha : awaken (g.nodes.erase id) dependents = .ok (nodes, ready)) :
    g.complete id = .ok (⟨nodes, handles.eraseDups.foldl (release id) g.usage⟩, ready) := by
  simp [complete, hf, ha, bind, Except.bind, pure, Except.pure]

/-- A graph has lost a task: its dependents wait for one task less, and no buffer has it among its
users. -/
structure Loses (g g' : TaskGraph) (e : TaskId × List (HandleId × Access)) : Prop where
  keys : g'.nodes.keys = g.nodes.keys.filter fun j => decide (j ≠ e.1)
  nodes : ∀ j, g'.nodes.find? j = if j = e.1 then none else if j ∈ g.dependentsOf e.1 then
    (g.nodes.find? j).map fun n => { n with waiting := n.waiting - 1 } else g.nodes.find? j
  usage : ∀ h, g'.usage.find? h = if h ∈ (touched e.2).eraseDups then
    (g.usage.find? h).bind fun u => (u.without e.1).entry else g.usage.find? h

namespace Loses

variable {g g' : TaskGraph} {e : TaskId × List (HandleId × Access)} {j : TaskId}

theorem dependentsOf (h : g.Loses g' e) (j : TaskId) :
    g'.dependentsOf j = if j = e.1 then [] else g.dependentsOf j := by
  have hj' := h.nodes j
  by_cases hj : j = e.1
  · rw [if_pos hj] at hj' ⊢
    rw [TaskGraph.dependentsOf, hj']
  · rw [if_neg hj] at hj' ⊢
    by_cases hd : j ∈ g.dependentsOf e.1
    · rw [if_pos hd] at hj'
      cases hm : g.nodes.find? j <;> simp [TaskGraph.dependentsOf, hj', hm]
    · rw [if_neg hd] at hj'
      rw [TaskGraph.dependentsOf, TaskGraph.dependentsOf, hj']

theorem waitingOf (h : g.Loses g' e) (hj : j ≠ e.1) : g'.waitingOf j =
    if j ∈ g.dependentsOf e.1 then g.waitingOf j - 1 else g.waitingOf j := by
  have hj' := h.nodes j
  rw [if_neg hj] at hj'
  by_cases hd : j ∈ g.dependentsOf e.1
  · rw [if_pos hd] at hj' ⊢
    cases hm : g.nodes.find? j <;> simp [TaskGraph.waitingOf, hj', hm]
  · rw [if_neg hd] at hj' ⊢
    rw [TaskGraph.waitingOf, TaskGraph.waitingOf, hj']

theorem handles (h : g.Loses g' e) (hj : j ≠ e.1) {n : Node} (hn : g'.nodes.find? j = some n) :
    ∃ m, g.nodes.find? j = some m ∧ n.handles = m.handles := by
  rw [h.nodes, if_neg hj] at hn
  by_cases hd : j ∈ g.dependentsOf e.1
  · rw [if_pos hd] at hn
    obtain ⟨m, hm, rfl⟩ := Option.map_eq_some_iff.mp hn
    exact ⟨m, hm, rfl⟩
  · rw [if_neg hd] at hn
    exact ⟨n, hn, rfl⟩

end Loses

namespace Tracks

variable {g : TaskGraph} {roster : Roster}

/-- A dependent waits at least for the task that names it. -/
theorem waitingOf_pos (hg : g.Tracks roster) {x : TaskId × List (HandleId × Access)}
    (hx : x ∈ roster) {d : TaskId} (hd : d ∈ g.dependentsOf x.1) : 0 < g.waitingOf d := by
  obtain ⟨y, rfl, hxy, -⟩ := hg.edge x hx d hd
  rw [hg.waiting y hxy.mem_right]
  exact List.countP_pos_iff.mpr ⟨x, hx, decide_eq_true hd⟩

/-- Nobody stands before itself, so a dependent is another task. -/
theorem ne_of_mem_dependentsOf (hg : g.Tracks roster) {x : TaskId × List (HandleId × Access)}
    (hx : x ∈ roster) {d : TaskId} (hd : d ∈ g.dependentsOf x.1) : d ≠ x.1 := by
  obtain ⟨y, rfl, hxy, -⟩ := hg.edge x hx d hd
  have hp : roster.Pairwise fun x y => x.1 ≠ y.1 := List.pairwise_map.mp hg.nodup
  exact fun h => hxy.rel hp h.symm

/-- Completing a task that waits for none takes it out of the graph, and the answer lists the
dependents that waited for this task alone. -/
theorem complete_eq (hg : g.Tracks roster) {e : TaskId × List (HandleId × Access)} (he : e ∈ roster)
    (hw : g.waitingOf e.1 = 0) :
    ∃ g', g.complete e.1 =
        .ok (g', (g.dependentsOf e.1).filter fun d => decide (g.waitingOf d = 1)) ∧
      g.Loses g' e := by
  obtain ⟨n, hn⟩ := Table.exists_find?_of_mem_keys (hg.mem_ids_iff.mpr ⟨e, he, rfl⟩)
  have hwait : n.waiting = 0 := by
    rw [waitingOf, hn] at hw
    exact hw
  have hdeps : g.dependentsOf e.1 = n.dependents := by
    rw [dependentsOf, hn]
  have hhandles : n.handles = touched e.2 := hg.handles e he n hn
  have hne : ∀ d ∈ n.dependents, d ≠ e.1 := fun d hd =>
    hg.ne_of_mem_dependentsOf he (hdeps ▸ hd)
  have hfind : ∀ d ∈ n.dependents, (g.nodes.erase e.1).find? d = g.nodes.find? d := fun d hd =>
    Table.find?_erase_of_ne _ (hne d hd)
  have hmem : ∀ d ∈ n.dependents, ∃ m, g.nodes.find? d = some m := fun d hd =>
    Table.exists_find?_of_mem_keys (hg.keys ▸ (hg.later e.1).subset (hdeps ▸ hd))
  obtain ⟨nodes', hok, hkeys, hfind'⟩ := @awaken_eq_ok (g.nodes.erase e.1) _
    ((hdeps ▸ hg.later e.1).nodup hg.nodup) fun d hd m hm => by
      have hpos := hg.waitingOf_pos he (hdeps ▸ hd)
      rw [hfind d hd] at hm
      rwa [waitingOf, hm] at hpos
  refine ⟨⟨nodes', (touched e.2).eraseDups.foldl (release e.1) g.usage⟩, ?_, ?_, fun j => ?_,
    find?_foldl_release _ (nodup_eraseDups _) _⟩
  · have hready : (n.dependents.filter fun d =>
        decide (((g.nodes.erase e.1).find? d).map (·.waiting) = some 1)) =
        n.dependents.filter fun d => decide (g.waitingOf d = 1) := by
      refine List.filter_congr fun d hd => ?_
      obtain ⟨m, hm⟩ := hmem d hd
      rw [hfind d hd, waitingOf, hm]
      simp
    obtain ⟨w, dependents, handles⟩ := n
    obtain rfl : w = 0 := hwait
    obtain rfl : handles = touched e.2 := hhandles
    rw [complete_of_find? hn hok, hdeps, hready]
  · rw [hkeys, Table.keys_erase]
  · rw [hfind', Table.find?_erase, hdeps]
    by_cases hj : j = e.1
    · subst hj
      simp
    · simp [hj]

/-- The users of a buffer are those of the other tasks, as no earlier task conflicts with the one
that is lost. -/
theorem usage_of_loses (hg : g.Tracks roster) {e : TaskId × List (HandleId × Access)} (he : e ∈ roster)
    (hfirst : ∀ x, Before roster x e → ¬Conflict x.2 e.2) {g' : TaskGraph} (hl : g.Loses g' e)
    (h : HandleId) :
    g'.usage.find? h = (Usage.of h (roster.filter fun x => decide (x.1 ≠ e.1))).entry := by
  rw [hl.usage, Usage.of_filter hg.nodup he hfirst]
  by_cases hm : h ∈ (touched e.2).eraseDups
  · rw [if_pos hm, hg.usage h, Usage.entry]
    by_cases hu : Usage.of h roster = {}
    · rw [if_pos hu, hu]
      rfl
    · rw [if_neg hu]
      rfl
  · have hun : ∀ a, (h, a) ∈ e.2 → a = .scratch := fun a ha => by_contra fun hs =>
      hm (List.mem_eraseDups.mpr (mem_touched_iff.mpr ⟨a, ha, hs⟩))
    rw [if_neg hm, hg.usage h, Usage.without_eq_self]
    · intro hwr
      obtain ⟨y, hy, hye, a, ha, haw⟩ := Usage.exists_of_writer hwr
      rw [Roster.eq_of_id_eq hg.nodup hy he hye] at ha
      exact Access.ne_scratch_of_writes haw (hun a ha)
    · intro hrd
      obtain ⟨y, hy, hye, a, ha, hs⟩ := Usage.exists_of_mem_readers hrd
      rw [Roster.eq_of_id_eq hg.nodup hy he hye] at ha
      exact hs (hun a ha)

/-- A task waits for those of the other tasks that name it as a dependent. -/
theorem waiting_of_loses (hg : g.Tracks roster) {e y : TaskId × List (HandleId × Access)}
    (he : e ∈ roster) {g' : TaskGraph} (hl : g.Loses g' e) (hy : y ∈ roster) (hye : y.1 ≠ e.1) :
    g'.waitingOf y.1 = (roster.filter fun x => decide (x.1 ≠ e.1)).countP
      fun x => decide (y.1 ∈ g'.dependentsOf x.1) := by
  rw [hl.waitingOf hye, List.countP_filter]
  have hrest : roster.countP (fun x => decide (y.1 ∈ g'.dependentsOf x.1) && decide (x.1 ≠ e.1)) =
      roster.countP fun x => decide (y.1 ∈ g.dependentsOf x.1) && decide (x.1 ≠ e.1) := by
    refine List.countP_congr fun x _ => ?_
    by_cases hx : x.1 = e.1
    · simp [hx]
    · rw [hl.dependentsOf, if_neg hx]
  have hone := Roster.countP_eq hg.nodup he fun x => decide (y.1 ∈ g.dependentsOf x.1)
  rw [← hg.waiting y hy] at hone
  rw [hrest]
  by_cases hd : y.1 ∈ g.dependentsOf e.1
  · rw [if_pos (decide_eq_true hd)] at hone
    rw [if_pos hd, hone, Nat.add_sub_cancel]
  · rw [if_neg (by simpa using hd)] at hone
    rw [if_neg hd, hone, Nat.add_zero]

/-- A graph that has lost a task that no earlier one conflicts with stands for the other tasks. -/
theorem of_loses (hg : g.Tracks roster) {e : TaskId × List (HandleId × Access)} (he : e ∈ roster)
    (hw : g.waitingOf e.1 = 0) {g' : TaskGraph} (hl : g.Loses g' e) :
    g'.Tracks (roster.filter fun x => decide (x.1 ≠ e.1)) := by
  have hfirst : ∀ x, Before roster x e → ¬Conflict x.2 e.2 := (hg.waitingOf_eq_zero_iff he).mp hw
  have hnodep : ∀ x ∈ roster, e.1 ∉ g.dependentsOf x.1 := fun x hx hd =>
    Nat.ne_of_gt (hg.waitingOf_pos hx hd) hw
  have hids : (roster.filter fun x => decide (x.1 ≠ e.1)).map (·.1) =
      (roster.map (·.1)).filter fun j => decide (j ≠ e.1) := by
    rw [List.filter_map]
    rfl
  constructor
  case nodup =>
    rw [hids]
    exact hg.nodup.filter _
  case keys => rw [hl.keys, hids, hg.keys]
  case handles =>
    intro x hx n hn
    obtain ⟨hx, hxe⟩ := List.mem_filter.mp hx
    obtain ⟨m, hm, hnm⟩ := hl.handles (of_decide_eq_true hxe) hn
    rw [hnm, hg.handles x hx m hm]
  case usage => exact hg.usage_of_loses he hfirst hl
  case later =>
    intro id
    rw [hl.dependentsOf, hids]
    by_cases hid : id = e.1
    · rw [if_pos hid]
      exact List.nil_sublist _
    · rw [if_neg hid]
      have hself : (g.dependentsOf id).filter (fun j => decide (j ≠ e.1)) = g.dependentsOf id := by
        refine List.filter_eq_self.mpr fun d hd => decide_eq_true fun hde => ?_
        by_cases hk : ∃ x ∈ roster, x.1 = id
        · obtain ⟨x, hx, rfl⟩ := hk
          exact hnodep x hx (hde ▸ hd)
        · rw [dependentsOf, Table.find?_eq_none_iff.mpr fun h => hk (hg.mem_ids_iff.mp h)] at hd
          simp at hd
      rw [← hself]
      exact (hg.later id).filter _
  case edge =>
    intro x hx d hd
    obtain ⟨hx, hxe⟩ := List.mem_filter.mp hx
    rw [hl.dependentsOf, if_neg (of_decide_eq_true hxe)] at hd
    obtain ⟨y, hyd, hxy, hc⟩ := hg.edge x hx d hd
    refine ⟨y, hyd, Before.filter_iff.mpr ⟨hxy, hxe, decide_eq_true fun hye => ?_⟩, hc⟩
    exact hnodep x hx (hye ▸ hyd ▸ hd)
  case waiting =>
    intro y hy
    obtain ⟨hy, hye⟩ := List.mem_filter.mp hy
    exact hg.waiting_of_loses he hl hy (of_decide_eq_true hye)
  case cover =>
    intro x y hxy hc
    obtain ⟨hxy, hxe, hye⟩ := Before.filter_iff.mp hxy
    obtain ⟨z, hz, hzx, hyz⟩ := hg.cover x y hxy hc
    have hxe' : x.1 ≠ e.1 := of_decide_eq_true hxe
    have hze : z.1 ≠ e.1 := by
      intro hze
      obtain rfl := Roster.eq_of_id_eq hg.nodup hz he hze
      rcases hzx with rfl | ⟨hxz, hcz⟩
      · exact hxe' rfl
      · exact hfirst x hxz hcz
    refine ⟨z, List.mem_filter.mpr ⟨hz, decide_eq_true hze⟩, ?_, ?_⟩
    · exact hzx.imp_right fun h => ⟨Before.filter_iff.mpr ⟨h.1, hxe, decide_eq_true hze⟩, h.2⟩
    · rwa [hl.dependentsOf, if_neg hze]

/-- Completing a task that waits for none: the graph then stands for the other tasks, and the answer
lists those that waited for this task alone. -/
theorem complete (hg : g.Tracks roster) {e : TaskId × List (HandleId × Access)} (he : e ∈ roster)
    (hw : g.waitingOf e.1 = 0) :
    ∃ g' ready, g.complete e.1 = .ok (g', ready) ∧
      g'.Tracks (roster.filter fun x => decide (x.1 ≠ e.1)) ∧ ready.Sublist (roster.map (·.1)) ∧
      (∀ j ∈ ready, j ≠ e.1 ∧ 0 < g.waitingOf j) ∧
      ∀ j ≠ e.1, g'.waitingOf j = 0 ↔ g.waitingOf j = 0 ∨ j ∈ ready := by
  obtain ⟨g', hok, hl⟩ := hg.complete_eq he hw
  refine ⟨g', _, hok, hg.of_loses he hw hl, List.filter_sublist.trans (hg.later e.1), fun j hj => ?_,
    fun j hj => ?_⟩
  · have hd := List.mem_of_mem_filter hj
    exact ⟨hg.ne_of_mem_dependentsOf he hd, hg.waitingOf_pos he hd⟩
  · rw [hl.waitingOf hj, List.mem_filter, decide_eq_true_iff]
    by_cases hd : j ∈ g.dependentsOf e.1
    · have := hg.waitingOf_pos he hd
      rw [if_pos hd, and_iff_right hd]
      omega
    · rw [if_neg hd]
      exact (or_iff_left fun h => hd h.1).symm

end Tracks

end TaskGraph

end TiledTensor
