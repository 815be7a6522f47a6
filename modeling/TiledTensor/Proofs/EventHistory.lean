import TiledTensor.Proofs.Dispatch
import TiledTensor.Proofs.Requests

/-!
# Histories of a scheduler

A scheduler is given tasks with fresh numbers, and is told of the end of tasks that it has started.
An accessor may be given up at any time, also while it waits or while its grant is on its way, and
then the end of its task may be reported early, late, or twice.

Of such a history only three things are remembered: the tasks that were submitted, those that were
started, and those of which the scheduler was told the end after their start.  A task that has not
ended in this sense is unfinished, and `Record.Fits` says that the graph contains just the
unfinished tasks, and that of these just the ones that have not been started are kept as pending.
-/

namespace TiledTensor

theorem TaskGraph.nodes_of_isEmpty {g : TaskGraph} (h : g.isEmpty = true) : g.nodes = [] :=
  List.isEmpty_iff.mp h

namespace Scheduler

variable {α : Type}

/-- What has happened to a scheduler. -/
structure Record (α : Type) where
  submitted : List (Task α) := []
  started : List (Task α) := []
  /-- The tasks of which the end was reported after their start. -/
  ended : List TaskId := []

namespace Record

/-- The event can come: a task is new, and an end is that of a task that has been started, or of an
accessor that is given up. -/
def Admits (b : Record α) : Event α → Prop
  | .submit t => t.id ∉ b.submitted.map (·.id)
  | .complete k | .fail k _ =>
    k ∈ b.started.map (·.id) ∨ ∃ t ∈ b.submitted, t.id = k ∧ t.job = .grant
  | .wait _ => True

instance (j : Job α) : Decidable (j = .grant) :=
  match j with
  | .grant => .isTrue rfl
  | .compute _ | .send .. | .receive .. | .evict _ | .retire _ | .withdrawn => .isFalse nofun

instance (b : Record α) (e : Event α) : Decidable (b.Admits e) :=
  match e with
  | .submit t => inferInstanceAs (Decidable (t.id ∉ b.submitted.map (·.id)))
  | .complete k | .fail k _ => inferInstanceAs (Decidable
      (k ∈ b.started.map (·.id) ∨ ∃ t ∈ b.submitted, t.id = k ∧ t.job = .grant))
  | .wait _ => .isTrue trivial

/-- The record after an event and what followed from it. -/
def add (b : Record α) (e : Event α) (r : Reaction α) : Record α where
  submitted := match e with
    | .submit t => b.submitted ++ [t]
    | _ => b.submitted
  started := b.started ++ r.started
  ended := match e.ended? with
    | some k => if k ∈ b.started.map (·.id) then b.ended ++ [k] else b.ended
    | none => b.ended

/-- A task as it was submitted, or with nothing to do if it is an accessor. -/
def Holds (b : Record α) (t : Task α) : Prop :=
  ∃ u ∈ b.submitted, t = u ∨ (u.job = .grant ∧ t = { u with job := .withdrawn })

/-- The submitted tasks with their accesses. -/
def roster (b : Record α) : Roster := b.submitted.map fun t => (t.id, t.uses)

end Record

/-- The histories of a scheduler. -/
inductive Run : Record α → Scheduler α → Prop
  | nil : Run {} {}
  | snoc {b s s' r} (e : Event α) (run : Run b s) (admitted : b.Admits e)
      (step : s.react e = .ok (s', r)) : Run (b.add e r) s'

namespace Record

/-- What a scheduler is like after its history. -/
structure Fits (b : Record α) (s : Scheduler α) : Prop where
  stands : s.graph.Stands b.roster
  unfinished : ∀ k, s.graph.contains k = true ↔ k ∈ b.submitted.map (·.id) ∧ k ∉ b.ended
  pending : ∀ k, k ∈ s.pending.keys ↔ s.graph.contains k = true ∧ 0 < s.graph.waitingOf k
  kept : ∀ k t, s.pending.find? k = some t → t.id = k ∧ b.Holds t
  waiting : ∀ k, k ∈ b.started.map (·.id) ↔ k ∈ b.submitted.map (·.id) ∧ k ∉ s.pending.keys
  started : ∀ t ∈ b.started, b.Holds t
  once : (b.started.map (·.id)).Nodup
  ended : ∀ k ∈ b.ended, k ∈ b.started.map (·.id)
  /-- Nothing is started before the earlier tasks that it conflicts with have ended. -/
  turn : ∀ t u, Before b.submitted t u → Conflict t.uses u.uses → u.id ∈ b.started.map (·.id) →
    t.id ∈ b.ended
  barrier : s.graph.isEmpty = true → s.waiters = []

/-- What a history says about the tasks of a scheduler. -/
structure Exclusive (b : Record α) (s : Scheduler α) : Prop where
  /-- The pending tasks are those of the graph that wait. -/
  pending : ∀ k, s.pending.has k = true ↔ s.graph.contains k = true ∧ 0 < s.graph.waitingOf k
  kept : ∀ k t, s.pending.find? k = some t → t.id = k ∧ b.Holds t
  unfinished : ∀ k, s.graph.contains k = true ↔ k ∈ b.submitted.map (·.id) ∧ k ∉ b.ended
  /-- Whatever has been submitted has been started unless it is pending. -/
  waiting : ∀ k, k ∈ b.started.map (·.id) ↔ k ∈ b.submitted.map (·.id) ∧ s.pending.has k = false
  started : ∀ t ∈ b.started, b.Holds t
  once : (b.started.map (·.id)).Nodup
  turn : ∀ t u, Before b.submitted t u → Conflict t.uses u.uses → u.id ∈ b.started.map (·.id) →
    t.id ∈ b.ended
  /-- Tasks that are started and unfinished do not conflict. -/
  apart : ∀ t ∈ b.submitted, ∀ u ∈ b.submitted, t.id ≠ u.id → t.id ∈ b.started.map (·.id) →
    u.id ∈ b.started.map (·.id) → t.id ∉ b.ended → u.id ∉ b.ended → ¬Conflict t.uses u.uses
  /-- A task keeps its place between an earlier and a later one, also if it is an accessor that was
  given up. -/
  place : ∀ t a u, Before b.submitted t a → Before b.submitted a u → Conflict t.uses a.uses →
    Conflict a.uses u.uses → u.id ∈ b.started.map (·.id) → t.id ∈ b.ended
  stale : ∀ k, s.graph.contains k = false → s.react (.complete k) = .ok (s, {})
  reacts : ∀ e, b.Admits e → ∃ p, s.react e = .ok p

end Record

/-! ## One event -/

theorem barrier_settle (s : Scheduler α) (tasks : List (Task α)) :
    (s.settle tasks).1.graph.isEmpty = true → (s.settle tasks).1.waiters = [] := by
  unfold settle
  split
  · exact fun _ => rfl
  · exact fun h => absurd h ‹_›

theorem mem_keys_pending_submit {s : Scheduler α} {t : Task α} (hout : t.id ∉ s.pending.keys)
    (j : TaskId) : j ∈ (s.submit t).1.pending.keys ↔
      j ∈ s.pending.keys ∨ (j = t.id ∧ (s.submit t).1.graph.waitingOf t.id ≠ 0) := by
  rw [submit_pending, Ne, ← insert_ready_iff]
  by_cases hr : (s.graph.insert t.id t.uses).2 = true
  · simp [hr]
  · rw [if_neg hr, Table.keys_put_of_notMem _ hout, List.mem_append, List.mem_singleton]
    simp [hr]

theorem mem_ids_started_submit {s : Scheduler α} {t : Task α} {j : TaskId} :
    j ∈ (s.submit t).2.started.map (·.id) ↔
      j = t.id ∧ (s.submit t).1.graph.waitingOf t.id = 0 := by
  rw [submit_started, ← insert_ready_iff]
  by_cases hr : (s.graph.insert t.id t.uses).2 = true <;> simp [hr]

theorem mem_keys_unpark_snd (pending : Table TaskId (Task α)) (ids : List TaskId) (j : TaskId) :
    j ∈ (unpark pending ids).2.keys ↔ j ∈ pending.keys ∧ j ∉ ids := by
  rw [← Table.has_iff, ← Table.has_iff, Table.has, Table.has, find?_unpark_snd]
  by_cases hj : j ∈ ids <;> simp [hj]

theorem settle_eq_self {s : Scheduler α} (h : s.graph.isEmpty = true → s.waiters = []) :
    s.settle [] = (s, {}) := by
  unfold settle
  split
  · rename_i hempty
    obtain ⟨graph, pending, waiters, failure⟩ := s
    obtain rfl : waiters = [] := h hempty
    rfl
  · rfl

namespace Record

variable {b : Record α} {s s' : Scheduler α} {g : TaskGraph} {t u : Task α} {k : TaskId}

theorem mem_ids_roster : k ∈ b.roster.map (·.1) ↔ k ∈ b.submitted.map (·.id) := by
  unfold roster
  rw [List.map_map]
  exact Iff.rfl

theorem Holds.mono {b' : Record α} (h : b.Holds t) (hsub : b.submitted ⊆ b'.submitted) :
    b'.Holds t := by
  obtain ⟨u, hu, h⟩ := h
  exact ⟨u, hsub hu, h⟩

/-- A task waits for none only if the earlier ones that it conflicts with have ended. -/
theorem ended_of_waitingOf (hg : g.Stands b.roster)
    (hu : ∀ k, g.contains k = true ↔ k ∈ b.submitted.map (·.id) ∧ k ∉ b.ended)
    (htu : Before b.submitted t u) (hc : Conflict t.uses u.uses) (hin : g.contains u.id = true)
    (hw : g.waitingOf u.id = 0) : t.id ∈ b.ended := by
  by_contra hn
  have hbefore : Before b.roster (t.id, t.uses) (u.id, u.uses) := htu.map _
  have hclear := (hg.waitingOf_eq_zero_iff hbefore.mem_right hin).mp hw
  exact hclear _ hbefore ((hu _).mpr ⟨List.mem_map_of_mem htu.mem_left, hn⟩) hc

namespace Fits

theorem nil : Fits ({} : Record α) {} where
  stands := TaskGraph.stands_empty
  unfinished k := by simp [TaskGraph.contains, Table.has, Table.find?]
  pending k := by simp [TaskGraph.contains, Table.has, Table.find?, Table.keys]
  kept k t ht := by cases ht
  waiting k := by simp
  started t ht := by cases ht
  once := List.nodup_nil
  ended k hk := by cases hk
  turn t u htu := htu.elim
  barrier _ := rfl

theorem lt_of_ended (hf : b.Fits s) (hk : k ∈ b.ended) : k ∈ b.submitted.map (·.id) :=
  ((hf.waiting k).mp (hf.ended k hk)).1

/-- A task is submitted. -/
theorem submit (hf : b.Fits s) (ht : t.id ∉ b.submitted.map (·.id)) :
    (b.add (.submit t) (s.submit t).2).Fits (s.submit t).1 := by
  have hnew : t.id ∉ b.roster.map (·.1) := mt mem_ids_roster.mp ht
  have hout : t.id ∉ s.pending.keys := fun h =>
    ht ((hf.unfinished _).mp ((hf.pending _).mp h).1).1
  have hunstarted : t.id ∉ b.started.map (·.id) := fun h => ht ((hf.waiting _).mp h).1
  have hids : ∀ j, j ∈ (b.submitted ++ [t]).map (·.id) ↔ j ∈ b.submitted.map (·.id) ∨ j = t.id := by
    intro j
    rw [List.map_append, List.mem_append, List.map_singleton, List.mem_singleton]
  have hcontains : ∀ j, (s.submit t).1.graph.contains j = true ↔
      s.graph.contains j = true ∨ j = t.id := by
    rw [submit_graph]
    exact hf.stands.contains_insert hnew
  have hpending : ∀ j, j ∈ (s.submit t).1.pending.keys ↔
      j ∈ s.pending.keys ∨ (j = t.id ∧ (s.submit t).1.graph.waitingOf t.id ≠ 0) :=
    mem_keys_pending_submit hout
  have hstarted : ∀ j, j ∈ (b.add (.submit t) (s.submit t).2).started.map (·.id) ↔
      j ∈ b.started.map (·.id) ∨ (j = t.id ∧ (s.submit t).1.graph.waitingOf t.id = 0) := by
    intro j
    rw [add, List.map_append, List.mem_append, mem_ids_started_submit]
  have hstands : (s.submit t).1.graph.Stands (b.add (.submit t) (s.submit t).2).roster := by
    rw [submit_graph]
    have hroster : (b.add (.submit t) (s.submit t).2).roster = b.roster ++ [(t.id, t.uses)] :=
      List.map_append
    rw [hroster]
    exact hf.stands.insert hnew
  have hunfinished : ∀ j, (s.submit t).1.graph.contains j = true ↔
      j ∈ (b.submitted ++ [t]).map (·.id) ∧ j ∉ b.ended := by
    intro j
    rw [hcontains, hids, hf.unfinished, or_and_right]
    refine or_congr_right (and_iff_left_of_imp ?_).symm
    rintro rfl hj
    exact ht (hf.lt_of_ended hj)
  constructor
  case stands => exact hstands
  case unfinished => exact hunfinished
  case pending =>
    intro j
    rw [hpending, hcontains]
    by_cases hj : j = t.id
    · subst hj
      simp [hout, Nat.pos_iff_ne_zero]
    · rw [waitingOf_submit hj, hf.pending]
      simp [hj]
  case kept =>
    intro j u hu
    rw [find?_pending_submit] at hu
    split at hu
    · rename_i hj
      obtain rfl := Option.some.inj hu
      exact ⟨hj.1.symm, t, List.mem_append_right _ List.mem_cons_self, Or.inl rfl⟩
    · obtain ⟨hid, hold⟩ := hf.kept j u hu
      exact ⟨hid, hold.mono (List.subset_append_left _ _)⟩
  case waiting =>
    intro j
    have hj := hf.waiting j
    rw [hstarted, hpending]
    refine Iff.trans ?_ (and_congr_left' (hids j)).symm
    by_cases hjt : j = t.id
    · subst hjt
      simp [hunstarted, hout]
    · simp [hjt, hj]
  case started =>
    intro u hu
    rcases List.mem_append.mp hu with hu | hu
    · exact (hf.started u hu).mono (List.subset_append_left _ _)
    · obtain rfl := (mem_started_submit.mp hu).1
      exact ⟨u, List.mem_append_right _ List.mem_cons_self, Or.inl rfl⟩
  case once =>
    change ((b.started ++ _).map _).Nodup
    rw [submit_started, List.map_append]
    split
    · exact hf.once.append (List.nodup_singleton _) (List.disjoint_singleton.mpr hunstarted)
    · rw [List.map_nil, List.append_nil]
      exact hf.once
  case ended =>
    intro j hj
    exact (hstarted j).mpr (Or.inl (hf.ended j hj))
  case turn =>
    intro u v huv hc hv
    rcases (hstarted v.id).mp hv with hv | ⟨hvt, hw⟩
    · rcases Before.append_singleton_iff.mp huv with huv | ⟨-, rfl⟩
      · exact hf.turn u v huv hc hv
      · contradiction
    · exact ended_of_waitingOf hstands hunfinished huv hc
        ((hcontains v.id).mpr (Or.inr hvt)) (hvt ▸ hw)
  case barrier =>
    intro hempty
    have hin := (hcontains t.id).mpr (Or.inr rfl)
    rw [TaskGraph.contains, Table.has_iff, TaskGraph.nodes_of_isEmpty hempty] at hin
    cases hin

/-- A failure is kept for a barrier. -/
theorem note (hf : b.Fits s) (f : TaskError) : b.Fits (s.note f) :=
  ⟨hf.stands, hf.unfinished, hf.pending, hf.kept, hf.waiting, hf.started, hf.once, hf.ended, hf.turn,
    hf.barrier⟩

/-- The accessor of a task that waits is given up: the task keeps its place. -/
theorem withdraw (hf : b.Fits s) (hp : s.pending.find? k = some t) (hk : b.Admits (.complete k)) :
    (b.add (.complete k) {}).Fits
      { s with pending := s.pending.put k { t with job := .withdrawn } } := by
  have hkeys := Table.mem_keys_of_find? hp
  have hnot : k ∉ b.started.map (·.id) := fun h => ((hf.waiting k).mp h).2 hkeys
  have hadd : b.add (.complete k) {} = b := by simp [add, Event.ended?, hnot]
  -- only an accessor can be given up before its start
  obtain ⟨u, hu, huk, hjob⟩ := hk.resolve_left hnot
  obtain ⟨htk, v, hv, hcase⟩ := hf.kept k t hp
  have hid : v.id = k := by
    rcases hcase with rfl | ⟨-, rfl⟩ <;> exact htk
  have hnodup : (b.submitted.map (·.id)).Nodup := by
    have := hf.stands.nodup
    rwa [roster, List.map_map] at this
  obtain rfl : v = u := List.inj_on_of_nodup_map hnodup hv hu (hid.trans huk.symm)
  have hgone : ({ t with job := .withdrawn } : Task α) = { v with job := .withdrawn } := by
    rcases hcase with rfl | ⟨-, rfl⟩ <;> rfl
  have hsame : (s.pending.put k { t with job := .withdrawn }).keys = s.pending.keys :=
    Table.keys_put_of_mem _ hkeys
  rw [hadd]
  refine ⟨hf.stands, hf.unfinished, ?_, ?_, ?_, hf.started, hf.once, hf.ended, hf.turn, hf.barrier⟩
  · intro j
    rw [hsame]
    exact hf.pending j
  · intro j w hw
    rw [Table.find?_put] at hw
    split at hw
    · rename_i hj
      obtain rfl := Option.some.inj hw
      exact ⟨htk.trans hj.symm, v, hv, Or.inr ⟨hjob, hgone⟩⟩
    · exact hf.kept j w hw
  · intro j
    rw [hsame]
    exact hf.waiting j

/-- The end of a task is reported again. -/
theorem repeated (hf : b.Fits s) (hk : k ∈ b.ended) : (b.add (.complete k) {}).Fits s := by
  have hadd : b.add (.complete k) {} = { b with ended := b.ended ++ [k] } := by
    simp [add, Event.ended?, hf.ended k hk]
  have hmem : ∀ j, j ∈ b.ended ++ [k] ↔ j ∈ b.ended := by
    intro j
    rw [List.mem_append, List.mem_singleton]
    refine or_iff_left_of_imp ?_
    rintro rfl
    exact hk
  rw [hadd]
  refine ⟨hf.stands, fun j => ?_, hf.pending, hf.kept, hf.waiting, hf.started, hf.once, fun j hj => ?_,
    fun t u htu hc hu => ?_, hf.barrier⟩
  · rw [hmem]
    exact hf.unfinished j
  · exact hf.ended j ((hmem j).mp hj)
  · exact (hmem t.id).mpr (hf.turn t u htu hc hu)

/-- A task that has been started ends. -/
theorem finish (hf : b.Fits s) (hp : s.pending.find? k = none) (hc : s.graph.contains k = true) :
    ∃ p, s.complete k = .ok p ∧ (b.add (.complete k) p.2).Fits p.1 := by
  have hkeys : k ∉ s.pending.keys := Table.find?_eq_none_iff.mp hp
  have hw : s.graph.waitingOf k = 0 := by
    by_contra hw
    exact hkeys ((hf.pending k).mpr ⟨hc, Nat.pos_of_ne_zero hw⟩)
  have hk : k ∈ b.started.map (·.id) := (hf.waiting k).mpr ⟨((hf.unfinished k).mp hc).1, hkeys⟩
  obtain ⟨g, ready, hok, hstands, hcontains, hsub, hready⟩ := hf.stands.complete hc hw
  have hnodup : ready.Nodup := hsub.nodup hf.stands.nodup
  have hparked : ∀ j ∈ ready, ∃ t, s.pending.find? j = some t ∧ t.id = j := by
    intro j hj
    obtain ⟨hin, hbefore, -⟩ := (hready j).mp hj
    have hkeys := (hf.pending j).mpr ⟨((hcontains j).mp hin).1, Nat.pos_of_ne_zero hbefore⟩
    obtain ⟨t, ht⟩ := Table.exists_find?_of_mem_keys hkeys
    exact ⟨t, ht, (hf.kept j t ht).1⟩
  have hids := map_id_unpark_fst hnodup hparked
  refine ⟨_, complete_of_notParked hp hok, ?_⟩
  have hadd : ∀ r : Reaction α, b.add (.complete k) r =
      { b with started := b.started ++ r.started, ended := b.ended ++ [k] } := by
    intro r
    simp [add, Event.ended?, hk]
  have hzero : ∀ j, g.contains j = true → s.graph.waitingOf j = 0 → g.waitingOf j = 0 :=
    fun j hin => hf.stands.waitingOf_eq_zero_mono hstands (fun i hi => ((hcontains i).mp hi).1) hin
  have hunfinished : ∀ j, g.contains j = true ↔
      j ∈ b.submitted.map (·.id) ∧ j ∉ b.ended ++ [k] := by
    intro j
    rw [hcontains, hf.unfinished, List.mem_append, List.mem_singleton, not_or, and_assoc]
  have hmono : ∀ {j}, j ∈ b.ended → j ∈ b.ended ++ [k] := fun h => List.mem_append_left _ h
  rw [hadd, settle_started]
  constructor
  case stands =>
    rw [settle_graph]
    exact hstands
  case unfinished =>
    rw [settle_graph]
    exact hunfinished
  case pending =>
    intro j
    rw [settle_graph, settle_pending, mem_keys_unpark_snd, hf.pending]
    constructor
    · rintro ⟨⟨hin, hpos⟩, hnot⟩
      have hjk : j ≠ k := by
        rintro rfl
        exact Nat.ne_of_gt hpos hw
      have hin' := (hcontains j).mpr ⟨hin, hjk⟩
      refine ⟨hin', Nat.pos_of_ne_zero fun h => hnot ?_⟩
      exact (hready j).mpr ⟨hin', Nat.ne_of_gt hpos, h⟩
    · rintro ⟨hin, hpos⟩
      refine ⟨⟨((hcontains j).mp hin).1, Nat.pos_of_ne_zero fun h => ?_⟩, fun h => ?_⟩
      · exact Nat.ne_of_gt hpos (hzero j hin h)
      · exact Nat.ne_of_gt hpos ((hready j).mp h).2.2
  case kept =>
    intro j t ht
    rw [settle_pending, find?_unpark_snd] at ht
    split at ht
    · cases ht
    · exact hf.kept j t ht
  case waiting =>
    intro j
    rw [settle_pending, mem_keys_unpark_snd, List.map_append, List.mem_append, hids, hf.waiting]
    constructor
    · rintro (⟨hsub, hnot⟩ | hj)
      · exact ⟨hsub, fun h => hnot h.1⟩
      · obtain ⟨hin, -, -⟩ := (hready j).mp hj
        exact ⟨((hf.unfinished j).mp ((hcontains j).mp hin).1).1, fun h => h.2 hj⟩
    · rintro ⟨hsub, hnot⟩
      by_cases hj : j ∈ ready
      · exact Or.inr hj
      · exact Or.inl ⟨hsub, fun h => hnot ⟨h, hj⟩⟩
  case started =>
    intro t ht
    rcases List.mem_append.mp ht with ht | ht
    · exact hf.started t ht
    · rw [unpark_fst hnodup, List.mem_filterMap] at ht
      obtain ⟨j, -, hj⟩ := ht
      exact (hf.kept j t hj).2
  case once =>
    rw [List.map_append, hids]
    refine hf.once.append hnodup ?_
    intro j hstarted hj
    obtain ⟨t, ht, -⟩ := hparked j hj
    exact ((hf.waiting j).mp hstarted).2 (Table.mem_keys_of_find? ht)
  case ended =>
    intro j hj
    rw [List.map_append]
    refine List.mem_append_left _ ?_
    rcases List.mem_append.mp hj with hj | hj
    · exact hf.ended j hj
    · exact List.mem_singleton.mp hj ▸ hk
  case turn =>
    intro t u htu hconflict hu
    rw [List.map_append, List.mem_append, hids] at hu
    rcases hu with hu | hu
    · exact hmono (hf.turn t u htu hconflict hu)
    · obtain ⟨hin, -, hafter⟩ := (hready u.id).mp hu
      exact ended_of_waitingOf (b := { b with ended := b.ended ++ [k] }) hstands hunfinished htu
        hconflict hin hafter
  case barrier => exact barrier_settle _ _

/-- The end of a task that is not in the graph changes nothing. -/
theorem stale (hf : b.Fits s) (hk : s.graph.contains k = false) : s.complete k = .ok (s, {}) := by
  have hp : s.pending.find? k = none := Table.find?_eq_none_iff.mpr fun h =>
    absurd ((hf.pending k).mp h).1 (Bool.eq_false_iff.mp hk)
  rw [complete_of_notParked hp (TaskGraph.complete_unmoved (Or.inl hk))]
  exact congrArg Except.ok (settle_eq_self hf.barrier)

/-- The end of a task is reported. -/
theorem complete (hf : b.Fits s) (hk : b.Admits (.complete k)) :
    ∃ p, s.complete k = .ok p ∧ (b.add (.complete k) p.2).Fits p.1 := by
  cases hp : s.pending.find? k with
  | some t => exact ⟨_, complete_of_parked hp, hf.withdraw hp hk⟩
  | none =>
    rcases Bool.eq_false_or_eq_true (s.graph.contains k) with hc | hc
    · exact hf.finish hp hc
    · refine ⟨_, hf.stale hc, hf.repeated ?_⟩
      have hsub : k ∈ b.submitted.map (·.id) := by
        rcases hk with hk | ⟨t, ht, rfl, -⟩
        · exact ((hf.waiting k).mp hk).1
        · exact List.mem_map_of_mem ht
      by_contra hn
      exact absurd ((hf.unfinished k).mpr ⟨hsub, hn⟩) (Bool.eq_false_iff.mp hc)

/-- The scheduler takes an event: it does not fault, and it still fits. -/
theorem react (hf : b.Fits s) {e : Event α} (he : b.Admits e) :
    ∃ p, s.react e = .ok p ∧ (b.add e p.2).Fits p.1 := by
  cases e with
  | submit t => exact ⟨_, rfl, hf.submit he⟩
  | complete k => exact hf.complete he
  | fail k f => exact (hf.note f).complete he
  | wait c =>
    refine ⟨_, rfl, ?_⟩
    have hadd : b.add (.wait c) (settle { s with waiters := s.waiters ++ [c] } []).2 = b := by
      unfold add
      rw [settle_started, List.append_nil]
      rfl
    rw [hadd]
    refine ⟨?_, ?_, ?_, ?_, ?_, hf.started, hf.once, hf.ended, hf.turn, barrier_settle _ _⟩
    · rw [settle_graph]
      exact hf.stands
    · rw [settle_graph]
      exact hf.unfinished
    · rw [settle_graph, settle_pending]
      exact hf.pending
    · rw [settle_pending]
      exact hf.kept
    · rw [settle_pending]
      exact hf.waiting

/-- What a history says about the tasks, as long as the scheduler fits it. -/
theorem exclusive (hf : b.Fits s) : b.Exclusive s := by
  refine ⟨fun k => Table.has_iff.trans (hf.pending k), hf.kept, hf.unfinished, fun k => ?_,
    hf.started, hf.once, hf.turn, ?_, ?_, fun k => hf.stale, fun e he => ?_⟩
  · rw [hf.waiting, ← Table.has_iff, Bool.not_eq_true]
  · intro t ht u hu hne hts hus hte hue hc
    rcases Before.total ht hu with rfl | htu | hut
    · exact hne rfl
    · exact hte (hf.turn t u htu hc hus)
    · exact hue (hf.turn u t hut hc.symm hts)
  · intro t a u hta hau hc hc' hu
    exact hf.turn t a hta hc (hf.ended _ (hf.turn a u hau hc' hu))
  · obtain ⟨p, hok, -⟩ := hf.react he
    exact ⟨p, hok⟩

end Fits

end Record

/-! ## Whole histories -/

theorem Run.fits {b : Record α} {s : Scheduler α} (run : Run b s) : b.Fits s := by
  induction run with
  | nil => exact .nil
  | snoc e run admitted step ih =>
    obtain ⟨p, hok, hfits⟩ := ih.react admitted
    obtain rfl := Except.ok.inj (step.symm.trans hok)
    exact hfits

/-- Whatever events a scheduler takes, it starts every task once, as soon as the task does not wait
any more and not before its turn, keeps as pending just the tasks that wait, and is not disturbed by
ends that are reported early or twice. -/
theorem Run.starts_in_turn {b : Record α} {s : Scheduler α} (run : Run b s) : b.Exclusive s :=
  run.fits.exclusive

/-- Takes events one after the other as long as they can come, and keeps the record. -/
def Record.follow (b : Record α) (s : Scheduler α) : List (Event α) → Option (Record α × Scheduler α)
  | [] => some (b, s)
  | e :: events =>
    if b.Admits e then
      match s.react e with
      | .ok (s, r) => (b.add e r).follow s events
      | .error _ => none
    else none

theorem Run.follow {b b' : Record α} {s s' : Scheduler α} {events : List (Event α)}
    (run : Run b s) (h : b.follow s events = some (b', s')) : Run b' s' := by
  induction events generalizing b s with
  | nil =>
    cases h
    exact run
  | cons e events ih =>
    unfold Record.follow at h
    split at h
    · rename_i hadm
      split at h
      · exact ih (run.snoc e hadm ‹_›) h
      · cases h
    · cases h

/-- An accessor is given up while it waits for a transfer of its buffer, and a second transfer is
submitted behind it.  The accessor is started after the first transfer has ended, as a task that
does nothing; its end is reported twice, and the second transfer is started once. -/
theorem Run.starts_in_turn_of_withdrawal :
    ∃ (b : Record Nat) (s : Scheduler Nat), Run b s ∧ b.Exclusive s ∧
      b.started.map (·.id) = [0, 1, 2] ∧ b.ended = [0, 1, 1] ∧ s.pending.keys = [] := by
  let send (id : TaskId) : Task Nat := ⟨id, "send", [(0, .read)], .send 0 1 ⟨0⟩⟩
  let events : List (Event Nat) := [.submit (send 0), .submit ⟨1, "acquire", [(0, .write)], .grant⟩,
    .complete 1, .submit (send 2), .complete 0, .complete 1, .complete 1]
  have hcheck : (Record.follow {} {} events).any (fun p => decide (p.1.started.map (·.id) = [0, 1, 2]) &&
      decide (p.1.ended = [0, 1, 1]) && decide (p.2.pending.keys = [])) = true := by
    decide +kernel
  obtain ⟨⟨b, s⟩, hfollow, hfacts⟩ := (Option.any_eq_true _ _).mp hcheck
  simp only [Bool.and_eq_true, decide_eq_true_eq] at hfacts
  have run : Run b s := Run.nil.follow hfollow
  exact ⟨b, s, run, run.starts_in_turn, hfacts.1.1, hfacts.1.2, hfacts.2⟩

end Scheduler

end TiledTensor
