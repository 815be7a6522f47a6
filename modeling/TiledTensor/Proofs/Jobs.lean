import Mathlib.Data.List.Perm.Basic
import TiledTensor.Proofs.EventHistory
import TiledTensor.Proofs.OwnSteps

/-!
# Every job is reported once

The scheduler of a rank is told of the end of what it starts: by itself, where nothing is left to be
done, by a computation that has run, or by a receive that has ended.  Over a course the ends that it
has been told of, those on their way to it, and what is still under way are counted against the
tasks that it has started, and for each task they come to one: `Node.Kept`.

Accessors are left out of the count, because their holders report their ends, at any time.
-/

namespace TiledTensor

variable {α : Type}

/-- The task that an event submits. -/
def Event.task? : Event α → Option (Task α)
  | .submit t => some t
  | _ => none

/-- The tasks on their way to the scheduler. -/
def submits (events : List (Event α)) : List (Task α) := events.filterMap Event.task?

/-- The ends on their way to the scheduler. -/
def reports (events : List (Event α)) : List TaskId := events.filterMap Event.ended?

@[simp] theorem submits_append (events more : List (Event α)) :
    submits (events ++ more) = submits events ++ submits more :=
  List.filterMap_append

@[simp] theorem reports_append (events more : List (Event α)) :
    reports (events ++ more) = reports events ++ reports more :=
  List.filterMap_append

theorem Queued.wait {m : Nat} {rest : List (Task α)} {events : List (Event α)}
    (h : Queued m rest events) (b : BarrierId) : Queued m rest (events ++ [.wait b]) := by
  induction events generalizing m rest with
  | nil => exact h
  | cons e events ih =>
    cases e with
    | submit t =>
      obtain ⟨rest', rfl, h⟩ := h
      exact ⟨rest', rfl, ih h⟩
    | complete k => exact ⟨h.1, ih h.2⟩
    | fail k f => exact ⟨h.1, ih h.2⟩
    | wait c => exact @ih m rest h

/-- The job reports its own end, and only once. -/
def Job.labours : Job α → Bool
  | .grant | .withdrawn => false
  | _ => true

theorem labours_of_copy {j : Job α} {h : HandleId} (hj : j.copy? = some h) : j.labours = true := by
  cases j <;> first | rfl | cases hj

/-- Jobs hold functions, but whether one is a given send can be decided. -/
instance (j : Job α) (h : HandleId) (dst : Rank) (tag : Tag) : Decidable (j = .send h dst tag) :=
  match j with
  | .send h' dst' tag' => decidable_of_iff ((h', dst', tag') = (h, dst, tag)) (by simp)
  | .compute .. | .receive .. | .evict _ | .grant | .retire _ | .withdrawn => isFalse (by simp)

instance (j : Job α) (h : HandleId) (src : Rank) (tag : Tag) : Decidable (j = .receive h src tag) :=
  match j with
  | .receive h' src' tag' => decidable_of_iff ((h', src', tag') = (h, src, tag)) (by simp)
  | .compute .. | .send .. | .evict _ | .grant | .retire _ | .withdrawn => isFalse (by simp)

namespace Scene

/-- The event that the scheduler takes in a scene, and its reaction. -/
def taken (g : Scene α) : Option (Event α × Reaction α) :=
  match g.happening, g.before.scheduler, g.before.events with
  | .take, some s, e :: _ =>
    match s.react e with
    | .ok p => some (e, p.2)
    | .error _ => none
  | _, _, _ => none

/-- What happens to the scheduler in a scene. -/
def note (b : Scheduler.Record α) (g : Scene α) : Scheduler.Record α :=
  match g.taken with
  | some (e, r) => b.add e r
  | none => b

/-- By calls nothing happens to the scheduler yet. -/
theorem note_of_isCall {b : Scheduler.Record α} {net : Cluster} {n n' : Node α} {a : Happening α}
    (ha : a.isCall = true) : note b ⟨net, n, a, n'⟩ = b := by
  cases a with
  | take => cases ha
  | _ => rfl

theorem taken_of_react {net : Cluster} {n n' : Node α} {s : Scheduler α} {e : Event α}
    {events : List (Event α)} {p : Scheduler α × Reaction α} (hs : n.scheduler = some s)
    (he : n.events = e :: events) (hr : s.react e = .ok p) :
    taken ⟨net, n, .take, n'⟩ = some (e, p.2) := by
  unfold taken
  dsimp only
  rw [hs, he]
  dsimp only
  rw [hr]

theorem note_of_react {b : Scheduler.Record α} {net : Cluster} {n n' : Node α} {s : Scheduler α}
    {e : Event α} {events : List (Event α)} {p : Scheduler α × Reaction α}
    (hs : n.scheduler = some s) (he : n.events = e :: events) (hr : s.react e = .ok p) :
    note b ⟨net, n, .take, n'⟩ = b.add e p.2 := by
  unfold note
  rw [taken_of_react hs he hr]

/-- What has happened to the scheduler over some scenes. -/
def record (scenes : List (Scene α)) : Scheduler.Record α := scenes.foldl note {}

theorem record_append_singleton (scenes : List (Scene α)) (g : Scene α) :
    record (scenes ++ [g]) = note (record scenes) g :=
  List.foldl_append

end Scene

namespace Node

/-- How often the end of a task is accounted for: as one that the scheduler has been told of or is
to be told of, or as that of a task that is under way or to be started. -/
def dues (n : Node α) (b : Scheduler.Record α) (todo : List (Task α)) (k : TaskId) : Nat :=
  b.ended.count k + (reports n.events).count k + (n.work.map (·.id)).count k
    + (n.arrivals.map (·.id)).count k + (todo.map (·.id)).count k

/-- A receive whose buffer cannot be opened. -/
def Stuck (n : Node α) (t : Task α) : Prop :=
  ∃ h src tag, t.job = .receive h src tag ∧ (n.handle h).memory = .poisoned

/-- What holds of a rank whose scheduler has a given record and runs; the tasks of `todo` are still
to be started. -/
structure Kept (b : Scheduler.Record α) (todo : List (Task α)) (n : Node α) (s : Scheduler α) :
    Prop where
  scheduler : n.scheduler = some s
  fits : b.Fits s
  queued : Queued b.submitted.length (submits n.events) n.events
  numbered : (b.submitted ++ submits n.events).map (·.id) = List.range n.nextTask
  may : ∀ t ∈ b.submitted ++ submits n.events, n.May t
  starting : todo ⊆ b.started
  /-- An end is reported of a task that has been started, or of an accessor. -/
  ends : ∀ k ∈ reports n.events, k ∈ b.started.map (·.id) ∨
    ∃ t ∈ b.submitted ++ submits n.events, t.id = k ∧ t.job = .grant
  /-- A failure is reported of a receive. -/
  fails : ∀ k e, .fail k e ∈ n.events →
    ∃ t ∈ b.started, t.id = k ∧ ∃ h src tag, t.job = .receive h src tag
  work : ∀ w ∈ n.work, ∃ t ∈ b.started, t.id = w.id ∧ t.job = .compute w.op
  arrivals : ∀ a ∈ n.arrivals, ∃ t ∈ b.started, t.id = a.id ∧ t.name = a.name ∧
    ∃ src tag, t.job = .receive a.handle src tag
  accessors : ∀ k a, n.accessors.find? k = some a → n.Admits a ∧
    ∃ t ∈ b.submitted ++ submits n.events, t.id = k ∧ t.job = .grant
  dues : ∀ t ∈ b.started, t.job.labours = true →
    n.dues b todo t.id = 1 ∨ (n.dues b todo t.id = 0 ∧ n.Stuck t)

/-! ## Tasks and their numbers -/

theorem count_ids_cons (t : Task α) (todo : List (Task α)) (k : TaskId) :
    ((t :: todo).map (·.id)).count k = [t.id].count k + (todo.map (·.id)).count k := by
  show ([t.id] ++ todo.map (·.id)).count k = _
  exact List.count_append

theorem count_eraseIdx {β : Type} {f : β → TaskId} {l : List β} {i : Nat} {x : β}
    (hx : l[i]? = some x) (k : TaskId) :
    (l.map f).count k = [f x].count k + ((l.eraseIdx i).map f).count k := by
  obtain ⟨hi, rfl⟩ := List.getElem?_eq_some_iff.mp hx
  have hperm := (List.getElem_cons_eraseIdx_perm hi).map f
  rw [← hperm.count_eq k]
  show ([f l[i]] ++ (l.eraseIdx i).map f).count k = _
  exact List.count_append

theorem mem_left_of_range {xs ys : List (Task α)} {N : Nat} {t : Task α}
    (hn : (xs ++ ys).map (·.id) = List.range N) (ht : t ∈ xs ++ ys) (hlt : t.id < xs.length) :
    t ∈ xs := by
  obtain ⟨i, hi, rfl⟩ := List.getElem_of_mem ht
  have hid : ((xs ++ ys)[i]).id = i := by
    have hget : ((xs ++ ys).map (·.id))[i]? = some ((xs ++ ys)[i]).id := by
      rw [List.getElem?_map, List.getElem?_eq_getElem hi]
      rfl
    rw [hn] at hget
    obtain ⟨hlen, hval⟩ := List.getElem?_eq_some_iff.mp hget
    rw [List.getElem_range] at hval
    exact hval.symm
  rw [hid] at hlt
  rw [List.getElem_append_left hlt]
  exact List.getElem_mem hlt

/-- A buffer that cannot be opened is poisoned from then on. -/
theorem poisoned_of_openHandle [Scalar α] {n : Node α} {h : HandleId} {f : Fault}
    (hf : (n.openHandle h).2 = .error f) : ((n.openHandle h).1.handle h).memory = .poisoned := by
  rw [openHandle_snd] at hf
  rw [openHandle_fst, handle_setHandle]
  by_cases hh : h < n.handles.length
  · rw [if_pos ⟨rfl, hh⟩]
    unfold Handle.access at hf ⊢
    split
    · assumption
    · rename_i block hb
      rw [hb] at hf
      cases hf
    · rename_i hb
      rw [hb] at hf
      dsimp only at hf ⊢
      split
      · rename_i hfit
        rw [if_pos hfit] at hf
        cases hf
      · rfl
  · have hnone : n.handle h = default := by
      unfold handle
      rw [List.getD_eq_getElem?_getD, List.getElem?_eq_none (Nat.le_of_not_lt hh)]
      rfl
    rw [hnone] at hf
    exfalso
    unfold Handle.access at hf
    revert hf
    show (if allocatable (0 * Scalar.size α) then _ else _ : Handle α × Except Fault (List α)).2 = _ → _
    rw [Nat.zero_mul]
    exact nofun

/-- What a call adds to the queue of a rank that has been kept so far. -/
structure Adds (b : Scheduler.Record α) (n n' : Node α) (new : List (Event α)) : Prop where
  queued : Queued b.submitted.length (submits n.events ++ submits new) (n.events ++ new)
  numbered : (b.submitted ++ (submits n.events ++ submits new)).map (·.id) = List.range n'.nextTask
  may : ∀ t ∈ submits new, n.May t
  ends : ∀ k ∈ reports new, ∃ t ∈ b.submitted ++ submits n.events, t.id = k ∧ t.job = .grant
  fails : ∀ k e, .fail k e ∉ new
  accessors : ∀ k a, n'.accessors.find? k = some a → n.accessors.find? k = some a ∨
    (n.Admits a ∧ ∃ t ∈ submits new, t.id = k ∧ t.job = .grant)

namespace Kept

variable {b : Scheduler.Record α} {todo : List (Task α)} {n n' : Node α} {s : Scheduler α}
  {t u : Task α} {k : TaskId} {e : Event α} {events : List (Event α)}

theorem nodup (hk : Kept b todo n s) : ((b.submitted ++ submits n.events).map (·.id)).Nodup := by
  rw [hk.numbered]
  exact List.nodup_range

/-- A started task has been submitted, and it is as it was submitted unless it is an accessor. -/
theorem submitted_of_started (hk : Kept b todo n s) (ht : t ∈ b.started)
    (hj : t.job.labours = true) : t ∈ b.submitted := by
  obtain ⟨u, hu, rfl | ⟨-, rfl⟩⟩ := hk.fits.started t ht
  · exact hu
  · cases hj

/-- A task with a job of its own is no accessor. -/
theorem ne_of_grant (hk : Kept b todo n s) (ht : t ∈ b.started) (hj : t.job.labours = true)
    (hu : u ∈ b.submitted ++ submits n.events) (hg : u.job = .grant) : u.id ≠ t.id := by
  intro hid
  have htm := List.mem_append_left (submits n.events) (hk.submitted_of_started ht hj)
  obtain rfl : u = t := List.inj_on_of_nodup_map hk.nodup hu htm hid
  rw [hg] at hj
  cases hj

/-- A task that has been started has one number. -/
theorem eq_of_started (hk : Kept b todo n s) (ht : t ∈ b.started) (hu : u ∈ b.started)
    (hid : t.id = u.id) : t = u :=
  List.inj_on_of_nodup_map hk.fits.once ht hu hid

/-- A started task with the number of a task that works is that task. -/
theorem eq_of_id (hk : Kept b todo n s) (ht : t ∈ b.started)
    (hu : u ∈ b.submitted ++ submits n.events) (hid : t.id = u.id) (hj : u.job.labours = true) :
    t = u := by
  obtain ⟨v, hv, hholds⟩ := hk.fits.started t ht
  have hvid : v.id = u.id := by
    rcases hholds with rfl | ⟨-, rfl⟩ <;> exact hid
  obtain rfl : v = u := List.inj_on_of_nodup_map hk.nodup (List.mem_append_left _ hv) hu hvid
  rcases hholds with rfl | ⟨hg, rfl⟩
  · rfl
  · rw [hg] at hj
    cases hj

theorem lt_of_submitted (hk : Kept b todo n s) (ht : k ∈ b.submitted.map (·.id)) :
    k < n.nextTask := by
  have hmem : k ∈ (b.submitted ++ submits n.events).map (·.id) := by
    rw [List.map_append]
    exact List.mem_append_left _ ht
  rw [hk.numbered] at hmem
  exact List.mem_range.mp hmem

/-- Every task that has been numbered is in the graph's history or on its way there. -/
theorem length_log (hk : Kept b todo n s) :
    b.submitted.length + (submits n.events).length = n.nextTask := by
  have hlen := congrArg List.length hk.numbered
  rwa [List.length_map, List.length_append, List.length_range] at hlen

/-- The scheduler has not been told, and is not to be told, of a task that is not started. -/
theorem dues_of_unstarted (hk : Kept b [] n s) (hu : k ∉ b.started.map (·.id))
    (hg : ∀ t ∈ b.submitted ++ submits n.events, t.id = k → t.job ≠ .grant) :
    n.dues b [] k = 0 := by
  have hended : k ∉ b.ended := fun h => hu (hk.fits.ended k h)
  have hreports : k ∉ reports n.events := fun h => by
    rcases hk.ends k h with h | ⟨t, ht, rfl, hj⟩
    · exact hu h
    · exact hg t ht rfl hj
  have hwork : k ∉ n.work.map (·.id) := fun h => by
    obtain ⟨w, hw, rfl⟩ := List.mem_map.mp h
    obtain ⟨t, ht, hid, -⟩ := hk.work w hw
    exact hu (hid ▸ List.mem_map_of_mem ht)
  have harrivals : k ∉ n.arrivals.map (·.id) := fun h => by
    obtain ⟨a, ha, rfl⟩ := List.mem_map.mp h
    obtain ⟨t, ht, hid, -⟩ := hk.arrivals a ha
    exact hu (hid ▸ List.mem_map_of_mem ht)
  unfold Node.dues
  rw [List.count_eq_zero_of_not_mem hended, List.count_eq_zero_of_not_mem hreports,
    List.count_eq_zero_of_not_mem hwork, List.count_eq_zero_of_not_mem harrivals]
  rfl

/-! ### Calls -/

theorem adds {new : List (Event α)} (hk : Kept b todo n s) (hb : n.Books n' new) :
    Adds b n n' new := by
  cases hb with
  | closed dead =>
    rw [hk.scheduler] at dead
    cases dead
  | nothing nextTask nextBarrier accessors =>
    refine ⟨?_, ?_, List.forall_mem_nil _, List.forall_mem_nil _, fun _ _ => List.not_mem_nil, ?_⟩
    · simpa [submits] using hk.queued
    · simpa [submits, nextTask] using hk.numbered
    · intro k a ha
      exact Or.inl (accessors ▸ ha)
  | task t id may nextTask nextBarrier accessors =>
    refine ⟨hk.queued.submit t, ?_, ?_, ?_, ?_, ?_⟩
    · show (b.submitted ++ (submits n.events ++ [t])).map (·.id) = _
      rw [← List.append_assoc, List.map_append, hk.numbered, nextTask, List.range_succ, ← id]
      rfl
    · intro u hu
      obtain rfl := List.mem_singleton.mp hu
      exact may
    · intro k hin
      cases hin
    · intro k e hin
      cases List.mem_singleton.mp hin
    · intro k a ha
      rcases accessors with hsame | ⟨a', hj, hadm, hput⟩
      · exact Or.inl (hsame ▸ ha)
      · rw [hput, Table.find?_put] at ha
        split at ha
        · rename_i hkt
          obtain rfl := Option.some.inj ha
          exact Or.inr ⟨hadm, t, List.mem_singleton.mpr rfl, hkt.symm, hj⟩
        · exact Or.inl ha
  | release k held nextTask nextBarrier accessors =>
    obtain ⟨a, ha⟩ := Table.exists_find?_of_mem_keys (Table.has_iff.mp held)
    obtain ⟨-, t, ht, hid, hj⟩ := hk.accessors k a ha
    have hlt : k < b.submitted.length + (submits n.events).length := by
      have hmem : k ∈ (b.submitted ++ submits n.events).map (·.id) := hid ▸ List.mem_map_of_mem ht
      rw [hk.numbered, List.mem_range] at hmem
      rw [hk.length_log]
      exact hmem
    refine ⟨?_, ?_, List.forall_mem_nil _, ?_, ?_, ?_⟩
    · have hq : Queued b.submitted.length (submits n.events) (n.events ++ [.complete k]) := by
        refine hk.queued.reports hlt ?_
        intro e he
        rw [List.mem_singleton.mp he]
        rfl
      show Queued _ (submits n.events ++ []) _
      rw [List.append_nil]
      exact hq
    · show (b.submitted ++ (submits n.events ++ [])).map _ = _
      rw [List.append_nil, nextTask]
      exact hk.numbered
    · intro j hj'
      obtain rfl : j = k := List.mem_singleton.mp hj'
      exact ⟨t, ht, hid, hj⟩
    · intro j e hin
      cases List.mem_singleton.mp hin
    · intro j a' ha'
      rw [accessors, Table.find?_erase] at ha'
      split at ha'
      · cases ha'
      · exact Or.inl ha'
  | barrier nextTask nextBarrier accessors =>
    refine ⟨?_, ?_, List.forall_mem_nil _, List.forall_mem_nil _, ?_, ?_⟩
    · show Queued _ (submits n.events ++ []) _
      rw [List.append_nil]
      exact hk.queued.wait n.nextBarrier
    · show (b.submitted ++ (submits n.events ++ [])).map _ = _
      rw [List.append_nil, nextTask]
      exact hk.numbered
    · intro j e hin
      cases List.mem_singleton.mp hin
    · intro k a ha
      exact Or.inl (accessors ▸ ha)

/-- By a call no end of a task that works is reported. -/
theorem dues_of_calls (hk : Kept b todo n s) (hc : n.Calls n') (ht : t ∈ b.started)
    (hj : t.job.labours = true) : n'.dues b todo t.id = n.dues b todo t.id := by
  obtain ⟨new, hev, hb⟩ := hc.books
  have hnone : t.id ∉ reports new := fun h => by
    obtain ⟨u, hu, hid, hg⟩ := (hk.adds hb).ends _ h
    exact hk.ne_of_grant ht hj hu hg hid
  unfold Node.dues
  rw [hev, reports_append, List.count_append, List.count_eq_zero_of_not_mem hnone, hc.work,
    hc.arrivals, Nat.add_zero]

/-- A call adds to the queue. -/
theorem calls (hk : Kept b todo n s) (hc : n.Calls n') : Kept b todo n' s := by
  obtain ⟨new, hev, hb⟩ := hc.books
  have hadds := hk.adds hb
  have hsub : submits n'.events = submits n.events ++ submits new := by rw [hev, submits_append]
  have hgrant : ∀ {k}, (∃ t ∈ b.submitted ++ submits n.events, t.id = k ∧ t.job = .grant) →
      ∃ t ∈ b.submitted ++ submits n'.events, t.id = k ∧ t.job = .grant := by
    rintro k ⟨t, ht, h⟩
    rw [hsub, ← List.append_assoc]
    exact ⟨t, List.mem_append_left _ ht, h⟩
  constructor
  case scheduler => exact hc.scheduler.trans hk.scheduler
  case fits => exact hk.fits
  case queued =>
    rw [hsub, hev]
    exact hadds.queued
  case numbered =>
    rw [hsub]
    exact hadds.numbered
  case may =>
    intro t ht
    rw [hsub, ← List.append_assoc] at ht
    rcases List.mem_append.mp ht with ht | ht
    · exact (hk.may t ht).of_setting hc.setting
    · exact (hadds.may t ht).of_setting hc.setting
  case starting => exact hk.starting
  case ends =>
    intro k hin
    rw [hev, reports_append] at hin
    rcases List.mem_append.mp hin with hin | hin
    · exact (hk.ends k hin).imp_right hgrant
    · exact Or.inr (hgrant (hadds.ends k hin))
  case fails =>
    intro k e hin
    rw [hev] at hin
    exact hk.fails k e ((List.mem_append.mp hin).resolve_right (hadds.fails k e))
  case work =>
    rw [hc.work]
    exact hk.work
  case arrivals =>
    rw [hc.arrivals]
    exact hk.arrivals
  case accessors =>
    intro k a ha
    rcases hadds.accessors k a ha with ha | ⟨hadm, t, ht, hid, hj⟩
    · obtain ⟨hadm, h⟩ := hk.accessors k a ha
      exact ⟨hadm.of_setting hc.setting, hgrant h⟩
    · refine ⟨hadm.of_setting hc.setting, t, ?_, hid, hj⟩
      rw [hsub]
      exact List.mem_append_right _ (List.mem_append_right _ ht)
  case dues =>
    intro t ht hj
    rw [hk.dues_of_calls hc ht hj]
    refine (hk.dues t ht hj).imp_right ?_
    rintro ⟨hzero, h, src, tag, hjob, hp⟩
    exact ⟨hzero, h, src, tag, hjob, hc.poisoned h hp⟩

/-! ### What the rank does by itself -/

/-- A step by which no event is taken.  It may report the end of one task. -/
theorem advance {todo' : List (Task α)} {s' : Scheduler α} {more : List (Event α)}
    (hk : Kept b todo n s) (hsched : n'.scheduler = some s') (hfits : b.Fits s')
    (hset : n'.setting = n.setting) (hnext : n'.nextTask = n.nextTask)
    (hpoisoned : ∀ h, (n.handle h).memory = .poisoned → (n'.handle h).memory = .poisoned)
    (ht : t ∈ b.started) (hev : n'.events = n.events ++ more)
    (hmore : ∀ e ∈ more, e.ended? = some t.id)
    (hfail : ∀ k e, .fail k e ∈ more → ∃ h src tag, t.job = .receive h src tag)
    (htodo : todo' ⊆ todo)
    (hwork : ∀ w ∈ n'.work, w ∈ n.work ∨ (t.id = w.id ∧ t.job = .compute w.op))
    (harrivals : ∀ a ∈ n'.arrivals, a ∈ n.arrivals ∨ (t.id = a.id ∧ t.name = a.name ∧
      ∃ src tag, t.job = .receive a.handle src tag))
    (haccessors : ∀ k a, n'.accessors.find? k = some a → ∃ a', n.accessors.find? k = some a' ∧
      a'.handle = a.handle ∧ a'.access = a.access)
    (hdues : ∀ u ∈ b.started, u.job.labours = true → n'.dues b todo' u.id = n.dues b todo u.id ∨
      (n'.dues b todo' u.id = 0 ∧ n'.Stuck u)) : Kept b todo' n' s' := by
  have hsub : submits n'.events = submits n.events := by
    have hnone : submits more = [] := by
      refine List.filterMap_eq_nil_iff.mpr ?_
      intro e he
      have hend := hmore e he
      cases e with
      | submit u => cases hend
      | complete k => rfl
      | fail k e => rfl
      | wait b => rfl
    rw [hev, submits_append, hnone, List.append_nil]
  have hlt : t.id < b.submitted.length + (submits n.events).length := by
    rw [hk.length_log]
    exact hk.lt_of_submitted ((hk.fits.waiting _).mp (List.mem_map_of_mem ht)).1
  constructor
  case scheduler => exact hsched
  case fits => exact hfits
  case queued =>
    rw [hsub, hev]
    exact hk.queued.reports hlt hmore
  case numbered =>
    rw [hsub, hnext]
    exact hk.numbered
  case may =>
    intro u hu
    rw [hsub] at hu
    exact (hk.may u hu).of_setting hset
  case starting => exact fun u hu => hk.starting (htodo hu)
  case ends =>
    intro k hin
    rw [hev, reports_append] at hin
    rw [hsub]
    rcases List.mem_append.mp hin with hin | hin
    · exact hk.ends k hin
    · obtain ⟨e, he, hend⟩ := List.mem_filterMap.mp hin
      obtain rfl := Option.some.inj ((hmore e he).symm.trans hend)
      exact Or.inl (List.mem_map_of_mem ht)
  case fails =>
    intro k e hin
    rw [hev] at hin
    rcases List.mem_append.mp hin with hin | hin
    · exact hk.fails k e hin
    · exact ⟨t, ht, (Option.some.inj (hmore _ hin)).symm, hfail k e hin⟩
  case work =>
    intro w hw
    exact (hwork w hw).elim (hk.work w) fun h => ⟨t, ht, h⟩
  case arrivals =>
    intro a ha
    exact (harrivals a ha).elim (hk.arrivals a) fun h => ⟨t, ht, h⟩
  case accessors =>
    intro k a ha
    obtain ⟨a', ha', hh, hacc⟩ := haccessors k a ha
    obtain ⟨hadm, hgrant⟩ := hk.accessors k a' ha'
    rw [hsub]
    refine ⟨?_, hgrant⟩
    intro hw
    have hown := hadm (hacc ▸ hw)
    rw [owner_of_setting hset, rank_of_setting hset, ← hh]
    exact hown
  case dues =>
    intro u hu hj
    rcases hdues u hu hj with hsame | hstuck
    · rw [hsame]
      refine (hk.dues u hu hj).imp_right ?_
      rintro ⟨hzero, h, src, tag, hjob, hp⟩
      exact ⟨hzero, h, src, tag, hjob, hpoisoned h hp⟩
    · exact Or.inr hstuck

/-- The next task is over as soon as it is started. -/
theorem finishFirst {m : Node α} {s' : Scheduler α} (hk : Kept b (t :: todo) n s)
    (hm : { m with scheduler := n.scheduler } = ({ n with handles := m.handles } : Node α))
    (hset : m.setting = n.setting) (hsched : m.scheduler = some s') (hfits : b.Fits s')
    (hpoisoned : ∀ h, (n.handle h).memory = .poisoned → (m.handle h).memory = .poisoned) :
    Kept b todo (m.post (.complete t.id)) s' := by
  have heq : m = { n with handles := m.handles, scheduler := m.scheduler } := by
    have := congrArg (fun x : Node α => { x with scheduler := m.scheduler }) hm
    exact this
  have hev : (m.post (.complete t.id)).events = n.events ++ [.complete t.id] := by
    rw [post_events m _ (by rw [hsched]; rfl), heq]
  have hwork : (m.post (.complete t.id)).work = n.work := by rw [post_work, heq]
  have harrivals : (m.post (.complete t.id)).arrivals = n.arrivals := by rw [post_arrivals, heq]
  refine hk.advance (t := t) ?_ hfits ?_ ?_ ?_ (hk.starting List.mem_cons_self) hev ?_ ?_
    (List.subset_cons_self _ _) ?_ ?_ ?_ ?_
  · rw [post_scheduler, hsched]
  · rw [setting_post, hset]
  · rw [post_nextTask, heq]
  · intro h hp
    show ((m.post _).handles.getD h default).memory = _
    rw [post_handles]
    exact hpoisoned h hp
  · intro e he
    rw [List.mem_singleton.mp he]
    rfl
  · intro k e hin
    cases List.mem_singleton.mp hin
  · intro w hw
    exact Or.inl (hwork ▸ hw)
  · intro a ha
    exact Or.inl (harrivals ▸ ha)
  · intro k a ha
    rw [post_accessors, heq] at ha
    exact ⟨a, ha, rfl, rfl⟩
  · intro u hu hj
    refine Or.inl ?_
    have hreports : reports (n.events ++ [.complete t.id]) = reports n.events ++ [t.id] :=
      reports_append _ _
    unfold Node.dues
    rw [hev, hwork, harrivals, hreports, List.count_append, count_ids_cons]
    omega

variable [Scalar α]

/-- Starting a task, if it does not stop the scheduler. -/
theorem start {net net' : Cluster} (hk : Kept b (t :: todo) n s) (hs : n.Starts net t net' n')
    (halive : n'.scheduler.isSome) : ∃ s', Kept b todo n' s' := by
  have ht : t ∈ b.started := hk.starting List.mem_cons_self
  have hn : n.scheduler.isSome := by rw [hk.scheduler]; rfl
  cases hs with
  | computes op job =>
    refine ⟨s, hk.advance (t := t) hk.scheduler hk.fits rfl rfl (fun _ hp => hp) ht
      (List.append_nil _).symm nofun nofun (List.subset_cons_self _ _) ?_ (fun _ ha => Or.inl ha)
      (fun _ a ha => ⟨a, ha, rfl, rfl⟩) ?_⟩
    · intro w hw
      rcases List.mem_append.mp hw with hw | hw
      · exact Or.inl hw
      · obtain rfl := List.mem_singleton.mp hw
        exact Or.inr ⟨rfl, job⟩
    · intro u hu hj
      refine Or.inl ?_
      unfold Node.dues
      rw [count_ids_cons, List.map_append, List.count_append, List.map_singleton]
      dsimp only
      omega
  | receives h src tag job =>
    refine ⟨s, hk.advance (t := t) hk.scheduler hk.fits rfl rfl (fun _ hp => hp) ht
      (List.append_nil _).symm nofun nofun (List.subset_cons_self _ _) (fun _ hw => Or.inl hw) ?_
      (fun _ a ha => ⟨a, ha, rfl, rfl⟩) ?_⟩
    · intro a ha
      rcases List.mem_append.mp ha with ha | ha
      · exact Or.inl ha
      · obtain rfl := List.mem_singleton.mp ha
        exact Or.inr ⟨rfl, rfl, src, tag, job⟩
    · intro u hu hj
      refine Or.inl ?_
      unfold Node.dues
      rw [count_ids_cons, List.map_append, List.count_append, List.map_singleton]
      dsimp only
      omega
  | sends h dst tag block net' job opened sent =>
    have hm := onlyMemory_openHandle n h
    exact ⟨s, hk.finishFirst rfl hm.setting hk.scheduler hk.fits hm.poisoned⟩
  | refused h dst tag block e job opened unsent =>
    have hm := onlyMemory_openHandle n h
    refine ⟨s.note (.transfer t.name e), hk.finishFirst rfl hm.setting ?_ (hk.fits.note _) hm.poisoned⟩
    show Option.map _ n.scheduler = _
    rw [hk.scheduler]
    rfl
  | unopened h dst tag f job unopened =>
    rw [stop_scheduler] at halive
    cases halive
  | evicts h e job freed =>
    have hm := onlyMemory_evict freed
    exact ⟨s, hk.finishFirst rfl hm.setting hk.scheduler hk.fits hm.poisoned⟩
  | unfreed h f job unfreed =>
    rw [stop_scheduler] at halive
    cases halive
  | grants job held =>
    refine ⟨s, hk.advance (t := t) hk.scheduler hk.fits rfl rfl (fun _ hp => hp) ht
      (List.append_nil _).symm nofun nofun (List.subset_cons_self _ _) (fun _ hw => Or.inl hw)
      (fun _ ha => Or.inl ha) ?_ ?_⟩
    · intro k a ha
      rw [Table.find?_adjust] at ha
      split at ha
      · obtain ⟨a', ha', rfl⟩ := Option.map_eq_some_iff.mp ha
        exact ⟨a', ha', rfl, rfl⟩
      · exact ⟨a, ha, rfl, rfl⟩
    · intro u hu hj
      have hne : t.id ≠ u.id := by
        intro hid
        rw [← hk.eq_of_started ht hu hid, job] at hj
        cases hj
      refine Or.inl ?_
      unfold Node.dues
      rw [List.map_cons, List.count_cons_of_ne hne]
  | vacant job gone => exact ⟨s, hk.finishFirst rfl rfl hk.scheduler hk.fits fun _ hp => hp⟩
  | retires tags job => exact ⟨s, hk.finishFirst rfl rfl hk.scheduler hk.fits fun _ hp => hp⟩
  | withdrawn job => exact ⟨s, hk.finishFirst rfl rfl hk.scheduler hk.fits fun _ hp => hp⟩

/-- Starting tasks in order, if none of them stops the scheduler. -/
theorem startAll {net : Cluster} {tasks : List (Task α)} (hk : Kept b tasks n s)
    (halive : (startAll net n tasks).2.scheduler.isSome) :
    ∃ s', Kept b [] (startAll net n tasks).2 s' := by
  refine startAll_of_alive (P := fun todo m => ∃ s', Kept b todo m s') ⟨s, hk⟩ ?_ halive
  rintro net net' m m' t todo hs hgo ⟨s', hm⟩
  exact hm.start hs hgo

omit [Scalar α] in
/-- Barriers do not count. -/
theorem pass (hk : Kept b todo n s) (passed : List (BarrierId × Option TaskError)) :
    Kept b todo (n.pass passed) s :=
  ⟨hk.scheduler, hk.fits, hk.queued, hk.numbered, hk.may, hk.starting, hk.ends, hk.fails, hk.work,
    hk.arrivals, hk.accessors, hk.dues⟩

omit [Scalar α] in
/-- What comes next to the scheduler is something that can come. -/
theorem admits (hk : Kept b [] n s) (he : n.events = e :: events) : b.Admits e := by
  have hq := hk.queued
  have hn := hk.nodup
  have hend : ∀ k, k ∈ reports n.events → k < b.submitted.length →
      k ∈ b.started.map (·.id) ∨ ∃ t ∈ b.submitted, t.id = k ∧ t.job = .grant := by
    intro k hin hlt
    refine (hk.ends k hin).imp_right ?_
    rintro ⟨t, ht, rfl, hj⟩
    exact ⟨t, mem_left_of_range hk.numbered ht hlt, rfl, hj⟩
  rw [he] at hq hn hend
  cases e with
  | submit t =>
    intro hin
    rw [List.map_append] at hn
    exact List.disjoint_of_nodup_append hn hin (List.mem_map_of_mem List.mem_cons_self)
  | complete k => exact hend k List.mem_cons_self hq.1
  | fail k f => exact hend k List.mem_cons_self hq.1
  | wait c => exact trivial

omit [Scalar α] in
theorem log_add (b : Scheduler.Record α) (e : Event α) (events : List (Event α)) (r : Reaction α) :
    (b.add e r).submitted ++ submits events = b.submitted ++ submits (e :: events) := by
  cases e with
  | submit t => exact List.append_assoc b.submitted [t] (submits events)
  | complete k => rfl
  | fail k f => rfl
  | wait c => rfl

omit [Scalar α] in
/-- An end of a task that has been started counts whether it is queued or taken. -/
theorem count_add {r : Reaction α} (hstarted : k ∈ b.started.map (·.id)) :
    (b.add e r).ended.count k + (reports events).count k =
      b.ended.count k + (reports (e :: events)).count k := by
  have hend : ∀ j, (if j ∈ b.started.map (·.id) then b.ended ++ [j] else b.ended).count k +
      (reports events).count k = b.ended.count k + (j :: reports events).count k := by
    intro j
    by_cases hj : j ∈ b.started.map (·.id)
    · rw [if_pos hj, List.count_append, Nat.add_assoc]
      exact congrArg _ List.count_append.symm
    · have hne : j ≠ k := fun h => hj (h ▸ hstarted)
      rw [if_neg hj, List.count_cons_of_ne hne]
  cases e with
  | submit t => rfl
  | complete j => exact hend j
  | fail j f => exact hend j
  | wait c => rfl

omit [Scalar α] in
theorem notMem_ended_add {r : Reaction α} (hk : Kept b [] n s)
    (hunstarted : k ∉ b.started.map (·.id)) : k ∉ (b.add e r).ended := by
  have hold : k ∉ b.ended := fun h => hunstarted (hk.fits.ended k h)
  have hnew : ∀ j, k ∉ if j ∈ b.started.map (·.id) then b.ended ++ [j] else b.ended := by
    intro j
    split
    · rename_i hj
      rw [List.mem_append, List.mem_singleton, not_or]
      exact ⟨hold, fun h => hunstarted (h ▸ hj)⟩
    · exact hold
  cases e with
  | submit t => exact hold
  | complete j => exact hnew j
  | fail j f => exact hnew j
  | wait c => exact hold

omit [Scalar α] in
theorem reports_of_tail (he : n.events = e :: events) : reports events ⊆ reports n.events := by
  intro k hin
  obtain ⟨f, hf, hend⟩ := List.mem_filterMap.mp hin
  exact List.mem_filterMap.mpr ⟨f, he ▸ List.mem_cons_of_mem e hf, hend⟩

section

variable {r : Reaction α} {s' : Option (Scheduler α)}

omit [Scalar α] in
/-- What is due of a task that has been started before stays so when an event is taken. -/
theorem dues_of_started (he : n.events = e :: events)
    (honce : (b.started.map (·.id) ++ r.started.map (·.id)).Nodup) (ht : t ∈ b.started) :
    Node.dues { n with events, scheduler := s' } (b.add e r) r.started t.id = n.dues b [] t.id := by
  have hid : t.id ∈ b.started.map (·.id) := List.mem_map_of_mem ht
  have hnew : (r.started.map (·.id)).count t.id = 0 :=
    List.count_eq_zero_of_not_mem fun h => List.disjoint_of_nodup_append honce hid h
  have hcount : (b.add e r).ended.count t.id + (reports events).count t.id =
      b.ended.count t.id + (reports n.events).count t.id := by
    rw [he]
    exact count_add hid
  unfold Node.dues
  dsimp only
  rw [hnew, hcount]
  rfl

omit [Scalar α] in
/-- A task that is to be started now is due once. -/
theorem dues_of_starting {s'' : Scheduler α} (hk : Kept b [] n s) (he : n.events = e :: events)
    (hfits : (b.add e r).Fits s'') (honce : (b.started.map (·.id) ++ r.started.map (·.id)).Nodup)
    (ht : t ∈ r.started) (hj : t.job.labours = true) :
    Node.dues { n with events, scheduler := s' } (b.add e r) r.started t.id = 1 := by
  have hid : t.id ∉ b.started.map (·.id) := fun h =>
    List.disjoint_of_nodup_append honce h (List.mem_map_of_mem ht)
  have hsub : t ∈ b.submitted ++ submits n.events := by
    obtain ⟨u, hu, rfl | ⟨-, rfl⟩⟩ := hfits.started t (List.mem_append_right _ ht)
    · rw [he, ← log_add b e events r]
      exact List.mem_append_left _ hu
    · cases hj
  have hzero : n.dues b [] t.id = 0 := by
    refine hk.dues_of_unstarted hid ?_
    intro u hu huid hg
    obtain rfl := List.inj_on_of_nodup_map hk.nodup hu hsub huid
    rw [hg] at hj
    cases hj
  have hended : (b.add e r).ended.count t.id = 0 :=
    List.count_eq_zero_of_not_mem (hk.notMem_ended_add hid)
  have hnone : (reports events).count t.id = 0 := by
    refine List.count_eq_zero_of_not_mem fun hin => ?_
    have hpos := List.count_pos_iff.mpr (reports_of_tail he hin)
    unfold Node.dues at hzero
    omega
  have hone : (r.started.map (·.id)).count t.id = 1 :=
    List.count_eq_one_of_mem honce.of_append_right (List.mem_map_of_mem ht)
  unfold Node.dues at hzero ⊢
  dsimp only
  omega

end

omit [Scalar α] in
/-- The scheduler takes an event: it does not fault, and what it is to start counts as such. -/
theorem react (hk : Kept b [] n s) (he : n.events = e :: events) : ∃ p, s.react e = .ok p ∧
    Kept (b.add e p.2) p.2.started { n with events, scheduler := some p.1 } p.1 := by
  obtain ⟨p, hok, hfits⟩ := hk.fits.react (hk.admits he)
  have hlog := log_add b e events p.2
  rw [← he] at hlog
  have hreports : reports events ⊆ reports n.events := reports_of_tail he
  have hold : ∀ {t}, t ∈ b.started → t ∈ (b.add e p.2).started := fun h => List.mem_append_left _ h
  have honce : (b.started.map (·.id) ++ p.2.started.map (·.id)).Nodup := by
    rw [← List.map_append]
    exact hfits.once
  refine ⟨p, hok, ?_⟩
  constructor
  case scheduler => exact rfl
  case fits => exact hfits
  case queued =>
    have hq := hk.queued
    rw [he] at hq
    cases e with
    | submit t =>
      obtain ⟨rest, hrest, hq⟩ := hq
      obtain rfl : submits events = rest := (List.cons_eq_cons.mp hrest).2
      show Queued (b.submitted ++ [t]).length _ _
      rw [List.length_append, List.length_singleton]
      exact hq
    | complete k => exact hq.2
    | fail k f => exact hq.2
    | wait c => exact hq
  case numbered =>
    show ((b.add e p.2).submitted ++ submits events).map _ = _
    rw [hlog]
    exact hk.numbered
  case may =>
    intro t ht
    have ht : t ∈ (b.add e p.2).submitted ++ submits events := ht
    rw [hlog] at ht
    exact hk.may t ht
  case starting => exact fun t ht => List.mem_append_right _ ht
  case ends =>
    intro k hin
    show _ ∨ ∃ t ∈ (b.add e p.2).submitted ++ submits events, _
    rw [hlog]
    refine (hk.ends k (hreports hin)).imp_left fun h => ?_
    obtain ⟨t, ht, hid⟩ := List.mem_map.mp h
    exact List.mem_map.mpr ⟨t, hold ht, hid⟩
  case fails =>
    intro k f hin
    obtain ⟨t, ht, h⟩ := hk.fails k f (he ▸ List.mem_cons_of_mem e hin)
    exact ⟨t, hold ht, h⟩
  case work =>
    intro w hw
    obtain ⟨t, ht, h⟩ := hk.work w hw
    exact ⟨t, hold ht, h⟩
  case arrivals =>
    intro a ha
    obtain ⟨t, ht, h⟩ := hk.arrivals a ha
    exact ⟨t, hold ht, h⟩
  case accessors =>
    intro k a ha
    show _ ∧ ∃ t ∈ (b.add e p.2).submitted ++ submits events, _
    rw [hlog]
    exact hk.accessors k a ha
  case dues =>
    intro t ht hj
    rcases List.mem_append.mp ht with ht | ht
    · rw [dues_of_started he honce ht]
      exact hk.dues t ht hj
    · exact Or.inl (hk.dues_of_starting he hfits honce ht hj)

omit [Scalar α] in
theorem of_react {p : Scheduler α × Reaction α} (hk : Kept b [] n s) (he : n.events = e :: events)
    (hok : s.react e = .ok p) :
    Kept (b.add e p.2) p.2.started { n with events, scheduler := some p.1 } p.1 := by
  obtain ⟨q, hok', hk'⟩ := hk.react he
  obtain rfl : p = q := Except.ok.inj (hok.symm.trans hok')
  exact hk'

omit [Scalar α] in
/-- What is to be started once an event is taken has been submitted and has not ended. -/
theorem starting_of_react {p : Scheduler α × Reaction α} (hk : Kept b [] n s)
    (he : n.events = e :: events) (hok : s.react e = .ok p) (ht : t ∈ p.2.started) :
    t.id ∈ (b.add e p.2).submitted.map (·.id) ∧ t.id ∉ (b.add e p.2).ended := by
  have hfits := (hk.of_react he hok).fits
  have hstarted : t.id ∈ (b.add e p.2).started.map (·.id) :=
    List.mem_map_of_mem (List.mem_append_right _ ht)
  have honce : ((b.started ++ p.2.started).map (·.id)).Nodup := hfits.once
  rw [List.map_append] at honce
  refine ⟨((hfits.waiting _).mp hstarted).1, hk.notMem_ended_add fun h => ?_⟩
  exact List.disjoint_of_nodup_append honce h (List.mem_map_of_mem ht)

omit [Scalar α] in
/-- The end of a task that was under way is reported. -/
theorem report {work : List (Work α)} {arrivals : List Arrival} {m : Node α} (hk : Kept b [] n s)
    (ht : t ∈ b.started) (hm : OnlyBuffers { n with work, arrivals } m)
    (hset : m.setting = n.setting) (hwork : work ⊆ n.work) (harrivals : arrivals ⊆ n.arrivals)
    (hcount : ∀ k, (n.work.map (·.id)).count k + (n.arrivals.map (·.id)).count k =
      [t.id].count k + (work.map (·.id)).count k + (arrivals.map (·.id)).count k)
    (hend : e.ended? = some t.id)
    (hfail : ∀ k f, e = .fail k f → ∃ h src tag, t.job = .receive h src tag) :
    Kept b [] (m.post e) s := by
  have hsched : m.scheduler = some s := hm.scheduler.trans hk.scheduler
  have hev : (m.post e).events = n.events ++ [e] := by
    rw [post_events m _ (by rw [hsched]; rfl), hm.events]
  refine hk.advance (t := t) ?_ hk.fits ?_ ?_ ?_ ht hev ?_ ?_ (fun _ h => h) ?_ ?_ ?_ ?_
  · rw [post_scheduler, hsched]
  · rw [setting_post, hset]
  · rw [post_nextTask, hm.eq]
  · intro h hp
    show ((m.post e).handles.getD h default).memory = _
    rw [post_handles]
    exact hm.poisoned h hp
  · intro f hf
    rw [List.mem_singleton.mp hf, hend]
  · intro k f hin
    exact hfail k f (List.mem_singleton.mp hin).symm
  · intro w hw
    rw [post_work, hm.work] at hw
    exact Or.inl (hwork hw)
  · intro a ha
    rw [post_arrivals, hm.arrivals] at ha
    exact Or.inl (harrivals ha)
  · intro k a ha
    rw [post_accessors, hm.accessors] at ha
    exact ⟨a, ha, rfl, rfl⟩
  · intro u hu hj
    have hreports : reports (n.events ++ [e]) = reports n.events ++ [t.id] := by
      rw [reports_append]
      unfold reports
      rw [List.filterMap_cons_some hend, List.filterMap_nil]
    have hsum := hcount u.id
    refine Or.inl ?_
    unfold Node.dues
    rw [hev, hreports, post_work, post_arrivals, hm.work, hm.arrivals, List.count_append]
    dsimp only
    omega

omit [Scalar α] in
/-- A receive whose buffer cannot be opened is dropped without a report. -/
theorem drop {arrivals : List Arrival} {m : Node α} (hk : Kept b [] n s) (ht : t ∈ b.started)
    (hm : OnlyBuffers { n with arrivals } m) (hset : m.setting = n.setting)
    (harrivals : arrivals ⊆ n.arrivals)
    (hcount : ∀ k, (n.arrivals.map (·.id)).count k =
      [t.id].count k + (arrivals.map (·.id)).count k)
    (hstuck : m.Stuck t) : Kept b [] m s := by
  have hev : m.events = n.events ++ [] := by rw [List.append_nil, hm.events]
  refine hk.advance (t := t) (hm.scheduler.trans hk.scheduler) hk.fits hset ?_ hm.poisoned ht hev
    nofun nofun (fun _ h => h) ?_ ?_ ?_ ?_
  · rw [hm.eq]
  · intro w hw
    rw [hm.work] at hw
    exact Or.inl hw
  · intro a ha
    rw [hm.arrivals] at ha
    exact Or.inl (harrivals ha)
  · intro k a ha
    rw [hm.accessors] at ha
    exact ⟨a, ha, rfl, rfl⟩
  · intro u hu hj
    have hsum := hcount u.id
    by_cases hut : u = t
    · subst hut
      have hone : [u.id].count u.id = 1 := List.count_singleton_self
      have hold := hk.dues u hu hj
      refine Or.inr ⟨?_, hstuck⟩
      unfold Node.dues at hold ⊢
      rw [hm.events, hm.work, hm.arrivals]
      dsimp only
      omega
    · have hnone : [t.id].count u.id = 0 := by
        refine List.count_eq_zero_of_not_mem fun h => hut ?_
        exact hk.eq_of_started hu ht (List.mem_singleton.mp h)
      refine Or.inl ?_
      unfold Node.dues
      rw [hm.events, hm.work, hm.arrivals]
      dsimp only
      omega

/-- A computation runs, and its end is reported. -/
theorem runWork {i : Nat} {w : Work α} (hk : Kept b [] n s) (hw : n.work[i]? = some w) : Kept b []
    ((({ n with work := n.work.eraseIdx i } : Node α).run w.op).post (.complete w.id)) s := by
  obtain ⟨t, ht, hid, hjob⟩ := hk.work w (List.mem_of_getElem? hw)
  have hm := onlyMemory_run { n with work := n.work.eraseIdx i } w.op
  refine hk.report ht hm.toOnlyBuffers hm.setting (fun v => List.mem_of_mem_eraseIdx)
    (fun _ ha => ha) ?_ (congrArg some hid.symm) nofun
  intro k
  rw [count_eraseIdx (f := fun v : Work α => v.id) hw k, hid]

omit [Scalar α] in
/-- What is received is a copy of another rank's buffer. -/
theorem foreign_of_arrival (hk : Kept b todo n s) {a : Arrival} (ha : a ∈ n.arrivals) :
    (n.handle a.handle).owner ≠ n.rank := by
  obtain ⟨t, ht, -, -, src, tag, hjob⟩ := hk.arrivals a ha
  have hj : t.job.labours = true := by rw [hjob]; rfl
  have hmay := hk.may t (List.mem_append_left _ (hk.submitted_of_started ht hj))
  unfold May at hmay
  rw [hjob] at hmay
  exact hmay.2

/-- A receive ends: its end is reported, or its buffer cannot be opened. -/
theorem finish {i : Nat} {a : Arrival} {r : Receipt} (hk : Kept b [] n s)
    (ha : n.arrivals[i]? = some a)
    (hf : Finishes { n with arrivals := n.arrivals.eraseIdx i } a r n') : Kept b [] n' s := by
  have hmem := List.mem_of_getElem? ha
  have hforeign := hk.foreign_of_arrival hmem
  obtain ⟨t, ht, hid, -, src, tag, hjob⟩ := hk.arrivals a hmem
  have hsub : n.arrivals.eraseIdx i ⊆ n.arrivals := fun _ => List.mem_of_mem_eraseIdx
  have hcount : ∀ k, (n.arrivals.map (·.id)).count k =
      [t.id].count k + ((n.arrivals.eraseIdx i).map (·.id)).count k := by
    intro k
    rw [count_eraseIdx (f := fun c : Arrival => c.id) ha k, hid]
  have hboth : ∀ k, (n.work.map (·.id)).count k + (n.arrivals.map (·.id)).count k =
      [t.id].count k + (n.work.map (·.id)).count k
        + ((n.arrivals.eraseIdx i).map (·.id)).count k := by
    intro k
    rw [hcount]
    omega
  cases hf with
  | accepts payload block opened fits =>
    have hm := (onlyMemory_openHandle { n with arrivals := n.arrivals.eraseIdx i } a.handle).trans
      (onlyMemory_store _ a.handle (Scalar.decodeBlock block.length payload))
    exact hk.report ht hm.toOnlyBuffers hm.setting (fun _ h => h) hsub hboth (congrArg some hid.symm)
      nofun
  | abandons _ x e fails =>
    have hm := fails.onlyMemory
    have howner : (x.handle a.handle).owner ≠ x.rank := by
      rw [owner_of_setting hm.setting, hm.rank]
      exact hforeign
    by_cases hp : (x.handle a.handle).memory = .poisoned
    · rw [abandon_of_poisoned howner hp]
      have hb : x.OnlyBuffers (x.setHandle a.handle
          { x.handle a.handle with state := .uninitialized }) := onlyBuffers_setHandle fun h => h
      have hset : (x.setHandle a.handle
          { x.handle a.handle with state := .uninitialized }).setting = n.setting := by
        refine Eq.trans (setting_setHandle ?_) hm.setting
        rfl
      exact hk.drop ht (hm.toOnlyBuffers.trans hb) hset hsub hcount
        ⟨a.handle, src, tag, hjob, hb.poisoned a.handle hp⟩
    · rw [abandon_of_unpoisoned howner hp]
      have hb : x.OnlyBuffers (x.setHandle a.handle
          { x.handle a.handle with state := .uninitialized, memory := .absent }) :=
        onlyBuffers_setHandle fun h => absurd h hp
      have hset : (x.setHandle a.handle { x.handle a.handle with
          state := .uninitialized, memory := .absent }).setting = n.setting := by
        refine Eq.trans (setting_setHandle ?_) hm.setting
        rfl
      exact hk.report ht (hm.toOnlyBuffers.trans hb) hset (fun _ h => h) hsub hboth
        (congrArg some hid.symm) fun _ _ _ => ⟨_, _, _, hjob⟩
  | unopened payload f unopened =>
    have hm := onlyMemory_openHandle { n with arrivals := n.arrivals.eraseIdx i } a.handle
    exact hk.drop ht hm.toOnlyBuffers hm.setting hsub hcount
      ⟨a.handle, src, tag, hjob, poisoned_of_openHandle unopened⟩

end Kept

/-! ## Courses -/

variable {n n' n₀ : Node α} {s : Scheduler α} {scenes : List (Scene α)}

theorem Fresh.kept (h₀ : n.Fresh) : Kept {} [] n {} := by
  constructor
  case scheduler => exact h₀.scheduler
  case fits => exact .nil
  case queued =>
    rw [h₀.events]
    rfl
  case numbered =>
    rw [h₀.events, h₀.nextTask]
    rfl
  case may =>
    rw [h₀.events]
    exact nofun
  case starting => exact List.nil_subset _
  case ends =>
    rw [h₀.events]
    exact nofun
  case fails =>
    rw [h₀.events]
    exact nofun
  case work =>
    rw [h₀.work]
    exact nofun
  case arrivals =>
    rw [h₀.arrivals]
    exact nofun
  case accessors =>
    rw [h₀.accessors]
    exact nofun
  case dues => exact nofun

section

variable [Scalar α] {net net' : Cluster} {a : Happening α} {b : Scheduler.Record α}

/-- A scheduler that has stopped does not come back. -/
theorem alive_of_undergo (h : n.undergo net a = some (net', n')) (halive : n'.scheduler.isSome) :
    n.scheduler.isSome := by
  cases undergoes_of_undergo h with
  | calls call calls edits => exact calls.scheduler ▸ halive
  | takes takes =>
    cases takes with
    | faults s e events f scheduler queue react => exact scheduler ▸ rfl
    | reacts s e events p scheduler queue react => exact scheduler ▸ rfl
  | works i w queued => exact scheduler_work n i w ▸ halive
  | arrives i c r pending receipt finishes => exact finishes.scheduler ▸ halive

/-- Every happening keeps what holds of a rank, as long as the scheduler runs. -/
theorem Kept.undergo {s' : Scheduler α} (hk : Kept b [] n s)
    (h : n.undergo net a = some (net', n')) (hs : n'.scheduler = some s') :
    Kept (Scene.note b ⟨net, n, a, n'⟩) [] n' s' := by
  cases undergoes_of_undergo h with
  | calls call calls edits =>
    obtain rfl : s = s' := Option.some.inj (hk.scheduler.symm.trans (calls.scheduler.symm.trans hs))
    rw [Scene.note_of_isCall call]
    exact hk.calls calls
  | takes takes =>
    obtain ⟨e, events, p, queue, react, rfl, rfl⟩ := takes.reacts_of_alive hk.scheduler (hs ▸ rfl)
    have hk' := hk.of_react queue react
    rw [Scene.note_of_react hk.scheduler queue react]
    obtain ⟨s'', hk''⟩ := hk'.startAll (Option.isSome_iff_exists.mpr ⟨s', hs⟩)
    have hend := hk''.pass p.2.passed
    obtain rfl : s'' = s' := Option.some.inj (hend.scheduler.symm.trans hs)
    exact hend
  | works i w queued =>
    have hk' := hk.runWork queued
    obtain rfl : s = s' := Option.some.inj (hk'.scheduler.symm.trans hs)
    exact hk'
  | arrives i c r pending receipt finishes =>
    have hk' := hk.finish pending finishes
    obtain rfl : s = s' := Option.some.inj (hk'.scheduler.symm.trans hs)
    exact hk'

/-- Through every course, as long as the scheduler runs, every task that it has started is reported
once. -/
theorem Course.kept (course : n₀.Course scenes n) (fresh : n₀.Fresh) (hs : n.scheduler = some s) :
    Kept (Scene.record scenes) [] n s := by
  induction course generalizing s with
  | nil =>
    obtain rfl : {} = s := Option.some.inj (fresh.scheduler.symm.trans hs)
    exact fresh.kept
  | snoc a course step ih =>
    obtain ⟨s', hs'⟩ := Option.isSome_iff_exists.mp (alive_of_undergo step (hs ▸ rfl))
    rw [Scene.record_append_singleton]
    exact (ih hs').undergo step hs

end

end Node

end TiledTensor
