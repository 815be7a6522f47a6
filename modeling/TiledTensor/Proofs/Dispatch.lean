import TiledTensor.Proofs.Lifecycle

/-!
# What keeps a log in order

One lemma for each thing that can happen to a task: it is queued, the scheduler takes an event, the
task is started, it finishes, or its accessor is given up.  The lemmas speak of a node before and a
node after and ask only for what the log has to know of the change, so that buffers, messages and
barriers do not enter.
-/

namespace TiledTensor

namespace Node

variable {α : Type} {n n' : Node α} {log : List (Task α)} {done : TaskId → Prop} {k : TaskId}

/-! ## The log by itself -/

namespace Sound

/-- Work, receives and accessors may go, and accessors may be closed. -/
theorem shrink (hs : n.Sound log done) (hnext : n'.nextTask = n.nextTask)
    (hw : n'.work.Sublist n.work) (ha : n'.arrivals.Sublist n.arrivals)
    (hc : ∀ j a, n'.accessors.find? j = some a → ∃ b, n.accessors.find? j = some b ∧
      b.handle = a.handle ∧ b.access = a.access ∧ (a.phase = .granted → b.phase = .granted)) :
    n'.Sound log done := by
  have hactive : ∀ j, n'.Active j → n.Active j := by
    rintro j (⟨w, hw', rfl⟩ | ⟨a, ha', rfl⟩ | ⟨a, ha', hg⟩)
    · exact Or.inl ⟨w, hw.subset hw', rfl⟩
    · exact Or.inr (Or.inl ⟨a, ha.subset ha', rfl⟩)
    · obtain ⟨b, hb, -, -, hbg⟩ := hc j a ha'
      exact Or.inr (Or.inr ⟨b, hb, hbg hg⟩)
  refine ⟨hnext.trans hs.next, hs.proper, hs.lt, hs.closed, fun i j hp hj => ?_, fun j hj => ?_,
    fun w hw' => hs.work w (hw.subset hw'), fun a ha' => hs.arrivals a (ha.subset ha'),
    fun j a ha' => ?_, (hw.map _).nodup hs.work_nodup, (ha.map _).nodup hs.arrivals_nodup⟩
  · exact hs.first i j hp (hactive j hj)
  · exact hs.undone j (hactive j hj)
  · obtain ⟨b, hb, hh, hacc, -⟩ := hc j a ha'
    obtain ⟨t, ht, hj, hu⟩ := hs.accessors j b hb
    exact ⟨t, ht, hj, hh ▸ hacc ▸ hu⟩

/-- A task whose turn has come, and that is not active any more, can be counted as done. -/
theorem insert (hs : n.Sound log done) (hk : k < log.length)
    (hfirst : ∀ j, Precedes log j k → done j) (hactive : ¬n.Active k) :
    n.Sound log fun j => done j ∨ j = k := by
  refine ⟨hs.next, hs.proper, ?_, ?_, fun i j hp hj => Or.inl (hs.first i j hp hj), ?_, hs.work,
    hs.arrivals, hs.accessors, hs.work_nodup, hs.arrivals_nodup⟩
  · rintro j (hj | rfl)
    · exact hs.lt j hj
    · exact hk
  · rintro i j hp (hj | rfl)
    · exact Or.inl (hs.closed i j hp hj)
    · exact Or.inl (hfirst i hp)
  · rintro j hj (hd | rfl)
    · exact hs.undone j hj hd
    · exact hactive hj

/-- A task whose turn has come becomes active. -/
theorem start (hs : n.Sound log done) {t : Task α} (ht : log[k]? = some t) (hundone : ¬done k)
    (hfirst : ∀ j, Precedes log j k → done j) (hnext : n'.nextTask = n.nextTask)
    (hactive : ∀ j, n'.Active j → n.Active j ∨ j = k)
    (hw : ∀ w ∈ n'.work, w ∈ n.work ∨ (w.id = k ∧ t.job = .compute w.op))
    (ha : ∀ a ∈ n'.arrivals, a ∈ n.arrivals ∨
      (a.id = k ∧ ∃ src tag, t.job = .receive a.handle src tag))
    (hc : ∀ j a, n'.accessors.find? j = some a → ∃ b, n.accessors.find? j = some b ∧
      b.handle = a.handle ∧ b.access = a.access)
    (hwn : (n'.work.map (·.id)).Nodup) (han : (n'.arrivals.map (·.id)).Nodup) :
    n'.Sound log done := by
  refine ⟨hnext.trans hs.next, hs.proper, hs.lt, hs.closed, fun i j hp hj => ?_, fun j hj => ?_,
    fun w hw' => ?_, fun a ha' => ?_, fun j a ha' => ?_, hwn, han⟩
  · rcases hactive j hj with hj | rfl
    · exact hs.first i j hp hj
    · exact hfirst i hp
  · rcases hactive j hj with hj | rfl
    · exact hs.undone j hj
    · exact hundone
  · rcases hw w hw' with hw' | ⟨rfl, hj⟩
    · exact hs.work w hw'
    · exact ⟨t, ht, hj⟩
  · rcases ha a ha' with ha' | ⟨rfl, src, tag, hj⟩
    · exact hs.arrivals a ha'
    · exact ⟨t, src, tag, ht, hj⟩
  · obtain ⟨b, hb, hh, hacc⟩ := hc j a ha'
    obtain ⟨u, hu, hj, huses⟩ := hs.accessors j b hb
    exact ⟨u, hu, hj, hh ▸ hacc ▸ huses⟩

/-- A new task goes to the end of the log. -/
theorem enqueue (hs : n.Sound log done) {t : Task α} (ht : t.id = log.length) (hp : t.Proper)
    (hnext : n'.nextTask = log.length + 1) (hw : n'.work = n.work) (ha : n'.arrivals = n.arrivals)
    (hactive : ∀ j, n'.Active j → n.Active j)
    (hc : ∀ j a, n'.accessors.find? j = some a → n.accessors.find? j = some a ∨
      (j = log.length ∧ t.job = .grant ∧ t.uses = [(a.handle, a.access)])) :
    n'.Sound (log ++ [t]) done := by
  have hold : ∀ {j : TaskId} {u : Task α}, log[j]? = some u → (log ++ [t])[j]? = some u :=
    fun {j u} hu => by rw [List.getElem?_append_left (lt_of_getElem?_eq_some hu), hu]
  constructor
  case next => simp [hnext]
  case proper =>
    intro j u hu
    rcases getElem?_append_singleton_eq_some hu with hu | ⟨rfl, rfl⟩
    · exact hs.proper j u hu
    · exact ⟨ht, hp⟩
  case lt =>
    intro j hj
    rw [List.length_append]
    exact Nat.lt_add_right _ (hs.lt j hj)
  case closed =>
    intro i j hij hj
    exact hs.closed i j ((precedes_append (hs.lt j hj)).mp hij) hj
  case first =>
    intro i j hij hj
    have hj := hactive j hj
    exact hs.first i j ((precedes_append (hs.lt_of_active hj)).mp hij) hj
  case undone => exact fun j hj => hs.undone j (hactive j hj)
  case work =>
    intro w hw'
    rw [hw] at hw'
    obtain ⟨u, hu, hj⟩ := hs.work w hw'
    exact ⟨u, hold hu, hj⟩
  case arrivals =>
    intro a ha'
    rw [ha] at ha'
    obtain ⟨u, src, tag, hu, hj⟩ := hs.arrivals a ha'
    exact ⟨u, src, tag, hold hu, hj⟩
  case accessors =>
    intro j a ha'
    rcases hc j a ha' with ha' | ⟨rfl, hj, huses⟩
    · obtain ⟨u, hu, hj⟩ := hs.accessors j a ha'
      exact ⟨u, hold hu, hj⟩
    · exact ⟨t, List.getElem?_concat_length, hj, huses⟩
  case work_nodup => exact hw ▸ hs.work_nodup
  case arrivals_nodup => exact ha ▸ hs.arrivals_nodup

end Sound

/-! ## The log and the scheduler -/

theorem Plan.mono {t : Task α} (ht : n.Plan log t)
    (hv : ∀ j < log.length, n.accessors.find? j = none → n'.accessors.find? j = none) :
    n'.Plan log t := by
  obtain ⟨u, hu, h⟩ := ht
  refine ⟨u, hu, h.imp_right fun h => ⟨h.1, ?_, h.2.2⟩⟩
  exact hv t.id (lt_of_getElem?_eq_some hu) h.2.1

namespace Running

variable {s s' : Scheduler α} {todo : List (Task α)} {m : Nat} {roster : Roster}

/-- Nothing changes that the log has to know of. -/
theorem congr (hr : n.Running s log done todo m roster) (hg : s'.graph = s.graph)
    (hp : s'.pending = s.pending) (he : n'.events = n.events)
    (hactive : ∀ j, n'.Active j ↔ n.Active j)
    (hv : ∀ j < log.length, n.accessors.find? j = none → n'.accessors.find? j = none)
    (hl : ∀ j, n.Lost log j → n'.Lost log j) : n'.Running s' log done todo m roster where
  tracks := hg ▸ hr.tracks
  sorted := hr.sorted
  entries := hr.entries
  gone := hr.gone
  taken := hr.taken
  queued := he ▸ hr.queued
  reported j hj := (hr.reported j (he ▸ hj)).imp_right fun h => by
    obtain ⟨⟨t, ht, hjob⟩, hvac⟩ := h
    exact ⟨⟨t, ht, hjob⟩, hv j (lt_of_getElem?_eq_some ht) hvac⟩
  announced e hem hd := he ▸ hr.announced e hem hd
  parked j t ht := by
    rw [hp] at ht
    obtain ⟨hid, hw, hplan⟩ := hr.parked j t ht
    exact ⟨hid, hg ▸ hw, hplan.mono hv⟩
  waiting e hem hw := by
    rw [hg] at hw
    rw [hp, hactive]
    exact hr.waiting e hem hw
  fresh j hj := by
    rw [hactive]
    exact hr.fresh j hj
  todo_sorted := hr.todo_sorted
  starting t ht := by
    obtain ⟨hmem, hw, hd, ha, hplan⟩ := hr.starting t ht
    exact ⟨hmem, hg ▸ hw, hd, fun h => ha ((hactive _).mp h), hplan.mono hv⟩
  ready e hem hw := by
    rw [hg] at hw
    rcases hr.ready e hem hw with h | h | h | h
    · exact Or.inl h
    · exact Or.inr (Or.inl ((hactive _).mpr h))
    · exact Or.inr (Or.inr (Or.inl h))
    · exact Or.inr (Or.inr (Or.inr (hl _ h)))

/-- A new task is queued. -/
theorem enqueue (hr : n.Running s log done todo m roster) {t : Task α}
    (he : n'.events = n.events ++ [.submit t]) (hactive : ∀ j, n'.Active j ↔ n.Active j)
    (hv : ∀ j < log.length, n.accessors.find? j = none → n'.accessors.find? j = none)
    (hl : ∀ j, n.Lost log j → n'.Lost log j) :
    n'.Running s (log ++ [t]) done todo m roster := by
  have hold : ∀ {j : TaskId} {u : Task α}, log[j]? = some u → (log ++ [t])[j]? = some u :=
    fun {j u} hu => by rw [List.getElem?_append_left (lt_of_getElem?_eq_some hu), hu]
  have hplan : ∀ {u : Task α}, n.Plan log u → n'.Plan (log ++ [t]) u := fun {u} h => by
    obtain ⟨v, hv', h⟩ := h.mono hv
    exact ⟨v, hold hv', h⟩
  have hended : n'.events.filterMap Event.ended? = n.events.filterMap Event.ended? := by
    rw [he, List.filterMap_append]
    simp [Event.ended?]
  constructor
  case tracks => exact hr.tracks
  case sorted => exact hr.sorted
  case entries =>
    intro e hem
    obtain ⟨hlt, u, hu, huses⟩ := hr.entries e hem
    exact ⟨hlt, u, hold hu, huses⟩
  case gone => exact hr.gone
  case taken =>
    rw [List.length_append]
    exact Nat.le_add_right_of_le hr.taken
  case queued =>
    rw [he, List.drop_append_of_le_length hr.taken]
    exact hr.queued.submit t
  case reported =>
    intro j hj
    rw [hended] at hj
    refine (hr.reported j hj).imp_right fun h => ?_
    obtain ⟨⟨u, hu, hjob⟩, hvac⟩ := h
    exact ⟨⟨u, hold hu, hjob⟩, hv j (lt_of_getElem?_eq_some hu) hvac⟩
  case announced =>
    intro e hem hd
    rw [hended]
    exact hr.announced e hem hd
  case parked =>
    intro j u hu
    obtain ⟨hid, hw, h⟩ := hr.parked j u hu
    exact ⟨hid, hw, hplan h⟩
  case waiting =>
    intro e hem hw
    rw [hactive]
    exact hr.waiting e hem hw
  case fresh =>
    intro j hj
    rw [hactive]
    exact hr.fresh j hj
  case todo_sorted => exact hr.todo_sorted
  case starting =>
    intro u hu
    obtain ⟨hmem, hw, hd, ha, h⟩ := hr.starting u hu
    exact ⟨hmem, hw, hd, fun h => ha ((hactive _).mp h), hplan h⟩
  case ready =>
    intro e hem hw
    rcases hr.ready e hem hw with h | h | h | h
    · exact Or.inl h
    · exact Or.inr (Or.inl ((hactive _).mpr h))
    · exact Or.inr (Or.inr (Or.inl h))
    · obtain ⟨u, h, src, tag, hu, hrest⟩ := hl _ h
      exact Or.inr (Or.inr (Or.inr ⟨u, h, src, tag, hold hu, hrest⟩))

/-- One task that waits for none moves on: it becomes active, is done and reported as finished, or
is lost.  Nothing else changes. -/
theorem advance {done' : TaskId → Prop} {todo' : List (Task α)} {reports : List (Event α)}
    (hr : n.Running s log done todo m roster)
    (hk : ∃ e ∈ roster, e.1 = k ∧ s.graph.waitingOf k = 0)
    (hg : s'.graph = s.graph) (hp : s'.pending = s.pending)
    (he : n'.events = n.events ++ reports) (hend : ∀ e ∈ reports, e.ended? = some k)
    (hactive : ∀ j ≠ k, (n'.Active j ↔ n.Active j)) (hdone : ∀ j ≠ k, (done' j ↔ done j))
    (hreport : reports ≠ [] ↔ done' k ∧ ¬done k) (hkeep : done k → done' k)
    (hnow : done' k ∨ n'.Active k ∨ n'.Lost log k)
    (hv : ∀ j < log.length, n.accessors.find? j = none → n'.accessors.find? j = none)
    (hl : ∀ j, n.Lost log j → n'.Lost log j) (hsub : todo'.Sublist todo)
    (hout : ∀ t ∈ todo', t.id ≠ k) (hrest : ∀ j ∈ todo.map (·.id), j = k ∨ j ∈ todo'.map (·.id)) :
    n'.Running s' log done' todo' m roster := by
  obtain ⟨e₀, he₀, rfl, hwait⟩ := hk
  have hkm := (hr.entries e₀ he₀).1
  have hne : ∀ {j : TaskId}, 0 < s.graph.waitingOf j → j ≠ e₀.1 := fun {j} hw hj => by
    rw [hj, hwait] at hw
    exact Nat.lt_irrefl 0 hw
  have hended : ∀ j, j ∈ n'.events.filterMap Event.ended? ↔
      j ∈ n.events.filterMap Event.ended? ∨ (j = e₀.1 ∧ reports ≠ []) := by
    intro j
    rw [he, List.filterMap_append, List.mem_append, List.mem_filterMap (l := reports)]
    refine or_congr_right ⟨?_, ?_⟩
    · rintro ⟨e, hem, hej⟩
      exact ⟨Option.some.inj (hej.symm.trans (hend e hem)), List.ne_nil_of_mem hem⟩
    · rintro ⟨rfl, hne⟩
      obtain ⟨e, hem⟩ := List.exists_mem_of_ne_nil reports hne
      exact ⟨e, hem, hend e hem⟩
  have hweak : ∀ {j : TaskId}, done j → done' j := fun {j} hj => by
    by_cases hjk : j = e₀.1
    · rw [hjk] at hj ⊢
      exact hkeep hj
    · exact (hdone j hjk).mpr hj
  constructor
  case tracks => exact hg ▸ hr.tracks
  case sorted => exact hr.sorted
  case entries => exact hr.entries
  case gone => exact fun j hj hjm => hweak (hr.gone j hj hjm)
  case taken => exact hr.taken
  case queued =>
    rw [he]
    refine hr.queued.reports ?_ hend
    rw [List.length_drop]
    exact Nat.lt_of_lt_of_le hkm (Nat.le_add_right _ _)
  case reported =>
    intro j hj
    rcases (hended j).mp hj with hj | ⟨rfl, hne⟩
    · rcases hr.reported j hj with h | ⟨⟨u, hu, hjob⟩, hvac⟩
      · exact Or.inl (hweak h)
      · exact Or.inr ⟨⟨u, hu, hjob⟩, hv j (lt_of_getElem?_eq_some hu) hvac⟩
    · exact Or.inl (hreport.mp hne).1
  case announced =>
    intro x hx hd
    rw [hended]
    by_cases hxk : x.1 = e₀.1
    · by_cases hdk : done e₀.1
      · exact Or.inl (hr.announced x hx (hxk ▸ hdk))
      · exact Or.inr ⟨hxk, hreport.mpr ⟨hxk ▸ hd, hdk⟩⟩
    · exact Or.inl (hr.announced x hx ((hdone _ hxk).mp hd))
  case parked =>
    intro j u hu
    rw [hp] at hu
    obtain ⟨hid, hw, hplan⟩ := hr.parked j u hu
    exact ⟨hid, hg ▸ hw, hplan.mono hv⟩
  case waiting =>
    intro x hx hw
    rw [hg] at hw
    rw [hp, hactive _ (hne hw), hdone _ (hne hw)]
    exact hr.waiting x hx hw
  case fresh =>
    intro j hj
    have hjk : j ≠ e₀.1 := fun h => Nat.lt_irrefl j (Nat.lt_of_lt_of_le (h ▸ hkm) hj)
    rw [hactive j hjk, hdone j hjk]
    exact hr.fresh j hj
  case todo_sorted => exact List.Pairwise.sublist (hsub.map _) hr.todo_sorted
  case starting =>
    intro u hu
    obtain ⟨hm, hw, hd, ha, hplan⟩ := hr.starting u (hsub.subset hu)
    rw [hg, hactive _ (hout u hu), hdone _ (hout u hu)]
    exact ⟨hm, hw, hd, ha, hplan.mono hv⟩
  case ready =>
    intro x hx hw
    by_cases hxk : x.1 = e₀.1
    · rw [hxk]
      exact hnow.imp_right (Or.imp_right Or.inr)
    · rw [hg] at hw
      rw [hactive _ hxk, hdone _ hxk]
      exact (hr.ready x hx hw).imp_right (Or.imp_right
        (Or.imp (fun h => (hrest _ h).resolve_left hxk) (hl _)))

/-- An accessor is given up before its grant. -/
theorem giveUp (hr : n.Running s log done todo m roster) {t : Task α} (ht : log[k]? = some t)
    (hjob : t.job = .grant) (he : n'.events = n.events ++ [.complete k])
    (hactive : ∀ j, n'.Active j ↔ n.Active j) (hk : n'.accessors.find? k = none)
    (hv : ∀ j < log.length, n.accessors.find? j = none → n'.accessors.find? j = none)
    (hl : ∀ j, n.Lost log j → n'.Lost log j) : n'.Running s log done todo m roster := by
  have hended : ∀ j, j ∈ n'.events.filterMap Event.ended? ↔
      j ∈ n.events.filterMap Event.ended? ∨ j = k := by
    intro j
    rw [he, List.filterMap_append, List.mem_append]
    simp [Event.ended?]
  constructor
  case tracks => exact hr.tracks
  case sorted => exact hr.sorted
  case entries => exact hr.entries
  case gone => exact hr.gone
  case taken => exact hr.taken
  case queued =>
    rw [he]
    refine hr.queued.reports (k := k) ?_ (by simp [Event.ended?])
    rw [List.length_drop, Nat.add_sub_cancel' hr.taken]
    exact lt_of_getElem?_eq_some ht
  case reported =>
    intro j hj
    rcases (hended j).mp hj with hj | rfl
    · refine (hr.reported j hj).imp_right fun h => ?_
      obtain ⟨⟨u, hu, hjob⟩, hvac⟩ := h
      exact ⟨⟨u, hu, hjob⟩, hv j (lt_of_getElem?_eq_some hu) hvac⟩
    · exact Or.inr ⟨⟨t, ht, hjob⟩, hk⟩
  case announced => exact fun e hem hd => (hended _).mpr (Or.inl (hr.announced e hem hd))
  case parked =>
    intro j u hu
    obtain ⟨hid, hw, hplan⟩ := hr.parked j u hu
    exact ⟨hid, hw, hplan.mono hv⟩
  case waiting =>
    intro e hem hw
    rw [hactive]
    exact hr.waiting e hem hw
  case fresh =>
    intro j hj
    rw [hactive]
    exact hr.fresh j hj
  case todo_sorted => exact hr.todo_sorted
  case starting =>
    intro u hu
    obtain ⟨hm, hw, hd, ha, hplan⟩ := hr.starting u hu
    exact ⟨hm, hw, hd, fun h => ha ((hactive _).mp h), hplan.mono hv⟩
  case ready =>
    intro e hem hw
    rw [hactive]
    exact (hr.ready e hem hw).imp_right (Or.imp_right (Or.imp_right (hl _)))

end Running

end Node

/-! ## Taking an event -/

namespace Scheduler

variable {α : Type} {s : Scheduler α}

@[simp] theorem settle_graph (s : Scheduler α) (tasks : List (Task α)) :
    (s.settle tasks).1.graph = s.graph := by
  unfold settle
  split <;> rfl

@[simp] theorem settle_pending (s : Scheduler α) (tasks : List (Task α)) :
    (s.settle tasks).1.pending = s.pending := by
  unfold settle
  split <;> rfl

@[simp] theorem settle_started (s : Scheduler α) (tasks : List (Task α)) :
    (s.settle tasks).2.started = tasks := by
  unfold settle
  split <;> rfl

theorem unpark_cons_of_some {pending : Table TaskId (Task α)} {id : TaskId} {t : Task α}
    (ht : pending.find? id = some t) (ids : List TaskId) :
    unpark pending (id :: ids) =
      (t :: (unpark (pending.erase id) ids).1, (unpark (pending.erase id) ids).2) := by
  rw [unpark, ht]

/-- The tasks come in the order in which they are asked for. -/
theorem unpark_fst {pending : Table TaskId (Task α)} {ids : List TaskId} (hn : ids.Nodup) :
    (unpark pending ids).1 = ids.filterMap pending.find? := by
  induction ids generalizing pending with
  | nil => rfl
  | cons id ids ih =>
    rw [List.nodup_cons] at hn
    cases ht : pending.find? id with
    | none =>
      rw [unpark, ht, List.filterMap_cons_none ht]
      exact ih hn.2
    | some t =>
      have hrest : ids.filterMap (pending.erase id).find? = ids.filterMap pending.find? :=
        List.filterMap_congr fun j hj =>
          Table.find?_erase_of_ne pending fun hji => hn.1 (hji ▸ hj)
      rw [unpark_cons_of_some ht, List.filterMap_cons_some ht, ih hn.2, hrest]

theorem find?_unpark_snd (pending : Table TaskId (Task α)) (ids : List TaskId) (j : TaskId) :
    (unpark pending ids).2.find? j = if j ∈ ids then none else pending.find? j := by
  induction ids generalizing pending with
  | nil => simp [unpark]
  | cons id ids ih =>
    cases ht : pending.find? id with
    | none =>
      rw [unpark, ht]
      dsimp only
      rw [ih]
      by_cases hj : j = id
      · subst hj
        simp [ht]
      · simp [hj]
    | some t =>
      rw [unpark_cons_of_some ht, ih, Table.find?_erase]
      by_cases hj : j = id <;> simp [hj]

/-- The tasks that are taken out are those that were asked for. -/
theorem map_id_unpark_fst {pending : Table TaskId (Task α)} {ids : List TaskId} (hn : ids.Nodup)
    (hp : ∀ j ∈ ids, ∃ t, pending.find? j = some t ∧ t.id = j) :
    (unpark pending ids).1.map (·.id) = ids := by
  have hself : ids.filterMap (fun j => (pending.find? j).map (·.id)) = ids.filterMap some :=
    List.filterMap_congr fun j hj => by
      obtain ⟨t, ht, hid⟩ := hp j hj
      rw [ht, Option.map_some, hid]
  rw [unpark_fst hn, List.map_filterMap, hself, List.filterMap_some]

theorem submit_graph (s : Scheduler α) (t : Task α) :
    (s.submit t).1.graph = (s.graph.insert t.id t.uses).1 := by
  unfold submit
  dsimp only
  split <;> rfl

theorem submit_pending (s : Scheduler α) (t : Task α) :
    (s.submit t).1.pending =
      if (s.graph.insert t.id t.uses).2 then s.pending else s.pending.put t.id t := by
  unfold submit
  dsimp only
  split <;> rfl

theorem submit_started (s : Scheduler α) (t : Task α) :
    (s.submit t).2.started = if (s.graph.insert t.id t.uses).2 then [t] else [] := by
  unfold submit
  dsimp only
  split <;> rfl

theorem waitingOf_submit {t : Task α} {j : TaskId} (hj : j ≠ t.id) :
    (s.submit t).1.graph.waitingOf j = s.graph.waitingOf j := by
  rw [submit_graph, TaskGraph.waitingOf_insert, if_neg hj]

theorem insert_ready_iff {t : Task α} :
    (s.graph.insert t.id t.uses).2 = true ↔ (s.submit t).1.graph.waitingOf t.id = 0 := by
  rw [submit_graph, TaskGraph.waitingOf_insert, if_pos rfl, TaskGraph.insert_snd, List.isEmpty_iff,
    List.length_eq_zero_iff]

/-- A task that has to wait is kept. -/
theorem find?_pending_submit (s : Scheduler α) (t : Task α) (j : TaskId) :
    (s.submit t).1.pending.find? j =
      if j = t.id ∧ (s.submit t).1.graph.waitingOf t.id ≠ 0 then some t else s.pending.find? j := by
  rw [submit_pending]
  by_cases hr : (s.graph.insert t.id t.uses).2 = true
  · rw [if_pos hr, if_neg fun h => h.2 (insert_ready_iff.mp hr)]
  · rw [if_neg hr, Table.find?_put]
    by_cases hj : j = t.id
    · rw [if_pos hj, if_pos ⟨hj, mt insert_ready_iff.mpr hr⟩]
    · rw [if_neg hj, if_neg fun h => hj h.1]

/-- A task that waits for none is started at once. -/
theorem mem_started_submit {t u : Task α} :
    u ∈ (s.submit t).2.started ↔ u = t ∧ (s.submit t).1.graph.waitingOf t.id = 0 := by
  rw [submit_started, ← insert_ready_iff]
  by_cases hr : (s.graph.insert t.id t.uses).2 = true <;> simp [hr]

/-- The end of a task that still waits: its accessor was given up. -/
theorem complete_of_parked {id : TaskId} {t : Task α} (ht : s.pending.find? id = some t) :
    s.complete id =
      .ok ({ s with pending := s.pending.put id { t with job := .withdrawn } }, {}) := by
  rw [complete, ht]

theorem complete_of_notParked {id : TaskId} {g : TaskGraph} {ready : List TaskId}
    (ht : s.pending.find? id = none) (hok : s.graph.complete id = .ok (g, ready)) :
    s.complete id = .ok (({ s with graph := g, pending := (unpark s.pending ready).2 }).settle
      (unpark s.pending ready).1) := by
  rw [complete, ht, hok]
  rfl

end Scheduler

namespace Node

variable {α : Type} {n n' : Node α} {log : List (Task α)} {done : TaskId → Prop} {k : TaskId}

namespace Running

variable {s s' : Scheduler α} {todo : List (Task α)} {m : Nat} {roster : Roster}

/-- The submission that comes next is that of the first task that has not been taken. -/
theorem next_of_submit (hr : n.Running s log done todo m roster) {t : Task α}
    {events : List (Event α)} (he : n.events = .submit t :: events) :
    log[m]? = some t ∧ Queued (m + 1) (log.drop (m + 1)) events := by
  obtain ⟨rest, hrest, hq⟩ : ∃ rest, log.drop m = t :: rest ∧ Queued (m + 1) rest events := by
    have := hr.queued
    rw [he] at this
    exact this
  have hdrop : log.drop (m + 1) = rest := by
    rw [← List.drop_drop, hrest]
    rfl
  refine ⟨?_, hdrop ▸ hq⟩
  have := congrArg (·[0]?) hrest
  simpa using this

/-- The scheduler takes a task. -/
theorem submit (hr : n.Running s log done [] m roster) (hs : n.Sound log done) {t : Task α}
    {events : List (Event α)} (he : n.events = .submit t :: events)
    (hn' : n' = { n with events, scheduler := some (s.submit t).1 }) :
    n'.Running (s.submit t).1 log done (s.submit t).2.started (m + 1)
      (roster ++ [(t.id, t.uses)]) := by
  have hactive : ∀ j, n'.Active j ↔ n.Active j := fun j => by
    subst hn'
    exact Iff.rfl
  have hplan : ∀ {u : Task α}, n.Plan log u → n'.Plan log u := fun {u} h => by
    subst hn'
    exact h
  have hlost : ∀ {j : TaskId}, n.Lost log j → n'.Lost log j := fun {j} h => by
    subst hn'
    exact h
  obtain ⟨hget, hq⟩ := hr.next_of_submit he
  obtain ⟨hid, -⟩ := hs.proper m t hget
  have hlt : m < log.length := lt_of_getElem?_eq_some hget
  have hne : ∀ {j : TaskId}, j ∈ roster.map (·.1) → j ≠ m := fun {j} hj hjm => by
    obtain ⟨x, hx, rfl⟩ := List.mem_map.mp hj
    exact Nat.lt_irrefl m (hjm ▸ (hr.entries x hx).1)
  have hnew : t.id ∉ roster.map (·.1) := fun h => hne h hid
  have hpos : ∀ {j : TaskId}, j ∈ roster.map (·.1) →
      (s.submit t).1.graph.waitingOf j = s.graph.waitingOf j :=
    fun {j} hj => Scheduler.waitingOf_submit (hid ▸ hne hj)
  have hfresh := hr.fresh m (Nat.le_refl m)
  constructor
  case tracks =>
    rw [Scheduler.submit_graph]
    exact hr.tracks.insert hnew
  case sorted =>
    rw [List.map_append, List.pairwise_append]
    refine ⟨hr.sorted, List.pairwise_singleton _ _, fun j hj i hi => ?_⟩
    obtain rfl := List.mem_singleton.mp hi
    obtain ⟨x, hx, rfl⟩ := List.mem_map.mp hj
    exact hid ▸ (hr.entries x hx).1
  case entries =>
    intro e hem
    rcases List.mem_append.mp hem with hem | hem
    · obtain ⟨hlt, h⟩ := hr.entries e hem
      exact ⟨Nat.lt_succ_of_lt hlt, h⟩
    · obtain rfl := List.mem_singleton.mp hem
      exact ⟨hid ▸ Nat.lt_succ_self m, t, hid ▸ hget, rfl⟩
  case gone =>
    intro j hj hjm
    rw [List.map_append, List.mem_append, not_or] at hjm
    refine hr.gone j (Nat.lt_of_le_of_ne (Nat.le_of_lt_succ hj) fun hjm' => hjm.2 ?_) hjm.1
    simp [hid, hjm']
  case taken => exact hlt
  case queued =>
    subst hn'
    exact hq
  case reported =>
    intro j hj
    have hj' : j ∈ n.events.filterMap Event.ended? := by
      rw [he]
      subst hn'
      exact hj
    subst hn'
    exact hr.reported j hj'
  case announced =>
    intro e hem hd
    rcases List.mem_append.mp hem with hem | hem
    · have := hr.announced e hem hd
      rw [he] at this
      subst hn'
      exact this
    · obtain rfl := List.mem_singleton.mp hem
      exact absurd (hid ▸ hd) hfresh.1
  case parked =>
    intro j u hu
    rw [Scheduler.find?_pending_submit] at hu
    split at hu
    · rename_i hj
      obtain rfl := Option.some.inj hu
      exact ⟨hj.1.symm, hj.1 ▸ Nat.pos_of_ne_zero hj.2, t, hid ▸ hget, Or.inl rfl⟩
    · obtain ⟨hid', hw, h⟩ := hr.parked j u hu
      obtain ⟨e, hem, rfl, -⟩ := hr.entry_of_parked hu
      exact ⟨hid', by rwa [hpos (List.mem_map_of_mem hem)], hplan h⟩
  case waiting =>
    intro e hem hw
    rcases List.mem_append.mp hem with hem | hem
    · rw [hpos (List.mem_map_of_mem hem)] at hw
      obtain ⟨hkeys, hd, ha⟩ := hr.waiting e hem hw
      obtain ⟨u, hu⟩ := Table.exists_find?_of_mem_keys hkeys
      have hnot : e.1 ≠ t.id := fun h => hnew (h ▸ List.mem_map_of_mem hem)
      refine ⟨Table.mem_keys_of_find? (v := u) ?_, hd, fun h => ha ((hactive _).mp h)⟩
      rw [Scheduler.find?_pending_submit, if_neg (mt And.left hnot), hu]
    · obtain rfl := List.mem_singleton.mp hem
      refine ⟨Table.mem_keys_of_find? (v := t) ?_, hid ▸ hfresh.1,
        fun h => hfresh.2 (hid ▸ (hactive _).mp h)⟩
      rw [Scheduler.find?_pending_submit, if_pos ⟨rfl, Nat.ne_of_gt hw⟩]
  case fresh =>
    intro j hj
    rw [hactive]
    exact hr.fresh j (Nat.le_of_succ_le hj)
  case todo_sorted =>
    rw [Scheduler.submit_started]
    split <;> simp
  case starting =>
    intro u hu
    obtain ⟨rfl, hw⟩ := Scheduler.mem_started_submit.mp hu
    exact ⟨by simp, hw, hid ▸ hfresh.1, fun h => hfresh.2 (hid ▸ (hactive _).mp h), u, hid ▸ hget,
      Or.inl rfl⟩
  case ready =>
    intro e hem hw
    rcases List.mem_append.mp hem with hem | hem
    · rw [hpos (List.mem_map_of_mem hem)] at hw
      rcases hr.ready e hem hw with h | h | h | h
      · exact Or.inl h
      · exact Or.inr (Or.inl ((hactive _).mpr h))
      · cases h
      · exact Or.inr (Or.inr (Or.inr (hlost h)))
    · obtain rfl := List.mem_singleton.mp hem
      exact Or.inr (Or.inr (Or.inl
        (List.mem_map_of_mem (Scheduler.mem_started_submit.mpr ⟨rfl, hw⟩))))

/-- The accessor of a task that waits was given up: the task stays, but will do nothing. -/
theorem withdraw (hr : n.Running s log done [] m roster) {e : Event α} {events : List (Event α)}
    (he : n.events = e :: events) (hend : e.ended? = some k) (hq : Queued m (log.drop m) events)
    {t : Task α} (ht : s.pending.find? k = some t) (hg : s'.graph = s.graph)
    (hp : s'.pending = s.pending.put k { t with job := .withdrawn })
    (hn' : n' = { n with events, scheduler := some s' }) :
    n'.Running s' log done [] m roster := by
  subst hn'
  obtain ⟨x, hx, rfl, hw⟩ := hr.entry_of_parked ht
  obtain ⟨-, hundone, -⟩ := hr.waiting x hx hw
  have hended : n.events.filterMap Event.ended? = x.1 :: events.filterMap Event.ended? := by
    rw [he, List.filterMap_cons_some hend]
  have hgrant := (hr.reported x.1 (hended ▸ List.mem_cons_self)).resolve_left hundone
  refine ⟨hg ▸ hr.tracks, hr.sorted, hr.entries, hr.gone, hr.taken, hq, fun j hj => ?_,
    fun y hy hd => ?_, fun j u hu => ?_, fun y hy hwy => ?_, hr.fresh, hr.todo_sorted,
    (fun u hu => absurd hu List.not_mem_nil), fun y hy hwy => ?_⟩
  · exact hr.reported j (hended ▸ List.mem_cons_of_mem _ hj)
  · have := hr.announced y hy hd
    rw [hended] at this
    exact (List.mem_cons.mp this).resolve_left fun h => hundone (h ▸ hd)
  · rw [hp, Table.find?_put] at hu
    by_cases hj : j = x.1
    · rw [if_pos hj, Option.some.injEq] at hu
      obtain ⟨hid, -, v, hv, hcase⟩ := hr.parked x.1 t ht
      subst hu
      refine ⟨hid.trans hj.symm, hg ▸ hj ▸ hw, v, hv, Or.inr ?_⟩
      obtain ⟨⟨v', hv', hjob⟩, hvac⟩ := hgrant
      obtain rfl : v' = v := Option.some.inj (hv'.symm.trans (hid ▸ hv))
      refine ⟨hjob, hid.symm ▸ hvac, ?_⟩
      rcases hcase with rfl | ⟨-, -, rfl⟩ <;> rfl
    · rw [if_neg hj] at hu
      rw [hg]
      exact hr.parked j u hu
  · rw [hg] at hwy
    obtain ⟨hkeys, hrest⟩ := hr.waiting y hy hwy
    rw [hp, Table.keys_put_of_mem _ (Table.mem_keys_of_find? ht)]
    exact ⟨hkeys, hrest⟩
  · rw [hg] at hwy
    exact hr.ready y hy hwy

/-- A task that waits for none, and whose end is reported, is done.  An accessor that was given up
before its grant is not active, so its task is done as well. -/
theorem done_of_ended (hr : n.Running s log done [] m roster) (hs : n.Sound log done)
    {x : TaskId × List (HandleId × Access)} (hx : x ∈ roster) (hw : s.graph.waitingOf x.1 = 0)
    (hended : x.1 ∈ n.events.filterMap Event.ended?) : done x.1 := by
  rcases hr.reported x.1 hended with h | ⟨⟨t, ht, hjob⟩, hvac⟩
  · exact h
  · rcases hr.ready x hx hw with h | h | h | ⟨u, _, _, _, hu, hju, _⟩
    · exact h
    · exact absurd h (hs.not_active_of_grant ht hjob fun a ha => by rw [hvac] at ha; cases ha)
    · cases h
    · obtain rfl : t = u := Option.some.inj (ht.symm.trans hu)
      rw [hjob] at hju
      cases hju

/-- A finished task leaves the graph, and the tasks that waited for it alone are started. -/
theorem leave (hr : n.Running s log done [] m roster) (hs : n.Sound log done) {e : Event α}
    {events : List (Event α)} (he : n.events = e :: events) (hend : e.ended? = some k)
    (hq : Queued m (log.drop m) events) {x : TaskId × List (HandleId × Access)} (hx : x ∈ roster)
    (hxk : x.1 = k) (hw : s.graph.waitingOf k = 0) :
    ∃ g' ready, s.graph.complete k = .ok (g', ready) ∧
      ∀ s', s'.graph = g' → s'.pending = (Scheduler.unpark s.pending ready).2 →
        ∀ n', n' = { n with events, scheduler := some s' } →
          n'.Running s' log done (Scheduler.unpark s.pending ready).1 m
            (roster.filter fun y => decide (y.1 ≠ k)) := by
  subst hxk
  obtain ⟨g', ready, hok, htracks, hids, hpos, hzero⟩ := hr.tracks.complete hx hw
  have hended : n.events.filterMap Event.ended? = x.1 :: events.filterMap Event.ended? := by
    rw [he, List.filterMap_cons_some hend]
  have hdone : done x.1 := hr.done_of_ended hs hx hw (hended ▸ List.mem_cons_self)
  have hparked : ∀ j ∈ ready, ∃ y ∈ roster, y.1 = j ∧ ∃ t, s.pending.find? j = some t := by
    intro j hj
    obtain ⟨y, hy, rfl⟩ := List.mem_map.mp (hids.subset hj)
    exact ⟨y, hy, rfl, Table.exists_find?_of_mem_keys (hr.waiting y hy (hpos _ hj).2).1⟩
  have hstarted : ((Scheduler.unpark s.pending ready).1).map (·.id) = ready :=
    Scheduler.map_id_unpark_fst (hids.nodup hr.tracks.nodup) fun j hj => by
      obtain ⟨-, -, -, t, ht⟩ := hparked j hj
      exact ⟨t, ht, (hr.parked j t ht).1⟩
  refine ⟨g', ready, hok, fun s' hg hp n' hn' => ?_⟩
  subst hn'
  have hpending : ∀ j, s'.pending.find? j = if j ∈ ready then none else s.pending.find? j :=
    fun j => by rw [hp, Scheduler.find?_unpark_snd]
  constructor
  case tracks => exact hg ▸ htracks
  case sorted => exact List.Pairwise.sublist (List.filter_sublist.map _) hr.sorted
  case entries => exact fun y hy => hr.entries y (List.mem_of_mem_filter hy)
  case gone =>
    intro j hj hjm
    by_cases hjx : j = x.1
    · exact hjx ▸ hdone
    · refine hr.gone j hj fun hmem => hjm ?_
      obtain ⟨y, hy, rfl⟩ := List.mem_map.mp hmem
      exact List.mem_map_of_mem (List.mem_filter.mpr ⟨hy, decide_eq_true hjx⟩)
  case taken => exact hr.taken
  case queued => exact hq
  case reported => exact fun j hj => hr.reported j (hended ▸ List.mem_cons_of_mem _ hj)
  case announced =>
    intro y hy hd
    obtain ⟨hy, hyx⟩ := List.mem_filter.mp hy
    have := hr.announced y hy hd
    rw [hended] at this
    exact (List.mem_cons.mp this).resolve_left (of_decide_eq_true hyx)
  case parked =>
    intro j u hu
    rw [hpending] at hu
    split at hu
    · cases hu
    · rename_i hj
      obtain ⟨hid, hwj, hplan⟩ := hr.parked j u hu
      have hjx : j ≠ x.1 := fun h => by
        rw [h, hw] at hwj
        exact Nat.lt_irrefl 0 hwj
      refine ⟨hid, Nat.pos_of_ne_zero fun h => ?_, hplan⟩
      rw [hg] at h
      exact ((hzero j hjx).mp h).elim (Nat.ne_of_gt hwj) hj
  case waiting =>
    intro y hy hwy
    obtain ⟨hy, hyx⟩ := List.mem_filter.mp hy
    rw [hg] at hwy
    have hnot := mt (hzero y.1 (of_decide_eq_true hyx)).mpr (Nat.ne_of_gt hwy)
    rw [not_or] at hnot
    obtain ⟨hkeys, hrest⟩ := hr.waiting y hy (Nat.pos_of_ne_zero hnot.1)
    obtain ⟨u, hu⟩ := Table.exists_find?_of_mem_keys hkeys
    refine ⟨Table.mem_keys_of_find? (v := u) ?_, hrest⟩
    rw [hpending, if_neg hnot.2, hu]
  case fresh => exact hr.fresh
  case todo_sorted =>
    rw [hstarted]
    exact List.Pairwise.sublist hids hr.sorted
  case starting =>
    intro u hu
    rw [Scheduler.unpark_fst (hids.nodup hr.tracks.nodup), List.mem_filterMap] at hu
    obtain ⟨j, hj, hu⟩ := hu
    obtain ⟨hid, hwj, hplan⟩ := hr.parked j u hu
    obtain ⟨y, hy, rfl, -⟩ := hparked j hj
    obtain ⟨-, hd, ha⟩ := hr.waiting y hy hwj
    have hne := (hpos _ hj).1
    rw [hid, hg]
    exact ⟨List.mem_map_of_mem (List.mem_filter.mpr ⟨hy, decide_eq_true hne⟩),
      (hzero _ hne).mpr (Or.inr hj), hd, ha, hplan⟩
  case ready =>
    intro y hy hwy
    obtain ⟨hy, hyx⟩ := List.mem_filter.mp hy
    rw [hg] at hwy
    rcases (hzero y.1 (of_decide_eq_true hyx)).mp hwy with hwy | hyr
    · rcases hr.ready y hy hwy with h | h | h | h
      · exact Or.inl h
      · exact Or.inr (Or.inl h)
      · cases h
      · exact Or.inr (Or.inr (Or.inr h))
    · rw [hstarted]
      exact Or.inr (Or.inr (Or.inl hyr))

/-- An event that changes neither the graph nor the waiting tasks. -/
theorem skip (hr : n.Running s log done [] m roster) {e : Event α} {events : List (Event α)}
    (he : n.events = e :: events) (hq : Queued m (log.drop m) events)
    (hend : ∀ x ∈ roster, e.ended? ≠ some x.1) (hg : s'.graph = s.graph)
    (hp : s'.pending = s.pending) (hn' : n' = { n with events, scheduler := some s' }) :
    n'.Running s' log done [] m roster := by
  subst hn'
  have hended : n.events.filterMap Event.ended? = e.ended?.toList ++ events.filterMap Event.ended? := by
    rw [he, List.filterMap_cons]
    cases e.ended? <;> rfl
  refine ⟨hg ▸ hr.tracks, hr.sorted, hr.entries, hr.gone, hr.taken, hq,
    fun j hj => hr.reported j (hended ▸ List.mem_append_right _ hj), fun x hx hd => ?_,
    fun j u hu => ?_, fun x hx hw => ?_, hr.fresh, hr.todo_sorted,
    (fun u hu => absurd hu List.not_mem_nil), fun x hx hw => ?_⟩
  · have := hr.announced x hx hd
    rw [hended, List.mem_append, Option.mem_toList] at this
    exact this.resolve_left (hend x hx)
  · rw [hp] at hu
    rw [hg]
    exact hr.parked j u hu
  · rw [hg] at hw
    rw [hp]
    exact hr.waiting x hx hw
  · rw [hg] at hw
    exact hr.ready x hx hw

/-- The scheduler is told that a task has ended. -/
theorem report (hr : n.Running s log done [] m roster) (hs : n.Sound log done) {e : Event α}
    {events : List (Event α)} (he : n.events = e :: events) (hend : e.ended? = some k)
    (hq : Queued m (log.drop m) events) (hg : s'.graph = s.graph) (hp : s'.pending = s.pending) :
    ∃ p roster', s'.complete k = .ok p ∧
      ∀ n', n' = { n with events, scheduler := some p.1 } →
        n'.Running p.1 log done p.2.started m roster' := by
  cases ht : s.pending.find? k with
  | some t =>
    rw [Scheduler.complete_of_parked (hp ▸ ht)]
    exact ⟨_, roster, rfl, fun n' hn' => hr.withdraw he hend hq ht hg (hp ▸ rfl) hn'⟩
  | none =>
    by_cases hk : k ∈ roster.map (·.1)
    · obtain ⟨x, hx, hxk⟩ := List.mem_map.mp hk
      have hw : s.graph.waitingOf k = 0 := Nat.eq_zero_of_not_pos fun h => by
        obtain ⟨hkeys, -⟩ := hr.waiting x hx (hxk.symm ▸ h)
        exact Table.find?_eq_none_iff.mp ht (hxk ▸ hkeys)
      obtain ⟨g', ready, hok, hrun⟩ := hr.leave hs he hend hq hx hxk hw
      rw [Scheduler.complete_of_notParked (hp ▸ ht) (hg ▸ hok), hp]
      refine ⟨_, roster.filter fun y => decide (y.1 ≠ k), rfl, fun n' hn' => ?_⟩
      rw [Scheduler.settle_started]
      exact hrun _ (Scheduler.settle_graph _ _) (Scheduler.settle_pending _ _) n' hn'
    · have hok := TaskGraph.complete_of_notMem (g := s.graph) (hr.tracks.keys ▸ hk)
      rw [Scheduler.complete_of_notParked (hp ▸ ht) (hg ▸ hok)]
      refine ⟨_, roster, rfl, fun n' hn' => ?_⟩
      rw [Scheduler.settle_started]
      refine hr.skip he hq (fun x hx h => hk ?_) ((Scheduler.settle_graph _ _).trans hg)
        ((Scheduler.settle_pending _ _).trans hp) hn'
      rw [hend, Option.some.injEq] at h
      exact h ▸ List.mem_map_of_mem hx

/-- The scheduler takes an event: it does not fault, and the log stays in order. -/
theorem react (hr : n.Running s log done [] m roster) (hs : n.Sound log done) {e : Event α}
    {events : List (Event α)} (he : n.events = e :: events) :
    ∃ p m' roster', s.react e = .ok p ∧
      ∀ n', n' = { n with events, scheduler := some p.1 } →
        n'.Running p.1 log done p.2.started m' roster' := by
  have hq := hr.queued
  rw [he] at hq
  cases e with
  | submit t => exact ⟨_, _, _, rfl, fun n' hn' => hr.submit hs he hn'⟩
  | complete k =>
    obtain ⟨p, roster', hok, hrun⟩ := hr.report hs he rfl hq.2 rfl rfl
    exact ⟨p, m, roster', hok, hrun⟩
  | fail k f =>
    have hnote : (s.note f).graph = s.graph ∧ (s.note f).pending = s.pending := ⟨rfl, rfl⟩
    obtain ⟨p, roster', hok, hrun⟩ := hr.report hs he rfl hq.2 hnote.1 hnote.2
    exact ⟨p, m, roster', hok, hrun⟩
  | wait b =>
    refine ⟨_, m, roster, rfl, fun n' hn' => ?_⟩
    rw [Scheduler.settle_started]
    exact hr.skip he hq (fun x _ h => by cases h) (Scheduler.settle_graph _ _)
      (Scheduler.settle_pending _ _) hn'

end Running

end Node

end TiledTensor
