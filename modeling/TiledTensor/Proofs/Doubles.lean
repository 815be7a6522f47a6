import TiledTensor.Proofs.Bystanders
import TiledTensor.Proofs.Guises
import TiledTensor.Proofs.Tenures

/-!
# A rank and its double

A rank is set beside another one, its *double*, that has been given the same tasks, apart from tasks
`R` that nobody waits for and that start nothing that concerns anybody else.  The double is the rank
under a guise: it has the same buffers, computations, receives and accessors, and only its scheduler
and what is on the way there differ, by the tasks `R`.
-/

namespace TiledTensor

/-! ## Changes that are made once -/

/-- Changes that make no difference the second time are made wherever a key is among those given. -/
theorem Table.foldl_adjust_eq_map {κ ν : Type} [DecidableEq κ] {f : ν → ν} (hf : ∀ v, f (f v) = f v)
    (ks : List κ) (t : Table κ ν) : ks.foldl (fun t k => t.adjust k f) t =
      t.map fun e => if e.1 ∈ ks then (e.1, f e.2) else e := by
  induction ks generalizing t with
  | nil => simp
  | cons k ks ih =>
    rw [List.foldl_cons, ih, Table.adjust, List.map_map]
    refine List.map_congr_left fun e _ => ?_
    by_cases hk : e.1 = k
    · by_cases hks : k ∈ ks <;> simp [hk, hks, hf]
    · simp [hk]

variable {α : Type}

/-- The events that are about a task that is not one of `R`. -/
def seen (R : List TaskId) (events : List (Event α)) : List (Event α) :=
  events.filter fun e => !e.hidden R

section

variable {R : List TaskId} {events more : List (Event α)} {e : Event α}

theorem seen_append (R : List TaskId) (events more : List (Event α)) :
    seen R (events ++ more) = seen R events ++ seen R more :=
  List.filter_append ..

theorem seen_cons_of_hidden (he : e.hidden R = true) : seen R (e :: events) = seen R events :=
  List.filter_cons_of_neg (by simp [he])

theorem seen_cons_of_not_hidden (he : e.hidden R = false) :
    seen R (e :: events) = e :: seen R events :=
  List.filter_cons_of_pos (by simp [he])

end

/-- Two guises with the same buffers, the same codelets, and the same tasks on their way. -/
structure Guise.Kin (x y : Guise α) : Prop where
  rest : y.rest = x.rest
  codelets : y.codelets = x.codelets
  submits : submits y.events = submits x.events

namespace Guise.Kin

variable {x y z : Guise α}

theorem refl (x : Guise α) : x.Kin x := ⟨rfl, rfl, rfl⟩

theorem trans (h : x.Kin y) (h' : y.Kin z) : x.Kin z :=
  ⟨h'.rest.trans h.rest, h'.codelets.trans h.codelets, h'.submits.trans h.submits⟩

/-- The end of a task is posted. -/
theorem post (x : Guise α) (k : TaskId) : x.Kin (x.post (.complete k)) := by
  unfold Guise.post
  split
  · refine ⟨rfl, rfl, ?_⟩
    rw [submits_append]
    exact List.append_nil _
  · exact refl x

theorem note (x : Guise α) (e : TaskError) : x.Kin (x.note e) := ⟨rfl, rfl, rfl⟩

end Guise.Kin

/-- The tasks that the double has been given, and those on their way. -/
def Guise.agenda (x : Guise α) (tasks' : Roster) : Roster :=
  tasks' ++ (submits x.events).map Task.entry

/-- The tasks `R` of a double use no buffers, and do nothing. -/
structure Guise.Light (R : List TaskId) (tasks' : Roster) (x : Guise α) : Prop where
  uses : ∀ z ∈ x.agenda tasks', z.1 ∈ R → z.2 = []
  jobs : ∀ t ∈ submits x.events, t.id ∈ R → t.job = .compute .idle
  sorted : ((x.agenda tasks').map (·.1)).Pairwise (· < ·)

theorem submits_subset_cons (e : Event α) (events : List (Event α)) :
    submits events ⊆ submits (e :: events) := by
  intro t ht
  obtain ⟨f, hf, hft⟩ := List.mem_filterMap.mp ht
  exact List.mem_filterMap.mpr ⟨f, List.mem_cons_of_mem e hf, hft⟩

theorem entries_append_submits (e : Event α) (events : List (Event α)) :
    e.entries ++ (submits events).map Task.entry = (submits (e :: events)).map Task.entry := by
  cases e <;> rfl

theorem Guise.agenda_cons {x : Guise α} {e : Event α} {events' : List (Event α)} (tasks' : Roster)
    (hx : x.events = e :: events') :
    tasks' ++ e.entries ++ (submits events').map Task.entry = x.agenda tasks' := by
  rw [agenda, hx, ← entries_append_submits, List.append_assoc]

theorem Guise.agenda_push (x : Guise α) (new : List (Event α)) (tasks' : Roster) :
    (x.push new).agenda tasks' = x.agenda tasks' ++ (submits new).map Task.entry := by
  unfold Guise.agenda Guise.push
  dsimp only
  rw [submits_append, List.map_append, List.append_assoc]

namespace Guise.Light

variable {R : List TaskId} {tasks' tasks'' : Roster} {x y : Guise α} {e : Event α}
  {events' : List (Event α)}

/-- Nobody waits for a task that uses no buffers. -/
theorem spares (h : x.Light R tasks') : (x.agenda tasks').Spares R := by
  intro z u hzu hz hconflict
  obtain ⟨j, a, b, ha, -⟩ := hconflict
  rw [h.uses z hzu.mem_left hz] at ha
  cases ha

/-- The tasks up to the next event come in the order of their numbers. -/
theorem sorted_cons (h : x.Light R tasks') (hx : x.events = e :: events') :
    ((tasks' ++ e.entries).map (·.1)).Pairwise (· < ·) := by
  have hs := h.sorted
  rw [← agenda_cons tasks' hx, List.map_append] at hs
  exact (List.pairwise_append.mp hs).1

theorem of_cons (h : x.Light R tasks') (hx : x.events = e :: events') (he : e.hidden R = true)
    (t : Task α) (ht : e = .submit t) : t.uses = [] ∧ t.job = .compute .idle := by
  subst ht
  have hmem : t ∈ submits x.events := by
    rw [hx]
    exact List.mem_cons_self
  have hid : t.id ∈ R := of_decide_eq_true he
  exact ⟨h.uses t.entry (List.mem_append_right _ (List.mem_map_of_mem hmem)) hid,
    h.jobs t hmem hid⟩

theorem of_agenda (h : x.Light R tasks') (hagenda : y.agenda tasks'' = x.agenda tasks')
    (hsub : submits y.events ⊆ submits x.events) : y.Light R tasks'' :=
  ⟨hagenda ▸ h.uses, fun t ht => h.jobs t (hsub ht), hagenda ▸ h.sorted⟩

/-- The double is given one more task. -/
theorem push {R' : List TaskId} {u : Task α} {new : List (Event α)}
    (h : x.Light R tasks') (hlt : ∀ z ∈ x.agenda tasks', z.1 < u.id) (hnew : submits new = [u])
    (hR : ∀ j ∈ R', j ∈ R ∨ j = u.id) (hu : u.id ∈ R' → u.uses = [] ∧ u.job = .compute .idle) :
    (x.push new).Light R' tasks' := by
  have hold : ∀ {j}, j < u.id → j ∈ R' → j ∈ R := fun hj hin =>
    (hR _ hin).resolve_right (Nat.ne_of_lt hj)
  refine ⟨fun z hz hin => ?_, fun t ht hin => ?_, ?_⟩
  · rw [agenda_push, hnew] at hz
    rcases List.mem_append.mp hz with hz | hz
    · exact h.uses z hz (hold (hlt z hz) hin)
    · obtain rfl := List.mem_singleton.mp hz
      exact (hu hin).1
  · have ht : t ∈ submits (x.events ++ new) := ht
    rw [submits_append, hnew] at ht
    rcases List.mem_append.mp ht with ht | ht
    · have hz := hlt t.entry (List.mem_append_right _ (List.mem_map_of_mem ht))
      exact h.jobs t ht (hold hz hin)
    · obtain rfl := List.mem_singleton.mp ht
      exact (hu hin).2
  · rw [agenda_push, hnew, List.map_append]
    refine List.pairwise_append.mpr ⟨h.sorted, List.pairwise_singleton _ _, fun j hj j' hj' => ?_⟩
    obtain ⟨z, hz, rfl⟩ := List.mem_map.mp hj
    obtain rfl := List.mem_singleton.mp hj'
    exact hlt z hz

end Guise.Light

namespace Node

variable {R : List TaskId} {tasks tasks' : Roster} {n n' : Node α} {x y : Guise α} {t : Task α}
  {e : Event α} {net net' : Cluster} {s s' : Scheduler α}

/-- Closing accessors depends on which of them are named. -/
theorem close_congr {ids ids' : List TaskId}
    (h : ∀ k ∈ n.accessors.keys, k ∈ ids' ↔ k ∈ ids) : n.close ids' = n.close ids := by
  have hshut : ∀ a : Accessor, (fun a : Accessor => if a.phase = .waiting then { a with phase := .closed }
      else a) ((fun a : Accessor => if a.phase = .waiting then { a with phase := .closed } else a) a) =
      (fun a : Accessor => if a.phase = .waiting then { a with phase := .closed } else a) a := by
    intro a
    dsimp only
    split
    · rw [if_neg Accessor.Phase.noConfusion]
    · rfl
  unfold close
  dsimp only
  congr 1
  rw [Table.foldl_adjust_eq_map hshut, Table.foldl_adjust_eq_map hshut]
  refine List.map_congr_left fun e he => ?_
  simp only [h e.1 (List.mem_map_of_mem he)]

theorem stop_of_none (h : n.scheduler = none) : n.stop = n := by
  unfold stop
  rw [h]

theorem stop_of_some (h : n.scheduler = some s) : n.stop = ({ n with
    scheduler := none
    barriers := s.waiters.foldl (fun table b => table.adjust b fun _ => .closed) n.barriers } :
      Node α).close s.pending.keys := by
  unfold stop
  rw [h]

theorem keys_close (n : Node α) (ids : List TaskId) :
    (n.close ids).accessors.keys = n.accessors.keys :=
  Table.keys_foldl_adjust _ _ _

/-- The scheduler of a rank and that of its double have been given the same tasks, apart from `R`,
or have both stopped. -/
inductive Paired (R : List TaskId) (tasks tasks' : Roster) :
    Option (Scheduler α) → Option (Scheduler α) → Prop
  | stopped : Paired R tasks tasks' none none
  | running {s s' : Scheduler α} (twin : Scheduler.Twin R s s' tasks tasks') :
      Paired R tasks tasks' (some s) (some s')

theorem Paired.isSome_eq {o o' : Option (Scheduler α)} (h : Paired R tasks tasks' o o') :
    o'.isSome = o.isSome := by
  cases h <;> rfl

/-- A rank goes along with its double. -/
structure Abreast (R : List TaskId) (tasks tasks' : Roster) (n : Node α) (x : Guise α) : Prop where
  schedulers : Paired R tasks tasks' n.scheduler x.scheduler
  events : seen R x.events = seen R n.events
  /-- The tasks `R` are no accessors. -/
  keys : ∀ k ∈ n.accessors.keys, k ∉ R

/-- The rank does something by itself that concerns nobody else. -/
inductive Quiets [Scalar α] (n : Node α) (net : Cluster) : Node α → Prop
  | refl : Quiets n net n
  | snoc {m n' : Node α} (a : Act α) (quiet : a = .take ∨ ∃ i, a = .work i)
      (before : Quiets n net m) (step : m.act net a = some (net, n')) : Quiets n net n'

theorem Quiets.trans [Scalar α] {m : Node α} (h : n.Quiets net m) (h' : m.Quiets net n') :
    n.Quiets net n' := by
  induction h' with
  | refl => exact h
  | snoc a quiet before step ih => exact ih.snoc a quiet step

theorem eventWeight_pos (e : Event α) : 0 < eventWeight e := by
  cases e <;> exact Nat.succ_pos _

/-- A computation that does nothing is over as soon as it runs. -/
theorem act_idle [Scalar α] (m : Node α) (k : TaskId) (net : Cluster) :
    ({ m with work := m.work ++ [⟨k, .idle⟩] } : Node α).act net (.work m.work.length) =
      some (net, m.post (.complete k)) := by
  refine Option.map_eq_some_iff.mpr ⟨_, runWork_eq_some_iff.mpr ⟨_, List.getElem?_concat_length, rfl⟩, ?_⟩
  rw [List.eraseIdx_append_of_length_le (Nat.le_refl _), Nat.sub_self, List.eraseIdx_cons_zero,
    List.append_nil]
  rfl

namespace Abreast

theorem isSome_eq (h : Abreast R tasks tasks' n x) : x.scheduler.isSome = n.scheduler.isSome :=
  h.schedulers.isSome_eq

/-- What the double is told of and is not hidden is what the rank is told of. -/
theorem mem_events_iff (h : Abreast R tasks tasks' n x) (he : e.hidden R = false) :
    e ∈ x.events ↔ e ∈ n.events := by
  have hmem := Iff.of_eq (congrArg (e ∈ ·) h.events)
  unfold seen at hmem
  rwa [List.mem_filter, List.mem_filter, he, Bool.not_false, and_iff_left rfl,
    and_iff_left rfl] at hmem

theorem cases (h : Abreast R tasks tasks' n x) : (n.scheduler = none ∧ x.scheduler = none) ∨
    ∃ s s', n.scheduler = some s ∧ x.scheduler = some s' ∧ Scheduler.Twin R s s' tasks tasks' := by
  have hs := h.schedulers
  generalize n.scheduler = o at hs ⊢
  generalize x.scheduler = o' at hs ⊢
  cases hs with
  | stopped => exact Or.inl ⟨rfl, rfl⟩
  | running twin => exact Or.inr ⟨_, _, rfl, rfl, twin⟩

theorem twin (h : Abreast R tasks tasks' n x) (hs : n.scheduler = some s) :
    ∃ s', x.scheduler = some s' ∧ Scheduler.Twin R s s' tasks tasks' := by
  rcases h.cases with ⟨hnone, -⟩ | ⟨u, s', hu, hs', twin⟩
  · rw [hs] at hnone
    cases hnone
  · obtain rfl : s = u := Option.some.inj (hs.symm.trans hu)
    exact ⟨s', hs', twin⟩

theorem of_parts (h : Abreast R tasks tasks' n x) (hs : n'.scheduler = n.scheduler)
    (he : n'.events = n.events) (hk : n'.accessors.keys = n.accessors.keys) :
    Abreast R tasks tasks' n' x :=
  ⟨hs ▸ h.schedulers, he ▸ h.events, hk ▸ h.keys⟩

theorem post (h : Abreast R tasks tasks' n x) (e : Event α) :
    Abreast R tasks tasks' (n.post e) (x.post e) := by
  unfold Node.post Guise.post
  rw [h.isSome_eq]
  split
  · refine ⟨h.schedulers, ?_, h.keys⟩
    rw [seen_append, seen_append, h.events]
  · exact h

/-- The rank posts what is not about its double. -/
theorem post_hidden (h : Abreast R tasks tasks' n x) (he : e.hidden R = true) :
    Abreast R tasks tasks' (n.post e) x := by
  unfold Node.post
  split
  · refine ⟨h.schedulers, ?_, h.keys⟩
    rw [seen_append, seen_cons_of_hidden he, h.events]
    exact (List.append_nil _).symm
  · exact h

theorem note (h : Abreast R tasks tasks' n x) (f : TaskError) :
    Abreast R tasks tasks' (n.note f) (x.note f) := by
  refine ⟨?_, h.events, h.keys⟩
  have hs := h.schedulers
  unfold Node.note Guise.note
  dsimp only
  generalize n.scheduler = o at hs ⊢
  generalize x.scheduler = o' at hs ⊢
  cases hs with
  | stopped => exact .stopped
  | running twin => exact .running (twin.of_parts rfl rfl rfl rfl)

theorem close (h : Abreast R tasks tasks' n x) (ids : List TaskId) :
    Abreast R tasks tasks' (n.close ids) x :=
  h.of_parts rfl rfl (keys_close n ids)

/-- The accessors that are closed with the waiting tasks are the same for a rank and its double. -/
theorem mem_pending_iff (h : Abreast R tasks tasks' n x) (twin : Scheduler.Twin R s s' tasks tasks') :
    ∀ k ∈ n.accessors.keys, k ∈ s'.pending.keys ↔ k ∈ s.pending.keys := by
  intro k hk
  rw [← Table.has_iff, ← Table.has_iff, Table.has, Table.has, twin.pending k (h.keys k hk)]

/-- If a rank stops its double does. -/
theorem exists_stop (h : Abreast R tasks tasks' n x) : ∃ y : Guise α,
    (n.under x).stop = n.stop.under y ∧ x.Kin y ∧ Abreast R tasks tasks' n.stop y := by
  rcases h.cases with ⟨hn, hx⟩ | ⟨s, s', hn, hx, twin⟩
  · refine ⟨x, ?_, .refl x, ?_⟩
    · rw [stop_of_none hn, stop_of_none (n := n.under x) hx]
    · rw [stop_of_none hn]
      exact h
  · rw [stop_of_some hn, stop_of_some (n := n.under x) hx]
    refine ⟨{ x with
      scheduler := none
      barriers := s'.waiters.foldl (fun table b => table.adjust b fun _ => .closed) x.barriers },
      ?_, ⟨rfl, rfl, rfl⟩, .stopped, h.events, ?_⟩
    · exact close_congr (h.mem_pending_iff twin)
    · rw [keys_close]
      exact h.keys

variable [Scalar α]

/-- A task is started by the double as it is by the rank. -/
theorem exists_start (h : Abreast R tasks tasks' n x) (ht : n.Sanctions t) (net : Cluster) :
    ∃ y : Guise α, start net (n.under x) t = ((start net n t).1, (start net n t).2.under y) ∧
      x.Kin y ∧ Abreast R tasks tasks' (start net n t).2 y := by
  have hpost : ∀ {m : Node α} {y : Guise α} (k : TaskId), Abreast R tasks tasks' m y → x.Kin y →
      ∃ z : Guise α, (m.under y).post (.complete k) = (m.post (.complete k)).under z ∧ x.Kin z ∧
        Abreast R tasks tasks' (m.post (.complete k)) z := by
    intro m y k hm hkin
    refine ⟨y.post (.complete k), ?_, hkin.trans (.post y k), hm.post _⟩
    rw [post_under, under_post]
  have hone : ∀ {j : HandleId} {a : Access}, t.uses = [(j, a)] → j < n.handles.length :=
    fun hu => ht.2 _ (hu ▸ List.mem_cons_self)
  have hmay := ht.1
  unfold May at hmay
  unfold start
  cases hjob : t.job with
  | compute op => exact ⟨x, rfl, .refl x, h.of_parts rfl rfl rfl⟩
  | receive j src tag => exact ⟨x, rfl, .refl x, h.of_parts rfl rfl rfl⟩
  | grant =>
    dsimp only
    by_cases hheld : n.accessors.has t.id = true
    · rw [if_pos hheld, if_pos (show (n.under x).accessors.has t.id = true from hheld)]
      exact ⟨x, rfl, .refl x, h.of_parts rfl rfl (Table.keys_adjust n.accessors t.id
        fun a => { a with phase := .granted })⟩
    · rw [if_neg hheld, if_neg (show ¬(n.under x).accessors.has t.id = true from hheld)]
      obtain ⟨y, hy, hrest⟩ := hpost t.id h (.refl x)
      exact ⟨y, Prod.ext rfl hy, hrest⟩
  | retire tags =>
    obtain ⟨y, hy, hrest⟩ := hpost t.id h (.refl x)
    exact ⟨y, Prod.ext rfl hy, hrest⟩
  | withdrawn =>
    obtain ⟨y, hy, hrest⟩ := hpost t.id h (.refl x)
    exact ⟨y, Prod.ext rfl hy, hrest⟩
  | evict j =>
    rw [hjob] at hmay
    have hj := hone (hmay.resolve_left fun hc => by cases hc).1
    dsimp only
    rw [handle_under hj]
    cases (n.handle j).evict with
    | ok e =>
      dsimp only
      rw [setHandle_under hj]
      obtain ⟨y, hy, hrest⟩ := hpost (m := n.setHandle j e) t.id
        (h.of_parts rfl rfl rfl) (.refl x)
      exact ⟨y, Prod.ext rfl hy, hrest⟩
    | error f =>
      obtain ⟨y, hy, hrest⟩ := h.exists_stop
      exact ⟨y, Prod.ext rfl hy, hrest⟩
  | send j dst tag =>
    rw [hjob] at hmay
    have hj := hone (hmay.resolve_left fun hc => by cases hc).1
    have hm := onlyMemory_openHandle n j
    dsimp only
    rw [openHandle_under hj]
    generalize n.openHandle j = p at hm ⊢
    obtain ⟨m, r⟩ := p
    have h' : Abreast R tasks tasks' m x :=
      h.of_parts hm.scheduler hm.events (congrArg Table.keys hm.accessors)
    cases r with
    | error f =>
      obtain ⟨y, hy, hrest⟩ := h'.exists_stop
      exact ⟨y, Prod.ext rfl hy, hrest⟩
    | ok block =>
      dsimp only
      rw [under_rank]
      cases net.send m.rank dst tag (Scalar.encodeBlock block) with
      | ok net' =>
        obtain ⟨y, hy, hrest⟩ := hpost t.id h' (.refl x)
        exact ⟨y, Prod.ext rfl hy, hrest⟩
      | error e =>
        obtain ⟨y, hy, hrest⟩ := hpost t.id (h'.note (.transfer t.name e)) (.note x _)
        exact ⟨y, Prod.ext rfl hy, hrest⟩

/-- Tasks are started one after the other.  Those of `R` are started by the rank alone, and do
nothing wherever `calm` holds of the cluster, which the other tasks keep. -/
theorem exists_startAll {calm : Cluster → Prop} {todo : List (Task α)}
    (h : Abreast R tasks tasks' n x) (hn : n.scheduler.isSome) (hcalm : calm net)
    (ht : ∀ t ∈ todo, n.Sanctions t)
    (hidle : ∀ t ∈ todo, t.id ∈ R → ∀ net m, calm net → m.rank = n.rank →
      start net m t = (net, m.post (.complete t.id)))
    (hkeep : ∀ t ∈ todo, t.id ∉ R → ∀ net m, calm net → m.setting = n.setting →
      calm (start net m t).1) :
    ∃ y : Guise α, startAll net (n.under x) (Task.besides R todo) =
        ((startAll net n todo).1, (startAll net n todo).2.under y) ∧
      x.Kin y ∧ Abreast R tasks tasks' (startAll net n todo).2 y := by
  induction todo generalizing net n x with
  | nil => exact ⟨x, rfl, .refl x, h⟩
  | cons t todo ih =>
    have hset : (start net n t).2.setting = n.setting := (starts_of_start net n t).setting
    have hnext : ∀ {z : Guise α} {net' : Cluster}, (start net n t).2.scheduler.isSome →
        Abreast R tasks tasks' (start net n t).2 z → calm net' → ∃ y : Guise α,
          startAll net' ((start net n t).2.under z) (Task.besides R todo) =
            ((startAll net' (start net n t).2 todo).1,
              (startAll net' (start net n t).2 todo).2.under y) ∧
          z.Kin y ∧ Abreast R tasks tasks' (startAll net' (start net n t).2 todo).2 y := by
      intro z net' halive hz hc
      refine ih hz halive hc (fun u hu => (ht u (List.mem_cons_of_mem _ hu)).of_setting hset)
        (fun u hu hid net m hc hr => ?_) fun u hu hid net m hc hs => ?_
      · exact hidle u (List.mem_cons_of_mem _ hu) hid net m hc (hr.trans (rank_of_setting hset))
      · exact hkeep u (List.mem_cons_of_mem _ hu) hid net m hc (hs.trans hset)
    by_cases hid : t.id ∈ R
    · have hstart := hidle t List.mem_cons_self hid net n hcalm rfl
      have halive : (start net n t).2.scheduler.isSome := by
        rw [hstart, post_scheduler]
        exact hn
      have hz : Abreast R tasks tasks' (start net n t).2 x := by
        rw [hstart]
        exact h.post_hidden (decide_eq_true hid)
      obtain ⟨y, hy, hrest⟩ := hnext halive hz hcalm
      rw [show Task.besides R (t :: todo) = Task.besides R todo from
        List.filter_cons_of_neg (by simpa using hid)]
      have hall : startAll net n (t :: todo) = startAll net (start net n t).2 todo := by
        rw [startAll]
        dsimp only
        rw [if_pos halive, show (start net n t).1 = net by rw [hstart]]
      have hunder : (start net n t).2.under x = n.under x := by
        rw [hstart]
        exact under_post _ _ _
      rw [hall, ← hunder]
      exact ⟨y, hy, hrest⟩
    · rw [show Task.besides R (t :: todo) = t :: Task.besides R todo from
        List.filter_cons_of_pos (decide_eq_true hid)]
      obtain ⟨z, hz, hkin, hz'⟩ := h.exists_start (ht t List.mem_cons_self) net
      rw [startAll, startAll, hz]
      dsimp only
      rw [show ((start net n t).2.under z).scheduler.isSome = (start net n t).2.scheduler.isSome from
        hz'.isSome_eq]
      by_cases halive : (start net n t).2.scheduler.isSome
      · rw [if_pos halive, if_pos halive]
        obtain ⟨y, hy, hkin', hy'⟩ :=
          hnext halive hz' (hkeep t List.mem_cons_self hid net n hcalm rfl)
        exact ⟨y, hy, hkin.trans hkin', hy'⟩
      · rw [if_neg halive, if_neg halive]
        refine ⟨z, Prod.ext rfl ?_, hkin, hz'.close _⟩
        refine close_congr (n := (start net n t).2.under z) fun k hk => ?_
        have hk' : k ∉ R := hz'.keys k hk
        rw [List.mem_map, List.mem_map]
        refine exists_congr fun u => and_congr_left fun huk => ?_
        rw [Task.besides, List.mem_filter, decide_eq_true_iff]
        exact and_iff_left (huk ▸ hk')

/-- A rank and its double take an event that is not about the tasks `R`. -/
theorem exists_take {calm : Cluster → Prop} {events events' : List (Event α)}
    {p : Scheduler α × Reaction α} (h : Abreast R tasks tasks' n x) (hs : n.scheduler = some s)
    (hn : n.events = e :: events) (hx : x.events = e :: events') (he : e.hidden R = false)
    (hspares : (tasks ++ e.entries).Spares R) (hspares' : (tasks' ++ e.entries).Spares R)
    (hsort : ((tasks ++ e.entries).map (·.1)).Pairwise (· < ·))
    (hsort' : ((tasks' ++ e.entries).map (·.1)).Pairwise (· < ·)) (hok : s.react e = .ok p)
    (hcalm : calm net) (ht : ∀ t ∈ p.2.started, n.Sanctions t)
    (hidle : ∀ t ∈ p.2.started, t.id ∈ R → ∀ net m, calm net → m.rank = n.rank →
      start net m t = (net, m.post (.complete t.id)))
    (hkeep : ∀ t ∈ p.2.started, t.id ∉ R → ∀ net m, calm net → m.setting = n.setting →
      calm (start net m t).1) (htake : takeEvent net n = some (net', n')) :
    ∃ y : Guise α, takeEvent net (n.under x) = some (net', n'.under y) ∧
      y.rest = x.rest ∧ y.codelets = x.codelets ∧ submits y.events = submits events' ∧
      Abreast R (tasks ++ e.entries) (tasks' ++ e.entries) n' y := by
  obtain ⟨s', hs', twin⟩ := h.twin hs
  obtain ⟨q, p', hq, hok', twin', hstarted⟩ := twin.react he hspares hspares' hsort hsort'
  obtain rfl : q = p := Except.ok.inj (hq.symm.trans hok)
  have hseen := h.events
  rw [hn, hx, seen_cons_of_not_hidden he, seen_cons_of_not_hidden he, List.cons.injEq] at hseen
  have hmid : Abreast R (tasks ++ e.entries) (tasks' ++ e.entries)
      { n with events, scheduler := some q.1 }
      { x with events := events', scheduler := some p'.1 } :=
    ⟨.running twin', hseen.2, h.keys⟩
  obtain ⟨y, hy, hkin, hall⟩ := hmid.exists_startAll rfl hcalm ht hidle hkeep
  cases (takeEvent_of_react hs hn hok).symm.trans htake
  refine ⟨{ y with barriers := ((n.under y).pass p'.2.passed).barriers }, ?_, hkin.rest, hkin.codelets,
    hkin.submits, hall.schedulers, hall.events, hall.keys⟩
  rw [takeEvent_of_react (n := n.under x) hs' hx hok', hstarted]
  refine congrArg some ?_
  have hrun : startAll net ({ n.under x with events := events', scheduler := some p'.1 } : Node α)
      (Task.besides R q.2.started) = _ := hy
  rw [hrun]
  rfl

/-- A rank takes an event about the tasks `R` while its double does nothing. -/
theorem take_hidden {calm : Cluster → Prop} {events : List (Event α)}
    {p : Scheduler α × Reaction α} (h : Abreast R tasks tasks' n x) (hs : n.scheduler = some s)
    (hn : n.events = e :: events) (he : e.hidden R = true) (hspares : tasks.Spares R)
    (hsort : ((tasks ++ e.entries).map (·.1)).Pairwise (· < ·)) (hok : s.react e = .ok p)
    (hcalm : calm net) (ht : ∀ t ∈ p.2.started, n.Sanctions t)
    (hidle : ∀ t ∈ p.2.started, t.id ∈ R → ∀ net m, calm net → m.rank = n.rank →
      start net m t = (net, m.post (.complete t.id)))
    (htake : takeEvent net n = some (net', n')) :
    net' = net ∧ ∃ y : Guise α, n.under x = n'.under y ∧ x.Kin y ∧
      Abreast R (tasks ++ e.entries) tasks' n' y := by
  obtain ⟨s', hs', twin⟩ := h.twin hs
  obtain ⟨q, hq, hshrugs⟩ := Scheduler.exists_shrugs twin.stands hspares hsort he
  obtain rfl : q = p := Except.ok.inj (hq.symm.trans hok)
  have hseen := h.events
  rw [hn, seen_cons_of_hidden he] at hseen
  have hmid : Abreast R (tasks ++ e.entries) tasks' { n with events, scheduler := some q.1 } x :=
    ⟨hs' ▸ .running (twin.left hshrugs he hsort), hseen, h.keys⟩
  obtain ⟨y, hy, hkin, hall⟩ := hmid.exists_startAll rfl hcalm ht hidle
    fun t ht hid => absurd (hshrugs.started t ht) hid
  have hnone : Task.besides R q.2.started = [] := List.filter_eq_nil_iff.mpr fun t ht => by
    simpa using hshrugs.started t ht
  rw [hnone] at hy
  cases (takeEvent_of_react hs hn hok).symm.trans htake
  obtain ⟨hnet, hnode⟩ := Prod.mk.inj hy
  exact ⟨hnet.symm, y, hnode, hkin, hall.schedulers, hall.events, hall.keys⟩

/-! ## Catching up -/

/-- The double takes an event about the tasks `R`, and does at once what follows from it. -/
theorem exists_drain {events' : List (Event α)} (h : Abreast R tasks tasks' n x)
    (hs : n.scheduler = some s) (hx : x.events = e :: events') (he : e.hidden R = true)
    (hspares' : tasks'.Spares R) (hsort' : ((tasks' ++ e.entries).map (·.1)).Pairwise (· < ·))
    (hlight : ∀ t, e = .submit t → t.uses = [] ∧ t.job = .compute .idle) (net : Cluster) :
    ∃ y : Guise α, (n.under x).Quiets net (n.under y) ∧ y.rest = x.rest ∧
      y.codelets = x.codelets ∧ submits y.events = submits events' ∧
      (y.events.map eventWeight).sum < (x.events.map eventWeight).sum ∧
      Abreast R tasks (tasks' ++ e.entries) n y := by
  obtain ⟨s', hs', twin⟩ := h.twin hs
  obtain ⟨p, hok, hshrugs⟩ := Scheduler.exists_shrugs twin.stands' hspares' hsort' he
  have huses : ∀ t, e.task? = some t → t.uses = [] := by
    intro t ht
    cases e with
    | submit u =>
      obtain rfl := Option.some.inj ht
      exact (hlight _ rfl).1
    | complete | fail | wait => cases ht
  obtain ⟨twin', hstarted⟩ := twin.right hshrugs he hsort' huses
  have hseen := h.events
  rw [hx, seen_cons_of_hidden he] at hseen
  have hpaired : Paired R tasks (tasks' ++ e.entries) n.scheduler (some p.1) := hs ▸ .running twin'
  have htake : takeEvent net (n.under x) = some
      ((startAll net ((n.under { x with events := events', scheduler := some p.1 })) e.task?.toList).1,
        (startAll net (n.under { x with events := events', scheduler := some p.1 })
          e.task?.toList).2.pass p.2.passed) := by
    rw [takeEvent_of_react (n := n.under x) hs' hx hok, hstarted]
    rfl
  have hnone : e.task?.toList = [] → ∃ y : Guise α, (n.under x).Quiets net (n.under y) ∧
      y.rest = x.rest ∧ y.codelets = x.codelets ∧ submits y.events = submits events' ∧
      (y.events.map eventWeight).sum < (x.events.map eventWeight).sum ∧
      Abreast R tasks (tasks' ++ e.entries) n y := by
    intro hnone
    rw [hnone] at htake
    refine ⟨{ x with
        events := events'
        scheduler := some p.1
        barriers := ((n.under x).pass p.2.passed).barriers },
      .snoc .take (Or.inl rfl) .refl htake, rfl, rfl, rfl, ?_, hpaired, hseen, h.keys⟩
    rw [hx, List.map_cons, List.sum_cons]
    exact Nat.lt_add_of_pos_left (eventWeight_pos e)
  cases e with
  | submit t =>
    -- the operation is started, and runs at once
    let y : Guise α := { x with
      events := events' ++ [.complete t.id]
      scheduler := some p.1
      barriers := ((n.under x).pass p.2.passed).barriers }
    have hstart : takeEvent net (n.under x) = some (net, { n.under { y with events := events' } with
        work := n.work ++ [⟨t.id, .idle⟩] }) := by
      rw [htake]
      show some ((startAll net _ [t]).1, (startAll net _ [t]).2.pass p.2.passed) = _
      rw [startAll, start, (hlight t rfl).2]
      rfl
    have hrun := act_idle (n.under { y with events := events' }) t.id net
    refine ⟨y, .snoc _ (Or.inr ⟨_, rfl⟩) (.snoc .take (Or.inl rfl) .refl hstart) hrun, rfl, rfl, ?_, ?_,
      hpaired, ?_, h.keys⟩
    · rw [submits_append]
      exact List.append_nil _
    · rw [hx, List.map_append, List.sum_append, List.map_cons, List.sum_cons, Nat.add_comm]
      exact Nat.add_lt_add_right (show 1 < 4 by decide) _
    · rw [seen_append, hseen, seen_cons_of_hidden (show Event.hidden R (.complete t.id) = true from he)]
      exact List.append_nil _
  | complete k => exact hnone rfl
  | fail k f => exact hnone rfl
  | wait b => exact hnone rfl

/-- A double catches up with its rank: what it takes next is what the rank takes next, apart from
what is about the tasks `R`. -/
theorem exists_catchUp (h : Abreast R tasks tasks' n x) (hs : n.scheduler = some s)
    (hlight : x.Light R tasks') (net : Cluster) : ∃ (y : Guise α) (tasks'' : Roster),
      (n.under x).Quiets net (n.under y) ∧ y.rest = x.rest ∧ y.codelets = x.codelets ∧
      y.agenda tasks'' = x.agenda tasks' ∧ (∀ e ∈ y.events.head?, e.hidden R = false) ∧
      Abreast R tasks tasks'' n y ∧ y.Light R tasks'' := by
  induction hw : (x.events.map eventWeight).sum using Nat.strong_induction_on
    generalizing x tasks' with
  | _ w ih =>
    subst hw
    cases hx : x.events with
    | nil => exact ⟨x, tasks', .refl, rfl, rfl, rfl, by simp [hx], h, hlight⟩
    | cons e events' =>
      by_cases he : e.hidden R = true
      · have hagenda := Guise.agenda_cons tasks' hx
        obtain ⟨y, hquiets, hrest, hcodelets, hsubmits, hless, hy⟩ := h.exists_drain hs hx he
          (hlight.spares.left) (hlight.sorted_cons hx) (hlight.of_cons hx he) net
        have hsame : y.agenda (tasks' ++ e.entries) = x.agenda tasks' := by
          rw [← hagenda, Guise.agenda, hsubmits]
        have hsub : submits y.events ⊆ submits x.events := by
          rw [hsubmits, hx]
          exact submits_subset_cons e events'
        obtain ⟨z, tasks'', hquiets', hrest', hcodelets', hagenda', hhead, hz, hlight'⟩ :=
          ih _ hless hy (hlight.of_agenda hsame hsub) rfl
        exact ⟨z, tasks'', hquiets.trans hquiets', hrest'.trans hrest, hcodelets'.trans hcodelets,
          hagenda'.trans hsame, hhead, hz, hlight'⟩
      · refine ⟨x, tasks', .refl, rfl, rfl, rfl, fun f hf => ?_, h, hlight⟩
        rw [hx] at hf
        obtain rfl := Option.some.inj hf
        exact Bool.eq_false_iff.mpr he

end Abreast

end Node

end TiledTensor
