import TiledTensor.Proofs.Actions
import TiledTensor.Proofs.Faithful

/-!
# The account of a rank

The account of a rank is its log, kept in order, together with the deeds of the logged tasks, which
explain everything that its buffers show.  This file goes once more through what can happen on a
rank and says what becomes of the account: a call adds a task and its deed, a computation that runs
and a receive that ends perform theirs, a grant begins one, and the holder of an accessor prolongs
it.
-/

namespace TiledTensor

namespace Node

variable {α : Type} {n n' m : Node α} {log : List (Task α)} {done : TaskId → Prop}
  {todo : List (Task α)} {init : Store α} {deeds : List (Deed α)} {k : TaskId} {d : Deed α}
  {t : Task α} {s : Scheduler α}

/-! ## Submission -/

/-- An operation is queued as it is, and its writes are noted. -/
theorem submit_eq_ok {op : Op α} (h : n.submit op = (n', .ok ())) :
    ∃ id, (n.markWritten op.uses).enqueue op.name op.uses (.compute op) = (n', .ok id) := by
  unfold Node.submit submitOn at h
  split at h
  · cases h
  · generalize (n.markWritten op.uses).enqueue op.name op.uses (.compute op) = p at h ⊢
    obtain ⟨p, r⟩ := p
    cases r with
    | error e => cases h
    | ok id =>
      simp only [Prod.mk.injEq] at h
      exact ⟨id, by rw [h.1]⟩

/-! ## The beginning -/

/-- Nothing has been asked of the rank yet.  It may have buffers. -/
structure Fresh (n : Node α) : Prop where
  scheduler : n.scheduler = some {}
  events : n.events = []
  work : n.work = []
  arrivals : n.arrivals = []
  accessors : n.accessors = []
  nextTask : n.nextTask = 0
  unsent : ∀ h, (n.handle h).sent = []
  uncached : ∀ h, (n.handle h).state ≠ .remoteCached

/-- A rank that has been set up with buffers of which nothing has been sent or received. -/
theorem fresh_of_handles (rank : Rank) (size : Nat) (codelets : List String)
    {handles : List (Handle α)} (h : ∀ e ∈ handles, e.sent = [] ∧ e.state ≠ .remoteCached) :
    ({ rank, size, codelets, handles } : Node α).Fresh := by
  have hall : ∀ k, (handles.getD k default).sent = [] ∧
      (handles.getD k default).state ≠ .remoteCached := by
    intro k
    rw [List.getD_eq_getElem?_getD]
    cases hk : handles[k]? with
    | none => exact ⟨rfl, Coherence.noConfusion⟩
    | some e => exact h e (List.mem_of_getElem? hk)
  exact ⟨rfl, rfl, rfl, rfl, rfl, rfl, fun k => (hall k).1, fun k => (hall k).2⟩

theorem Fresh.not_active (h : n.Fresh) (k : TaskId) : ¬n.Active k := by
  rintro (⟨w, hw, -⟩ | ⟨a, ha, -⟩ | ⟨a, ha, -⟩)
  · rw [h.work] at hw
    cases hw
  · rw [h.arrivals] at ha
    cases ha
  · rw [h.accessors] at ha
    cases ha

theorem Fresh.orderly (h : n.Fresh) : n.Orderly [] (fun _ => False) [] := by
  refine ⟨⟨h.nextTask, by simp, by simp, ?_, ?_, ?_, ?_, ?_, ?_, ?_, ?_⟩, ?_⟩
  · intro j k _ hk
    exact hk
  · intro j k _ hk
    exact h.not_active k hk
  · intro k _ hk
    exact hk
  · simp [h.work]
  · simp [h.arrivals]
  · intro k a ha
    rw [h.accessors] at ha
    cases ha
  · simp [h.work]
  · simp [h.arrivals]
  · intro s hs
    rw [h.scheduler] at hs
    obtain rfl := Option.some.inj hs
    refine ⟨0, [], TaskGraph.tracks_empty, by simp, by simp, by simp, Nat.le_refl _, ?_, ?_, by simp,
      ?_, by simp, ?_, by simp, by simp, by simp⟩
    · rw [h.events]
      rfl
    · simp [h.events]
    · intro k t ht
      cases ht
    · intro k _
      exact ⟨id, h.not_active k⟩

section

variable [Scalar α]

/-- The log is in order, and its deeds explain what is shown. -/
structure Account (n : Node α) (log : List (Task α)) (done : TaskId → Prop) (todo : List (Task α))
    (init : Store α) (deeds : List (Deed α)) : Prop where
  orderly : n.Orderly log done todo
  faithful : n.Faithful log done init deeds
  /-- Nobody writes before access is granted. -/
  idle : ∀ (k : TaskId) t d, log[k]? = some t → t.job = .grant → deeds[k]? = some d →
    ¬n.Applied done k → ∀ s, d.effect s = s

/-- A rank of which nothing has been asked shows what it began with. -/
theorem Fresh.account (h : n.Fresh) : n.Account [] (fun _ => False) [] n.shows [] := by
  refine ⟨h.orderly, ⟨rfl, by simp, ?_⟩, by simp⟩
  intro k j hk _
  rw [List.take_nil]
  rfl

namespace Account

/-- What has been applied stays applied. -/
theorem idle_of {done' : TaskId → Prop} (ha : n.Account log done todo init deeds)
    (happ : ∀ j, n.Applied done j → n'.Applied done' j) (k : TaskId) (t : Task α) (d : Deed α)
    (ht : log[k]? = some t) (hj : t.job = .grant) (hd : deeds[k]? = some d)
    (hn : ¬n'.Applied done' k) (s : Store α) : d.effect s = s :=
  ha.idle k t d ht hj hd (mt (happ k) hn) s

/-! ## Nothing happens to tasks -/

/-- Buffers are opened or marked. -/
theorem onlyBuffers (ha : n.Account log done todo init deeds) (hm : n.OnlyBuffers m)
    (hshows : m.shows = n.shows) : m.Account log done todo init deeds := by
  have happ : ∀ j, m.Applied done j ↔ n.Applied done j := by
    intro j
    apply applied_iff_of_accessors
    rw [hm.eq]
  exact ⟨ha.orderly.onlyBuffers hm, ha.faithful.frame hm.length hshows happ,
    ha.idle_of fun j => (happ j).mpr⟩

/-- The scheduler stops, and accessors of tasks that are not started are closed. -/
theorem stop (ha : n.Account log done todo init deeds) (ids : List TaskId) :
    (n.stop.close ids).Account log done [] init deeds := by
  have happ : ∀ j, (n.stop.close ids).Applied done j ↔ n.Applied done j :=
    fun j => or_congr_right (granted_close_iff.trans granted_stop_iff)
  refine ⟨(ha.orderly.sound.stop.close ids).orderly (by simp), ha.faithful.frame ?_ ?_ happ,
    ha.idle_of fun j => (happ j).mpr⟩
  · exact congrArg List.length (stop_handles n)
  · funext h
    show ((n.stop).handle h).shows = (n.handle h).shows
    unfold handle
    rw [stop_handles]

/-- Barriers are passed. -/
theorem pass (ha : n.Account log done todo init deeds)
    (passed : List (BarrierId × Option TaskError)) :
    (n.pass passed).Account log done todo init deeds :=
  ⟨ha.orderly.pass passed, ha.faithful.frame rfl rfl fun _ => Iff.rfl, ha.idle⟩

/-! ## Calls -/

/-- A new accessor is not written yet. -/
theorem idle_append (ha : n.Account log done todo init deeds)
    (hidle : t.job = .grant → ∀ s, d.effect s = s) (k : TaskId) (u : Task α) (e : Deed α)
    (hu : (log ++ [t])[k]? = some u) (hj : u.job = .grant) (he : (deeds ++ [d])[k]? = some e)
    (hn : ¬n.Applied done k) (s : Store α) : e.effect s = s := by
  have hlen := ha.faithful.length_eq
  rcases getElem?_append_singleton_eq_some hu with hu | ⟨rfl, rfl⟩
  · rw [List.getElem?_append_left (hlen ▸ lt_of_getElem?_eq_some hu)] at he
    exact ha.idle k u e hu hj he hn s
  · rw [← hlen, List.getElem?_concat_length, Option.some.injEq] at he
    subst he
    exact hidle hj s

/-- A task is queued. -/
theorem enqueue (ha : n.Account log done todo init deeds) {name : String}
    {uses : List (HandleId × Access)} {job : Job α} {id : TaskId}
    (h : n.enqueue name uses job = (n', .ok id)) (hp : Task.Proper ⟨log.length, name, uses, job⟩)
    (hb : ∀ u ∈ uses, u.1 < n.handles.length) (hd : d.uses = uses)
    (hidle : job = .grant → ∀ s, d.effect s = s) :
    n'.Account (log ++ [⟨log.length, name, uses, job⟩]) done todo init (deeds ++ [d]) := by
  obtain ⟨-, -, hn'⟩ := enqueue_eq_ok h
  have hf : n.Faithful (log ++ [⟨log.length, name, uses, job⟩]) done init (deeds ++ [d]) :=
    ha.faithful.append ha.orderly.sound hd hb
  have hi := ha.idle_append (t := ⟨log.length, name, uses, job⟩) hidle
  have ho := (ha.orderly.enqueue h hp).2
  subst hn'
  exact ⟨ho, hf.frame rfl rfl fun _ => Iff.rfl, hi⟩

/-- An operation is submitted. -/
theorem submit (ha : n.Account log done todo init deeds) {op : Op α}
    (h : n.submit op = (n', .ok ())) (hb : ∀ u ∈ op.uses, u.1 < n.handles.length ∧ u.2 ≠ .scratch) :
    n'.Account (log ++ [⟨log.length, op.name, op.uses, .compute op⟩]) done todo init
      (deeds ++ [Deed.ofOp op]) := by
  obtain ⟨id, hok⟩ := submit_eq_ok h
  have hm := onlyBuffers_markWritten n op.uses
  refine (ha.onlyBuffers hm (shows_markWritten n op.uses)).enqueue hok ⟨?_, rfl⟩ ?_ rfl (by simp)
  · intro u hu
    exact (hb u hu).2
  · intro u hu
    rw [hm.length]
    exact (hb u hu).1

/-- An accessor is asked for. -/
theorem acquire (ha : n.Account log done todo init deeds) {h : HandleId} {a : Access} {id : TaskId}
    (hok : n.acquire h a = (n', .ok id)) (hb : h < n.handles.length) (hd : d.uses = [(h, a)])
    (hidle : ∀ s, d.effect s = s) :
    n'.Account (log ++ [⟨log.length, "acquire", [(h, a)], .grant⟩]) done todo init
      (deeds ++ [d]) := by
  obtain ⟨-, -, -, -, hn'⟩ := acquire_eq_ok hok
  have hm := onlyBuffers_markWritten n [(h, a)]
  have hf : n.Faithful (log ++ [⟨log.length, "acquire", [(h, a)], .grant⟩]) done init
      (deeds ++ [d]) := by
    refine ha.faithful.append ha.orderly.sound hd ?_
    intro u hu
    rw [List.mem_singleton.mp hu]
    exact hb
  have happ : ∀ j, n'.Applied done j ↔ n.Applied done j := by
    intro j
    rw [hn']
    unfold Applied
    dsimp only
    rw [Table.find?_put]
    by_cases hj : j = n.nextTask
    · -- the number is new, so nobody has been granted access under it before
      rw [if_pos hj]
      refine or_congr_right (iff_of_false ?_ ?_)
      · rintro ⟨b, hb', hg⟩
        cases hb'
        cases hg
      · rintro ⟨b, hb', hg⟩
        obtain ⟨t, ht, -⟩ := ha.orderly.sound.accessors j b hb'
        rw [hj, ha.orderly.sound.next] at ht
        exact Nat.lt_irrefl _ (lt_of_getElem?_eq_some ht)
    · rw [if_neg hj]
  refine ⟨(ha.orderly.acquire hok).2, hf.frame ?_ ?_ happ, ?_⟩
  · rw [hn']
    exact hm.length
  · rw [hn']
    exact shows_markWritten n [(h, a)]
  · intro k t e ht hj he hn
    exact ha.idle_append (t := ⟨log.length, "acquire", [(h, a)], .grant⟩) (fun _ => hidle) k t e ht
      hj he (mt (happ k).mpr hn)

/-! ## The holders of accessors -/

/-- An accessor is given up. -/
theorem release (ha : n.Account log done todo init deeds) {a : Accessor}
    (hacc : n.accessors.find? k = some a) :
    (n.release k).Account log (fun j => done j ∨ (j = k ∧ a.phase = .granted)) todo init deeds := by
  have happ : ∀ j, (n.release k).Applied (fun j => done j ∨ (j = k ∧ a.phase = .granted)) j ↔
      n.Applied done j := by
    intro j
    unfold Applied
    rw [Node.release, post_accessors, Table.find?_erase]
    by_cases hj : j = k
    · rw [hj, if_pos rfl, hacc]
      simp
    · simp [hj]
  refine ⟨ha.orderly.release hacc, ha.faithful.frame ?_ ?_ happ, ha.idle_of fun j => (happ j).mpr⟩
  · rw [Node.release, post_handles]
  · funext h
    unfold Node.shows handle Node.release
    rw [post_handles]

/-- What the holder of an accessor writes. -/
theorem enterWrite_eq_some {a : Accessor} {block : List α} (hb : a.handle < n.handles.length)
    (h : n.enterWrite a block = some n') :
    n.OnlyMemory n' ∧ n'.shows = (Deed.puts a.handle a.access [block]).effect n.shows := by
  have hopen := onlyMemory_openHandle n a.handle
  have hshows := shows_openHandle n a.handle
  have hopened : (n.openHandle a.handle).1.Opened a.handle := by
    unfold Opened
    rw [openHandle_fst, handle_setHandle, if_pos ⟨rfl, hb⟩]
    exact Handle.access_memory_ne_absent _
  unfold enterWrite enter at h
  generalize n.openHandle a.handle = p at h hopen hshows hopened
  obtain ⟨p, r⟩ := p
  cases r with
  | error f => cases h
  | ok old =>
    dsimp only at h hopen hshows hopened
    unfold write at h
    by_cases hw : a.access.writes = true
    · rw [if_pos hw] at h
      obtain rfl := Option.some.inj h
      refine ⟨hopen.trans (onlyMemory_store p a.handle block), ?_⟩
      rw [shows_setHandle (hopen.length ▸ hb), Handle.shows_store hopened, hshows]
      show _ = if a.access.writes = true then _ else _
      rw [if_pos hw, List.foldl_cons, List.foldl_nil, ← hshows]
      rfl
    · rw [if_neg hw] at h
      cases h

/-- The holder of an accessor writes the buffer. -/
theorem put (ha : n.Account log done todo init deeds) {a : Accessor} (hk : n.held k = some a)
    {block : List α} (h : n.enterWrite a block = some n') (hd : deeds[k]? = some d)
    (hu : d.uses = [(a.handle, a.access)]) :
    n'.Account log done todo init
      (deeds.set k (d.andThen (Deed.puts a.handle a.access [block]) hu.symm)) := by
  obtain ⟨hacc, hg⟩ := held_eq_some_iff.mp hk
  obtain ⟨t, ht, -, huses⟩ := ha.orderly.sound.accessors k a hacc
  have hb : a.handle < n.handles.length :=
    ha.faithful.bounds t (List.mem_of_getElem? ht) (a.handle, a.access) (by simp [huses])
  obtain ⟨hm, hshows⟩ := enterWrite_eq_some hb h
  have hsame : n'.accessors = n.accessors := by rw [hm.eq]
  refine ⟨ha.orderly.onlyBuffers hm.toOnlyBuffers,
    ha.faithful.prolong ha.orderly.sound hd hacc hg _ hu.symm hm.length hshows hsame, ?_⟩
  intro j u e hu' hj he hn
  have hne : k ≠ j := by
    rintro rfl
    exact hn ((applied_iff_of_accessors hsame).mpr (Or.inr ⟨a, hacc, hg⟩))
  rw [List.getElem?_set_ne hne] at he
  exact ha.idle j u e hu' hj he (mt (applied_iff_of_accessors hsame).mpr hn)

/-! ## The ends of tasks -/

/-- A computation runs. -/
theorem runWork (ha : n.Account log done todo init deeds) {i : Nat} {w : Work α}
    (hw : n.work[i]? = some w) (hd : deeds[w.id]? = some (Deed.ofOp w.op)) :
    ((({ n with work := n.work.eraseIdx i } : Node α).run w.op).post (.complete w.id)).Account log
      (fun j => done j ∨ j = w.id) todo init deeds := by
  have hactive : n.Active w.id := Or.inl ⟨w, List.mem_of_getElem? hw, rfl⟩
  obtain ⟨t, ht, hjob⟩ := ha.orderly.sound.work w (List.mem_of_getElem? hw)
  obtain ⟨t', ht', huses⟩ := getElem?_of_uses ha.faithful.uses hd
  have hm := onlyMemory_run ({ n with work := n.work.eraseIdx i } : Node α) w.op
  have hb : ∀ u ∈ w.op.uses, u.1 < n.handles.length := by
    intro u hu
    refine ha.faithful.bounds t' (List.mem_of_getElem? ht') u ?_
    rw [huses]
    exact hu
  have happ : ∀ j, ((({ n with work := n.work.eraseIdx i } : Node α).run w.op).post
      (.complete w.id)).Applied (fun j => done j ∨ j = w.id) j ↔ n.Applied done j ∨ j = w.id := by
    intro j
    unfold Applied
    rw [post_accessors, hm.eq]
    exact or_right_comm
  refine ⟨ha.orderly.runWork hw hm.toOnlyBuffers,
    ha.faithful.apply ha.orderly.sound hd ?_ ?_ ?_ ?_ happ,
    ha.idle_of fun j hj => (happ j).mpr (Or.inl hj)⟩
  · exact ha.orderly.sound.not_applied_of_job hactive ht (by simp [hjob])
  · intro j hj
    exact ha.orderly.sound.first j w.id hj hactive
  · rw [post_handles]
    exact hm.length
  · funext h
    have := congrFun (shows_run ({ n with work := n.work.eraseIdx i } : Node α) w.op hb) h
    unfold Node.shows handle at this ⊢
    rw [post_handles]
    exact this

/-- A receive ends and says so. -/
theorem receive (ha : n.Account log done todo init deeds) {i : Nat} {a : Arrival}
    (hi : n.arrivals[i]? = some a) (hm : OnlyBuffers { n with arrivals := n.arrivals.eraseIdx i } m)
    {e : Event α} (hend : e.ended? = some a.id) (hd : deeds[a.id]? = some d)
    (hshows : m.shows = d.effect n.shows) :
    (m.post e).Account log (fun j => done j ∨ j = a.id) todo init deeds := by
  have hactive : n.Active a.id := Or.inr (Or.inl ⟨a, List.mem_of_getElem? hi, rfl⟩)
  obtain ⟨t, src, tag, ht, hjob⟩ := ha.orderly.sound.arrivals a (List.mem_of_getElem? hi)
  have happ : ∀ j, (m.post e).Applied (fun j => done j ∨ j = a.id) j ↔
      n.Applied done j ∨ j = a.id := by
    intro j
    unfold Applied
    rw [post_accessors, hm.eq]
    exact or_right_comm
  refine ⟨ha.orderly.receive hi hm hend, ha.faithful.apply ha.orderly.sound hd ?_ ?_ ?_ ?_ happ,
    ha.idle_of fun j hj => (happ j).mpr (Or.inl hj)⟩
  · exact ha.orderly.sound.not_applied_of_job hactive ht (by simp [hjob])
  · intro j hj
    exact ha.orderly.sound.first j a.id hj hactive
  · rw [post_handles]
    exact hm.length
  · rw [← hshows]
    funext h
    unfold Node.shows handle
    rw [post_handles]

/-! ## Starts -/

/-- A computation becomes ready. -/
theorem startCompute {op : Op α} (ha : n.Account log done (t :: todo) init deeds)
    (hs : n.scheduler = some s) (hj : t.job = .compute op) :
    Account { n with work := n.work ++ [⟨t.id, op⟩] } log done todo init deeds :=
  ⟨ha.orderly.startCompute hs hj, ha.faithful.frame rfl rfl fun _ => Iff.rfl, ha.idle⟩

/-- A receive is on its way. -/
theorem startReceive {h : HandleId} {src : Rank} {tag : Tag} {ticket : Ticket}
    (ha : n.Account log done (t :: todo) init deeds) (hs : n.scheduler = some s)
    (hj : t.job = .receive h src tag) :
    Account { n with arrivals := n.arrivals ++ [⟨t.id, t.name, h, ticket⟩] } log done todo init
      deeds :=
  ⟨ha.orderly.startReceive hs hj, ha.faithful.frame rfl rfl fun _ => Iff.rfl, ha.idle⟩

/-- The next task to start has not been applied. -/
theorem not_applied_next (ha : n.Account log done (t :: todo) init deeds)
    (hs : n.scheduler = some s) : ¬n.Applied done t.id := by
  obtain ⟨-, hd, hactive, -⟩ := ha.orderly.next hs
  rintro (h | ⟨a, hacc, hg⟩)
  · exact hd h
  · exact hactive (Or.inr (Or.inr ⟨a, hacc, hg⟩))

/-- An accessor is granted. Its holder has not written yet. -/
theorem startGrant (ha : n.Account log done (t :: todo) init deeds) (hs : n.scheduler = some s)
    (hj : t.job = .grant) (hhas : n.accessors.has t.id = true) (hd : deeds[t.id]? = some d) :
    Account { n with accessors := n.accessors.adjust t.id fun a => { a with phase := .granted } }
      log done todo init deeds := by
  obtain ⟨-, -, -, hfirst⟩ := ha.orderly.next hs
  have ht : log[t.id]? = some t := ha.orderly.next_eq hs fun u h => by
    rw [h] at hj
    cases hj
  have hn := ha.not_applied_next hs
  have happ : ∀ j, Applied { n with
      accessors := n.accessors.adjust t.id fun a => { a with phase := .granted } } done j ↔
        n.Applied done j ∨ j = t.id := by
    intro j
    obtain ⟨a, hacc⟩ := Table.exists_find?_of_mem_keys (Table.has_iff.mp hhas)
    unfold Applied
    dsimp only
    rw [Table.find?_adjust]
    by_cases hj' : j = t.id
    · rw [if_pos hj', hj', hacc]
      simp
    · simp [hj']
  exact ⟨ha.orderly.startGrant hs hj hhas, ha.faithful.apply ha.orderly.sound hd hn hfirst rfl
    (ha.idle _ t d ht hj hd hn _).symm happ, ha.idle_of fun j hj => (happ j).mpr (Or.inl hj)⟩

/-- A task is done as soon as it is started. -/
theorem finishFirst (ha : n.Account log done (t :: todo) init deeds) (hs : n.scheduler = some s)
    (hm : n.OnlyBuffers m) (hd : deeds[t.id]? = some d) (hshows : m.shows = d.effect n.shows) :
    (m.post (.complete t.id)).Account log (fun j => done j ∨ j = t.id) todo init deeds := by
  obtain ⟨-, -, -, hfirst⟩ := ha.orderly.next hs
  have happ : ∀ j, (m.post (.complete t.id)).Applied (fun j => done j ∨ j = t.id) j ↔
      n.Applied done j ∨ j = t.id := by
    intro j
    unfold Applied
    rw [post_accessors, hm.eq]
    exact or_right_comm
  refine ⟨ha.orderly.finishFirst_post hs hm,
    ha.faithful.apply ha.orderly.sound hd (ha.not_applied_next hs) hfirst ?_ ?_ happ,
    ha.idle_of fun j hj => (happ j).mpr (Or.inl hj)⟩
  · rw [post_handles]
    exact hm.length
  · rw [← hshows]
    funext h
    unfold Node.shows handle
    rw [post_handles]

/-! ## The end -/

/-- When the graph is empty and no submission waits to be taken, all tasks are done. -/
theorem done_of_isEmpty (ha : n.Account log done todo init deeds) (hs : n.scheduler = some s)
    (hg : s.graph.isEmpty = true) (he : ∀ t, .submit t ∉ n.events) : ∀ j < log.length, done j := by
  obtain ⟨c, roster, hr⟩ := ha.orderly.running s hs
  have hroster : roster = [] := hr.tracks.isEmpty_iff.mp hg
  have hlen : log.length ≤ c := List.drop_eq_nil_iff.mp (hr.queued.eq_nil he)
  intro j hj
  refine hr.gone j (Nat.lt_of_lt_of_le hj hlen) ?_
  rw [hroster]
  exact List.not_mem_nil

end Account

end

end Node

end TiledTensor
